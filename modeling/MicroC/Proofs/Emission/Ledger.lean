import Mathlib.Data.List.Nodup
import Mathlib.Data.List.Range
import MicroC.Emission.Frame

/-!
# The ledger of a frame

A frame as it is kept while code is emitted: next to the declarations in their order there is a map from each of them
to its place, and the number of words is counted along. Where a block is entered a mark is set, and where it is left
the ledger goes back to the mark.

* `Ledger`: what is kept, and `Ledger.frame`, the frame that it tells of.
* `Move`, `Book`: what may happen to a ledger, and a ledger with those at the marks that are still set.
* `Ledger.Laid`, `Ledger.Rests`: the places are those of the words from the frame pointer down; nothing but variables
  and their padding is below it.
* `Book.Keeps`: nothing that happens to a ledger puts it out of order.
* **`Ledger.Laid.release`**: from a mark a ledger comes back as it was.
-/

namespace MicroC

open Convention

/-! ## Ledgers -/

/-- What is remembered of a ledger where a block is entered. -/
structure Mark where
  /-- How many declarations had a place. -/
  declared : Nat
  words : Nat
  padded : Bool
deriving DecidableEq

/-- What is kept of the words below the frame pointer. -/
structure Ledger where
  /-- The places of declarations, relative to the frame pointer. -/
  slots : NodeId → Option Int := fun _ => none
  /-- The declarations that have a place, in the order in which they got it. -/
  declared : List NodeId := []
  /-- How many words the variables have. -/
  words : Nat := 0
  /-- Whether a word of padding lies below the variables. -/
  padded : Bool := false
  /-- How many temporaries there are. -/
  temps : Nat := 0

/-- The place of the word with `i` others above it. -/
def slotPlace (i : Nat) : Int := -((wordSize * (i + 1) : Nat) : Int)

namespace Ledger

def depth (g : Ledger) : Nat := g.words + g.padded.toNat + g.temps

def isAligned (g : Ledger) : Bool := g.depth % 2 == 0

/-- Gives a declaration the word below the variables. -/
def declare (g : Ledger) (d : NodeId) : Ledger :=
  { g with
    slots := fun e => if e = d then some (slotPlace g.words) else g.slots e
    declared := g.declared ++ [d]
    words := g.words + 1 }

def mark (g : Ledger) : Mark := ⟨g.declared.length, g.words, g.padded⟩

/-- Goes back to a mark. -/
def release (g : Ledger) (m : Mark) : Ledger :=
  { g with
    slots := fun e => if e ∈ g.declared.drop m.declared then none else g.slots e
    declared := g.declared.take m.declared
    words := m.words
    padded := m.padded }

/-- How many words the stack pointer moves up on the way back to a mark. -/
def releasedWords (g : Ledger) (m : Mark) : Nat := (g.words + g.padded.toNat) - (m.words + m.padded.toNat)

/-- The frame that a ledger tells of. -/
def frame (g : Ledger) : Frame := ⟨g.declared.reverse, g.padded, g.temps⟩

/-! ## Order -/

/-- The declarations have the places of the words below the frame pointer, in the order in which they got them, no two
of them the same, and nothing else has a place. -/
structure Laid (g : Ledger) : Prop where
  places : g.declared.map g.slots = (List.range g.words).map fun i => some (slotPlace i)
  distinct : (g.declared.map g.slots).Nodup
  absent : ∀ d, d ∉ g.declared → g.slots d = none

/-- There are no temporaries, and the variables are padded exactly when the number of their words is odd. -/
def Rests (g : Ledger) : Prop := g.temps = 0 ∧ (g.padded = true ↔ g.words % 2 = 1)

theorem slotPlace_injective : Function.Injective slotPlace := by
  intro i j h
  unfold slotPlace wordSize at h
  omega

theorem laid_of_places {g : Ledger}
    (hplaces : g.declared.map g.slots = (List.range g.words).map fun i => some (slotPlace i))
    (habsent : ∀ d, d ∉ g.declared → g.slots d = none) : g.Laid where
  places := hplaces
  distinct := by
    rw [hplaces]
    exact List.nodup_range.map fun _ _ hij => slotPlace_injective (Option.some.inj hij)
  absent := habsent

theorem laid_empty : ({} : Ledger).Laid := laid_of_places rfl fun _ _ => rfl

namespace Laid

variable {g o : Ledger} {d : NodeId} (h : g.Laid)
include h

theorem words_eq : g.words = g.declared.length := by
  have hlen := congrArg List.length h.places
  rw [List.length_map, List.length_map, List.length_range] at hlen
  exact hlen.symm

theorem nodup : g.declared.Nodup := h.distinct.of_map

theorem slots_eq {before after : List NodeId} (hd : g.declared = before ++ d :: after) :
    g.slots d = some (slotPlace before.length) := by
  have hplaces := congrArg (·[before.length]?) h.places
  have hlt : before.length < g.words := by
    rw [h.words_eq, hd, List.length_append, List.length_cons]
    omega
  simpa [hd, hlt] using hplaces

theorem declare (hd : d ∉ g.declared) : (g.declare d).Laid := by
  have hold : g.declared.map (g.declare d).slots = g.declared.map g.slots :=
    List.map_congr_left fun e he => if_neg fun heq : e = d => hd (heq ▸ he)
  refine laid_of_places ?_ fun e he => ?_
  · show (g.declared ++ [d]).map (g.declare d).slots = (List.range (g.words + 1)).map _
    rw [List.map_append, hold, h.places, List.range_succ, List.map_append]
    simp [Ledger.declare]
  · have hnew : ¬ (e ∈ g.declared ∨ e = d) := by simpa [Ledger.declare] using he
    rw [not_or] at hnew
    exact (if_neg hnew.2).trans (h.absent e hnew.1)

theorem refill (p : Bool) (n : Nat) : ({ g with padded := p, temps := n } : Ledger).Laid :=
  ⟨h.places, h.distinct, h.absent⟩

theorem slots_of_append {since : List NodeId} (ho : o.Laid) (hsince : g.declared = o.declared ++ since) (d : NodeId) :
    o.slots d = if d ∈ since then none else g.slots d := by
  by_cases hd : d ∈ since
  · rw [if_pos hd]
    refine ho.absent d fun hmem => ?_
    exact (List.nodup_append.1 (hsince ▸ h.nodup)).2.2 d hmem d hd rfl
  · rw [if_neg hd]
    by_cases hmem : d ∈ o.declared
    · obtain ⟨before, after, hsplit⟩ := List.append_of_mem hmem
      have hsplit' : g.declared = before ++ d :: (after ++ since) := by rw [hsince, hsplit, List.append_assoc]; rfl
      rw [ho.slots_eq hsplit, h.slots_eq hsplit']
    · have hmem' : d ∉ g.declared := by
        rw [hsince, List.mem_append, not_or]
        exact ⟨hmem, hd⟩
      rw [ho.absent d hmem, h.absent d hmem']

/-- **Back at a mark a ledger is as it was**, when there are as many temporaries as then. -/
theorem release {since : List NodeId} (ho : o.Laid) (hsince : g.declared = o.declared ++ since)
    (htemps : g.temps = o.temps) : g.release o.mark = o := by
  have hdrop : g.declared.drop o.mark.declared = since := by rw [hsince]; exact List.drop_left
  have htake : g.declared.take o.mark.declared = o.declared := by rw [hsince]; exact List.take_left
  have hslots : (g.release o.mark).slots = o.slots := by
    funext d
    rw [h.slots_of_append ho hsince d, Ledger.release, hdrop]
  rw [Ledger.release, Ledger.mk.injEq]
  exact ⟨hslots, htake, rfl, rfl, htemps⟩

end Laid

/-! ## The frame of a ledger -/

theorem slotNumber?_append {d : NodeId} {ds : List NodeId} (hd : d ∉ ds) (es : List NodeId) :
    Frame.slotNumber? d (ds ++ es) = Frame.slotNumber? d es := by
  induction ds with
  | nil => rfl
  | cons e ds ih =>
    rw [List.mem_cons, not_or] at hd
    rw [List.cons_append, Frame.slotNumber?, if_neg hd.1, ih hd.2]

/-- A frame looks its places up in the list of declarations. -/
theorem Laid.offset?_frame {g : Ledger} (h : g.Laid) (d : NodeId) : g.frame.offset? d = g.slots d := by
  by_cases hd : d ∈ g.declared
  · obtain ⟨before, after, hsplit⟩ := List.append_of_mem hd
    have hafter : d ∉ after.reverse := by
      have hnodup := h.nodup
      rw [hsplit] at hnodup
      rw [List.mem_reverse]
      exact (List.nodup_cons.1 (List.nodup_append.1 hnodup).2.1).1
    have hreverse : g.declared.reverse = after.reverse ++ d :: before.reverse := by
      rw [hsplit, List.reverse_append, List.reverse_cons, List.append_assoc]
      rfl
    rw [h.slots_eq hsplit, Frame.offset?, frame, hreverse, slotNumber?_append hafter, Frame.slotNumber?, if_pos rfl,
      List.length_reverse]
    rfl
  · have hd' : d ∉ g.declared.reverse := fun hmem => hd (List.mem_reverse.1 hmem)
    have hnone := slotNumber?_append hd' []
    rw [List.append_nil] at hnone
    rw [h.absent d hd, Frame.offset?, frame, hnone]
    rfl

theorem Laid.depth_frame {g : Ledger} (h : g.Laid) : g.frame.depth = g.depth := by
  rw [Frame.depth, depth, h.words_eq, frame, List.length_reverse]

theorem Laid.isAligned_frame {g : Ledger} (h : g.Laid) : g.frame.isAligned = g.isAligned := by
  rw [Frame.isAligned, isAligned, h.depth_frame]

theorem Laid.releasedWords_frame {g o : Ledger} (h : g.Laid) (ho : o.Laid) :
    g.frame.releasedWords o.frame = g.releasedWords o.mark := by
  simp only [Frame.releasedWords, releasedWords, mark, frame, List.length_reverse, h.words_eq, ho.words_eq]

theorem frame_declare (g : Ledger) (d : NodeId) : (g.declare d).frame = g.frame.declare d := by
  simp [frame, declare, Frame.declare]

/-- At rest the frame is aligned, so the words since a mark are those of both depths apart. -/
theorem Rests.depth_releasedWords {g o : Ledger} (hg : g.Rests) (ho : o.Rests) (hle : o.words ≤ g.words) :
    o.depth + g.releasedWords o.mark = g.depth := by
  have hpad : ∀ {x : Ledger}, x.Rests → x.padded.toNat = x.words % 2 := by
    intro x hx
    cases hp : x.padded with
    | true => exact (hx.2.1 hp).symm
    | false =>
      have hne : x.words % 2 ≠ 1 := fun hw => Bool.false_ne_true (hp.symm.trans (hx.2.2 hw))
      show 0 = x.words % 2
      omega
  have hg' := hpad hg
  have ho' := hpad ho
  have hgt := hg.1
  have hot := ho.1
  simp only [depth, releasedWords, mark]
  omega

end Ledger

/-! ## Moves -/

/-- What happens to a ledger. Between two statements it is left alone for a moment. -/
inductive Move
  | declare (d : NodeId)
  | pad (p : Bool)
  | push (n : Nat)
  | pop (n : Nat)
  | mark
  | release (m : Mark)
  | pause
deriving DecidableEq

/-- A ledger, and what it was where the marks were set that are still in place, the latest first. -/
structure Book where
  ledger : Ledger := {}
  outer : List Ledger := []

namespace Book

/-- The book after a move. -/
def move (b : Book) : Move → Book
  | .declare d => { b with ledger := b.ledger.declare d }
  | .pad p => { b with ledger := { b.ledger with padded := p } }
  | .push n => { b with ledger := { b.ledger with temps := b.ledger.temps + n } }
  | .pop n => { b with ledger := { b.ledger with temps := b.ledger.temps - n } }
  | .mark => { b with outer := b.ledger :: b.outer }
  | .release m => ⟨b.ledger.release m, b.outer.tail⟩
  | .pause => b

def moves (b : Book) (ms : List Move) : Book := ms.foldl move b

/-- The ledger at the latest mark that is still in place comes back as it was. What was declared since then has no
place any more, all else has the same place as before, and the words given up are those of both depths apart. -/
structure Returns (b : Book) (m : Mark) (o : Ledger) : Prop where
  latest : b.outer.head? = some o
  mark : m = o.mark
  ledger : b.ledger.release m = o
  since : ∃ since, b.ledger.declared = o.declared ++ since ∧
    ∀ d, o.slots d = if d ∈ since then none else b.ledger.slots d
  depth : o.depth + b.ledger.releasedWords m = b.ledger.depth

/-- What a move asks for. Only a declaration without a place is given one, no more temporaries are taken away than
there are, and a ledger that is left alone is at rest. -/
def Sound (b : Book) : Move → Prop
  | .declare d => d ∉ b.ledger.declared
  | .pop n => n ≤ b.ledger.temps
  | .release m => ∃ o, b.Returns m o
  | .pause => b.ledger.Rests
  | _ => True

/-- Moves one after the other, each of which finds what it asks for in a ledger that is in order. -/
def Keeps (b : Book) : List Move → Prop
  | [] => b.ledger.Laid
  | m :: ms => b.ledger.Laid ∧ b.Sound m ∧ (b.move m).Keeps ms

variable {b : Book}

theorem moves_append (b : Book) (ms ns : List Move) : b.moves (ms ++ ns) = (b.moves ms).moves ns := List.foldl_append

theorem Keeps.laid {ms : List Move} (h : b.Keeps ms) : (b.moves ms).ledger.Laid := by
  induction ms generalizing b with
  | nil => exact h
  | cons m ms ih => exact ih h.2.2

theorem Keeps.append {ms ns : List Move} (h : b.Keeps ms) (h' : (b.moves ms).Keeps ns) : b.Keeps (ms ++ ns) := by
  induction ms generalizing b with
  | nil => exact h'
  | cons m ms ih => exact ⟨h.1, h.2.1, ih h.2.2 h'⟩

/-! ## Temporaries -/

/-- The book with more temporaries. -/
def pushed (b : Book) (n : Nat) : Book := b.move (.push n)

theorem pushed_push (b : Book) (m n : Nat) : (b.pushed m).move (.push n) = b.pushed (m + n) := by
  simp only [pushed, move, Nat.add_assoc]

theorem pushed_pop (b : Book) (m n : Nat) : (b.pushed (m + n)).move (.pop n) = b.pushed m := by
  simp only [pushed, move, ← Nat.add_assoc, Nat.add_sub_cancel]

theorem sound_pop (b : Book) (m n : Nat) : (b.pushed (m + n)).Sound (.pop n) :=
  Nat.le_trans (Nat.le_add_left n m) (Nat.le_add_left _ b.ledger.temps)

end Book

end MicroC
