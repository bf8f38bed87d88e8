import MicroC.Emission.Program
import MicroC.Proofs.Parser.Numbering

/-!
# Labels

Labels inside functions have a number of their own, exits of functions a second point, and functions start with a
letter. So the three can be told apart, and the numbers of labels can be changed without touching anything else.

* `labelName`: the label with a number.
* `renumberLabel`: the label with another number.
* `Line.renumber`, `Block.renumber`: code whose labels have other numbers.
-/

namespace MicroC

open Emit

/-! ## Texts of labels -/

/-- The label with a number. -/
def labelName (n : Nat) (suffix : String) : String := s!".L{n}_{suffix}"

theorem toList_labelName (n : Nat) (s : String) :
    (labelName n s).toList = '.' :: 'L' :: (Nat.toDigits 10 n ++ '_' :: s.toList) := by
  have htext : labelName n s = ".L" ++ Nat.repr n ++ "_" ++ s := rfl
  rw [htext, String.toList_append, String.toList_append, String.toList_append, Nat.toList_repr]
  simp

theorem toList_exitLabel (f : String) : (exitLabel f).toList = '.' :: (f.toList ++ ".exit".toList) := by
  have htext : exitLabel f = "." ++ f ++ ".exit" := rfl
  rw [htext, String.toList_append, String.toList_append]
  simp

theorem not_mem_toDigits {c : Char} (hc : c.isDigit = false) (n : Nat) : c ∉ Nat.toDigits 10 n := by
  intro h
  have := Nat.isDigit_of_mem_toDigits (by decide) (by decide) h
  rw [hc] at this
  cases this

/-- The number and the suffix of a label that has a number. -/
def labelParts? (name : String) : Option (Nat × String) :=
  match name.toList with
  | '.' :: 'L' :: cs =>
    let n := Nat.ofDigitChars 10 (cs.takeWhile Char.isDigit) 0
    let s := String.ofList ((cs.dropWhile Char.isDigit).drop 1)
    if labelName n s = name ∧ '.' ∉ s.toList then some (n, s) else none
  | _ => none

theorem labelParts?_eq_some {name s : String} {n : Nat} :
    labelParts? name = some (n, s) ↔ name = labelName n s ∧ '.' ∉ s.toList := by
  constructor
  · intro h
    unfold labelParts? at h
    split at h
    · dsimp only at h
      split at h
      · next hparts =>
        cases h
        exact ⟨hparts.1.symm, hparts.2⟩
      · cases h
    · cases h
  · rintro ⟨rfl, hs⟩
    have hdigits : ∀ c ∈ Nat.toDigits 10 n, c.isDigit = true :=
      fun c hc => Nat.isDigit_of_mem_toDigits (by decide) (by decide) hc
    unfold labelParts?
    split
    · next cs hcs =>
      rw [toList_labelName, List.cons.injEq, List.cons.injEq] at hcs
      obtain ⟨-, -, rfl⟩ := hcs
      rw [List.takeWhile_append_of_pos hdigits, List.dropWhile_append_of_pos hdigits,
        List.takeWhile_cons_of_neg (by decide), List.dropWhile_cons_of_neg (by decide), List.append_nil,
        Nat.ofDigitChars_ten_toDigits, List.drop_one, List.tail_cons, String.ofList_toList, if_pos ⟨rfl, hs⟩]
    · next hno => exact absurd (toList_labelName n s) (hno _)

theorem labelName_inj {m n : Nat} {s t : String} (h : labelName m s = labelName n t) : m = n := by
  have hl := congrArg String.toList h
  rw [toList_labelName, toList_labelName, List.cons.injEq, List.cons.injEq] at hl
  have htake : ∀ k (u : List Char),
      (Nat.toDigits 10 k ++ '_' :: u).takeWhile (· != '_') = Nat.toDigits 10 k := by
    intro k u
    rw [List.takeWhile_append_of_pos]
    · simp
    · intro c hc
      have : c ≠ '_' := fun heq => not_mem_toDigits (by decide) k (heq ▸ hc)
      simpa using this
  have hdigits := congrArg (List.takeWhile (· != '_')) hl.2.2
  rw [htake, htake] at hdigits
  rw [← @Nat.ofDigitChars_ten_toDigits m, hdigits, Nat.ofDigitChars_ten_toDigits]

/-- Only the exit of a function has a second point. -/
theorem labelName_ne_exitLabel {n : Nat} {s f : String} (hs : '.' ∉ s.toList) :
    labelName n s ≠ exitLabel f := by
  intro h
  have hl := congrArg String.toList h
  rw [toList_labelName, toList_exitLabel, List.cons.injEq] at hl
  have hdot : '.' ∈ f.toList ++ ".exit".toList := List.mem_append_right _ (by decide)
  rw [← hl.2, List.mem_cons, List.mem_append, List.mem_cons] at hdot
  rcases hdot with h | h | h | h
  · exact absurd h (by decide)
  · exact not_mem_toDigits (by decide) n h
  · exact absurd h (by decide)
  · exact hs h

theorem exitLabel_inj {f g : String} (h : exitLabel f = exitLabel g) : f = g := by
  have hl := congrArg String.toList h
  rw [toList_exitLabel, toList_exitLabel, List.cons.injEq] at hl
  exact String.toList_inj.1 (List.append_cancel_right hl.2)

theorem IsName.not_point {f : String} (h : IsName f) {cs : List Char} : f.toList ≠ '.' :: cs := by
  obtain ⟨c, ds, hf, hc, -⟩ := h
  rw [hf]
  intro heq
  cases heq
  exact absurd hc (by decide)

theorem IsName.ne_exitLabel {f : String} (h : IsName f) (g : String) : f ≠ exitLabel g :=
  fun heq => h.not_point ((congrArg String.toList heq).trans (toList_exitLabel g))

theorem IsName.ne_labelName {f : String} (h : IsName f) (i : Nat) (s : String) : f ≠ labelName i s :=
  fun heq => h.not_point ((congrArg String.toList heq).trans (toList_labelName i s))

/-! ## Other numbers -/

/-- The label with another number. All other texts stay as they are. -/
def renumberLabel (r : Nat → Nat) (name : String) : String :=
  match labelParts? name with
  | some (n, s) => labelName (r n) s
  | none => name

section Renumber

variable {r r' : Nat → Nat} {name s : String} {n : Nat}

theorem renumberLabel_labelName (r : Nat → Nat) (n : Nat) (hs : '.' ∉ s.toList) :
    renumberLabel r (labelName n s) = labelName (r n) s := by
  rw [renumberLabel, labelParts?_eq_some.2 ⟨rfl, hs⟩]

theorem renumberLabel_of_none (r : Nat → Nat) (h : labelParts? name = none) : renumberLabel r name = name := by
  rw [renumberLabel, h]

theorem labelParts?_exitLabel (f : String) : labelParts? (exitLabel f) = none := by
  rw [Option.eq_none_iff_forall_not_mem]
  rintro ⟨n, s⟩ h
  obtain ⟨heq, hs⟩ := labelParts?_eq_some.1 h
  exact labelName_ne_exitLabel hs heq.symm

theorem IsName.labelParts? (h : IsName name) : labelParts? name = none := by
  rw [Option.eq_none_iff_forall_not_mem]
  rintro ⟨n, s⟩ hparts
  exact h.ne_labelName n s (labelParts?_eq_some.1 hparts).1

/-- A text is a label with a number, or stays as it is. -/
theorem renumberLabel_cases (r : Nat → Nat) (name : String) :
    (∃ n s, '.' ∉ s.toList ∧ name = labelName n s ∧ renumberLabel r name = labelName (r n) s) ∨
      labelParts? name = none ∧ renumberLabel r name = name := by
  cases h : labelParts? name with
  | none => exact .inr ⟨rfl, renumberLabel_of_none r h⟩
  | some x =>
    obtain ⟨rfl, hs⟩ := labelParts?_eq_some.1 h
    exact .inl ⟨_, _, hs, rfl, renumberLabel_labelName r _ hs⟩

theorem renumberLabel_congr (h : ∀ n s, labelParts? name = some (n, s) → r n = r' n) :
    renumberLabel r name = renumberLabel r' name := by
  cases hparts : labelParts? name with
  | none => rw [renumberLabel_of_none r hparts, renumberLabel_of_none r' hparts]
  | some x =>
    rw [renumberLabel, renumberLabel, hparts]
    exact congrArg (labelName · x.2) (h x.1 x.2 hparts)

@[simp] theorem renumberLabel_id (name : String) : renumberLabel id name = name := by
  rcases renumberLabel_cases id name with ⟨n, s, -, rfl, h⟩ | ⟨-, h⟩ <;> exact h

theorem renumberLabel_renumberLabel (r r' : Nat → Nat) (name : String) :
    renumberLabel r' (renumberLabel r name) = renumberLabel (r' ∘ r) name := by
  rcases renumberLabel_cases r name with ⟨n, s, hs, rfl, h⟩ | ⟨hnone, h⟩
  · rw [h, renumberLabel_labelName _ _ hs, renumberLabel_labelName _ _ hs, Function.comp]
  · rw [h, renumberLabel_of_none _ hnone, renumberLabel_of_none _ hnone]

/-- Labels that differ still do if different numbers become different numbers. -/
theorem renumberLabel_injective (hr : Function.Injective r) : Function.Injective (renumberLabel r) := by
  intro l l' heq
  rcases renumberLabel_cases r l with ⟨n, s, hs, rfl, h⟩ | ⟨hnone, h⟩ <;>
    rcases renumberLabel_cases r l' with ⟨n', s', hs', rfl, h'⟩ | ⟨hnone', h'⟩ <;> rw [h, h'] at heq
  · have hparts := labelParts?_eq_some.2 ⟨heq, hs'⟩
    rw [labelParts?_eq_some.2 ⟨rfl, hs⟩, Option.some.injEq, Prod.mk.injEq] at hparts
    rw [hr hparts.1, hparts.2]
  · rw [← heq, labelParts?_eq_some.2 ⟨rfl, hs⟩] at hnone'
    cases hnone'
  · rw [heq, labelParts?_eq_some.2 ⟨rfl, hs'⟩] at hnone
    cases hnone
  · exact heq

end Renumber

/-! ## Code -/

/-- The instruction for labels with other numbers. Only jumps name labels. -/
def Instruction.renumber (r : Nat → Nat) (i : Instruction) : Instruction :=
  if i.opcode.isJump then { i with operands := i.operands.map (renumberLabel r) } else i

def Line.renumber (r : Nat → Nat) : Line → Line
  | .label name comment isGlobal => .label (renumberLabel r name) comment isGlobal
  | .code i => .code (i.renumber r)

def Block.renumber (r : Nat → Nat) (b : Block) : Block :=
  { b with name := renumberLabel r b.name, code := b.code.map (Instruction.renumber r) }

namespace Instruction

variable {i : Instruction}

@[simp] theorem opcode_renumber (r : Nat → Nat) (i : Instruction) : (i.renumber r).opcode = i.opcode := by
  unfold renumber
  split <;> rfl

theorem renumber_of_not_jump (r : Nat → Nat) (h : i.opcode.isJump = false) : i.renumber r = i := by
  rw [renumber, h]
  rfl

@[simp] theorem renumber_id (i : Instruction) : i.renumber id = i := by
  unfold renumber
  split
  · rw [show renumberLabel id = id from funext renumberLabel_id, List.map_id]
  · rfl

theorem renumber_renumber (r r' : Nat → Nat) (i : Instruction) :
    (i.renumber r).renumber r' = i.renumber (r' ∘ r) := by
  cases h : i.opcode.isJump with
  | true =>
    simp only [renumber, h, if_true, List.map_map]
    rw [show renumberLabel r' ∘ renumberLabel r = _ from funext (renumberLabel_renumberLabel r r')]
  | false => rw [renumber_of_not_jump r h, renumber_of_not_jump r' h, renumber_of_not_jump _ h]

end Instruction

@[simp] theorem Line.map_renumber_id (lines : List Line) : lines.map (Line.renumber id) = lines := by
  have hid : Line.renumber id = id := by
    funext line
    cases line <;> simp [Line.renumber]
  rw [hid, List.map_id]

@[simp] theorem Block.renumber_id (b : Block) : b.renumber id = b := by
  rw [Block.renumber, renumberLabel_id, show Instruction.renumber id = id from funext Instruction.renumber_id,
    List.map_id]

theorem Block.renumber_renumber (r r' : Nat → Nat) (b : Block) :
    (b.renumber r).renumber r' = b.renumber (r' ∘ r) := by
  simp only [Block.renumber, renumberLabel_renumberLabel, List.map_map]
  rw [show Instruction.renumber r' ∘ Instruction.renumber r = _ from funext (Instruction.renumber_renumber r r')]

theorem splitLines_renumber (r : Nat → Nat) (lines : List Line) : splitLines (lines.map (Line.renumber r)) =
    ((splitLines lines).1.map (Instruction.renumber r), (splitLines lines).2.map (Block.renumber r)) := by
  induction lines with
  | nil => rfl
  | cons line lines ih => cases line <;> simp [splitLines, Line.renumber, Block.renumber, ih]

end MicroC
