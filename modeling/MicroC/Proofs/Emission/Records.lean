import MicroC.Proofs.Emission.Bookkeeping
import MicroC.Proofs.Emission.Writing

/-!
# Emissions on record

An emission with a ledger beside one with a frame: both come to the same, and every move of the first finds what it
asks for in a ledger that is in order.

* `Quiet`: an emission that has nothing to do with the frame.
* `Desk.Leads`: the way from one desk to another.
* `Keeping.Records`: an emission with a ledger beside one with a frame.
* `Keeping.Records.bind`, `Keeping.Records.quiet`, `Keeping.Records.move`: the ways in which emissions are made.
-/

namespace MicroC

variable {α β : Type}

/-! ## Emissions that leave the frame alone -/

/-- An emission that leaves the frame as it was. -/
def Quiet (y : Emit α) : Prop := ∀ l out, y l = .ok out → out.layout.frame = l.frame

namespace Quiet

theorem pure (v : α) : Quiet (Pure.pure v : Emit α) := fun _ _ h => by
  obtain rfl := Emit.pure_eq_ok.1 h
  rfl

theorem fail (fault : EmissionFault) (span : Option Span) : Quiet (Emit.fail fault span : Emit α) := fun _ _ h =>
  absurd h Emit.fail_ne_ok

theorem bind {y : Emit α} {g : α → Emit β} (h : Quiet y) (hg : ∀ v, Quiet (g v)) : Quiet (y >>= g) := fun _ _ hb => by
  obtain ⟨m, m', hm, hm', rfl⟩ := Emit.bind_eq_ok.1 hb
  exact (hg _ _ _ hm').trans (h _ _ hm)

theorem instruction (opcode : Opcode) (operands : List String) (comment : String) :
    Quiet (Emit.instruction opcode operands comment) := fun _ _ h => by
  cases h
  rfl

theorem label (name comment : String) (isGlobal : Bool) : Quiet (Emit.label name comment isGlobal) := fun _ _ h => by
  cases h
  rfl

theorem freshLabel (suffix : String) : Quiet (Emit.freshLabel suffix) := fun _ _ h => by
  cases h
  rfl

theorem growStack (comment : String) : Quiet (Emit.growStack comment) := instruction _ _ _

theorem shrinkStack (words : Nat) (comment : String) : Quiet (Emit.shrinkStack words comment) := by
  unfold Emit.shrinkStack
  split
  · exact pure ()
  · exact instruction _ _ _

theorem store (slot : String) (n : Ident) : Quiet (Emit.store slot n) :=
  bind (instruction _ _ _) fun _ => instruction _ _ _

theorem saveRegisters (rs : List String) : Quiet (Emit.saveRegisters rs) := by
  induction rs with
  | nil => exact pure ()
  | cons r rs ih => exact bind (instruction _ _ _) fun _ => ih

theorem restoreRegisters (rs : List String) : Quiet (Emit.restoreRegisters rs) := by
  induction rs with
  | nil => exact pure ()
  | cons r rs ih => exact bind (instruction _ _ _) fun _ => ih

theorem typeOf (a : Analysis) (node : NodeId) : Quiet (Emit.typeOf a node) := by
  unfold Emit.typeOf
  split
  · exact pure _
  · exact fail _ _

theorem expectInt (a : Analysis) (b : Binder) (what : Ty → Construct) : Quiet (Emit.expectInt a b what) :=
  bind (typeOf a _) fun ty => by
    split
    · exact pure ()
    · exact fail _ _

theorem expectValue (a : Analysis) (e : Expr) : Quiet (Emit.expectValue a e) :=
  bind (typeOf a _) fun ty => by
    split
    · exact pure ()
    · exact pure ()
    · exact fail _ _

theorem expectCondition (a : Analysis) (c : Expr) : Quiet (Emit.expectCondition a c) :=
  bind (typeOf a _) fun ty => by
    split
    · exact pure ()
    · exact fail _ _

end Quiet

/-! ## Emissions beside each other -/

namespace Desk

/-- The frame and the labels in use. -/
def layout (d : Desk) : Layout := ⟨d.book.ledger.frame, d.labels⟩

/-- From one desk to another moves were made, each of which found what it asks for. -/
def Leads (d d' : Desk) : Prop := ∃ ms, d'.made = d.made ++ ms ∧ d'.book = d.book.moves ms ∧ d.book.Keeps ms

variable {d d' d'' : Desk}

theorem Leads.refl (hd : d.book.ledger.Laid) : d.Leads d := ⟨[], (List.append_nil _).symm, rfl, hd⟩

theorem Leads.trans (h : d.Leads d') (h' : d'.Leads d'') : d.Leads d'' := by
  obtain ⟨ms, hmade, hbook, hkeeps⟩ := h
  obtain ⟨ns, hmade', hbook', hkeeps'⟩ := h'
  refine ⟨ms ++ ns, by rw [hmade', hmade, List.append_assoc], by rw [hbook', hbook, Book.moves_append], ?_⟩
  exact hkeeps.append (hbook ▸ hkeeps')

theorem Leads.laid (h : d.Leads d') : d'.book.ledger.Laid := by
  obtain ⟨ms, -, hbook, hkeeps⟩ := h
  exact hbook ▸ hkeeps.laid

theorem leads_move {m : Move} (hd : d.book.ledger.Laid) (hm : d.book.Sound m) (hlaid : (d.book.move m).ledger.Laid) :
    d.Leads { d with book := d.book.move m, made := d.made ++ [m] } := ⟨[m], rfl, rfl, hd, hm, hlaid⟩

end Desk

namespace Keeping

/-- An emission with a ledger comes to the same as one with a frame, and on the way every move finds what it asks for.
The value and the book behind it are as `R` says. -/
inductive Records (x : Keeping α) (y : Emit α) (d : Desk) (R : α → Book → Prop) : Prop
  | failed {e : EmissionError} {d' : Desk} (moves : d.Leads d') (run : x d = (.error e, d'))
      (code : y d.layout = .error e)
  | done {v : α} {d' : Desk} {lines : List Line} (moves : d.Leads d') (run : x d = (.ok v, d'))
      (emitted : d'.lines = d.lines ++ lines) (code : y d.layout = .ok ⟨v, lines, d'.layout⟩) (result : R v d'.book)

variable {d : Desk} {b : Book} {n : Nat}

section Runs

variable {x : Keeping α} {f : α → Keeping β} {d' : Desk}

theorem bind_error {e : EmissionError} (h : x d = (.error e, d')) : (x >>= f) d = (.error e, d') := by
  show Keeping.bind x f d = _
  rw [Keeping.bind, h]

theorem bind_ok {v : α} (h : x d = (.ok v, d')) : (x >>= f) d = f v d' := by
  show Keeping.bind x f d = _
  rw [Keeping.bind, h]

end Runs

namespace Records

variable {x : Keeping α} {y y' : Emit α} {R S : α → Book → Prop}

theorem mono (h : Records x y d R) (hR : ∀ v b, R v b → S v b) : Records x y d S := by
  cases h with
  | failed moves run code => exact .failed moves run code
  | done moves run emitted code result => exact .done moves run emitted code (hR _ _ result)

theorem step {x' : Keeping α} {d' : Desk} (hmoves : d.Leads d') (hrun : x d = x' d') (hlines : d'.lines = d.lines)
    (hcode : y d.layout = y' d'.layout) (h : Records x' y' d' R) : Records x y d R := by
  cases h with
  | failed moves run code => exact .failed (hmoves.trans moves) (hrun.trans run) (hcode.trans code)
  | done moves run emitted code result =>
    exact .done (hmoves.trans moves) (hrun.trans run) (hlines ▸ emitted) (hcode.trans code) result

theorem pure (hd : d.book.ledger.Laid) {v : α} (h : R v d.book) : Records (Pure.pure v) (Pure.pure v) d R :=
  .done (.refl hd) rfl (List.append_nil _).symm rfl h

theorem fail (hd : d.book.ledger.Laid) (fault : EmissionFault) (span : Option Span) :
    Records (Keeping.fail fault span) (Emit.fail fault span) d R := .failed (.refl hd) rfl rfl

theorem bind {f : α → Keeping β} {g : α → Emit β} {Q : β → Book → Prop} (h : Records x y d R)
    (hf : ∀ v d', d'.book.ledger.Laid → R v d'.book → Records (f v) (g v) d' Q) : Records (x >>= f) (y >>= g) d Q := by
  cases h with
  | @failed e d' moves run code =>
    have hcode : (y >>= g) d.layout = .error e := by
      show Emit.bind y g d.layout = _
      rw [Emit.bind, code]
    exact .failed moves (bind_error run) hcode
  | @done v d' lines moves run emitted code result =>
    have hrun : (x >>= f) d = f v d' := bind_ok run
    cases hf v d' moves.laid result with
    | @failed e _ moves' run' code' =>
      have hcode : (y >>= g) d.layout = .error e := by
        show Emit.bind y g d.layout = _
        simp only [Emit.bind, code, code']
      exact .failed (moves.trans moves') (hrun.trans run') hcode
    | @done w d'' lines' moves' run' emitted' code' result' =>
      have hcode : (y >>= g) d.layout = .ok ⟨w, lines ++ lines', d''.layout⟩ := by
        show Emit.bind y g d.layout = _
        simp only [Emit.bind, code, code']
      have hlines : d''.lines = d.lines ++ (lines ++ lines') := by rw [emitted', emitted, List.append_assoc]
      exact .done (moves.trans moves') (hrun.trans run') hlines hcode result'

theorem reading {f : Ledger → Keeping β} {g : Frame → Emit β} {Q : β → Book → Prop} (hd : d.book.ledger.Laid)
    (h : Records (f d.book.ledger) (g d.book.ledger.frame) d Q) : Records (ledger >>= f) (Emit.frame >>= g) d Q := by
  have hrun : (ledger >>= f) d = f d.book.ledger d := rfl
  have hcode : (Emit.frame >>= g) d.layout = g d.book.ledger.frame d.layout := by
    show Emit.bind Emit.frame g d.layout = g d.layout.frame d.layout
    simp only [Emit.bind, Emit.frame]
    cases g d.layout.frame d.layout <;> rfl
  exact h.step (.refl hd) hrun rfl hcode

theorem quiet (hy : Quiet y) (hd : d.book.ledger.Laid) (h : d.book = b) :
    Records (Keeping.quiet y) y d fun _ b' => b' = b := by
  cases hout : y d.layout with
  | error e =>
    have hrun : Keeping.quiet y d = (.error e, d) := by
      unfold Keeping.quiet
      rw [show y ⟨d.book.ledger.frame, d.labels⟩ = .error e from hout]
    exact .failed (.refl hd) hrun hout
  | ok out =>
    let d' : Desk := { d with labels := out.layout.labels, lines := d.lines ++ out.lines }
    have hrun : Keeping.quiet y d = (.ok out.value, d') := by
      unfold Keeping.quiet
      rw [show y ⟨d.book.ledger.frame, d.labels⟩ = .ok out from hout]
    have hframe : out.layout.frame = d.book.ledger.frame := hy _ _ hout
    have hcode : y d.layout = .ok ⟨out.value, out.lines, d'.layout⟩ := by
      rw [hout, Desk.layout, ← hframe]
    have hmoves : d.Leads d' := ⟨[], (List.append_nil _).symm, rfl, hd⟩
    exact .done hmoves hrun rfl hcode h

theorem move {m : Move} {g : Frame → Frame} (hd : d.book.ledger.Laid) (hm : d.book.Sound m)
    (hlaid : (d.book.move m).ledger.Laid) (hframe : (d.book.move m).ledger.frame = g d.book.ledger.frame)
    (h : d.book.move m = b) : Records (Keeping.move m) (Emit.modifyFrame g) d fun _ b' => b' = b := by
  have hcode : Emit.modifyFrame g d.layout = .ok ⟨(), [], ⟨(d.book.move m).ledger.frame, d.labels⟩⟩ := by
    rw [hframe]
    rfl
  exact .done (Desk.leads_move hd hm hlaid) rfl (List.append_nil _).symm hcode h

theorem pushing (hd : d.book.ledger.Laid) (h : d.book = b.pushed n) (k : Nat) :
    Records (Keeping.move (.push k)) (Emit.modifyFrame (·.pushTemps k)) d fun _ b' => b' = b.pushed (n + k) :=
  .move hd trivial (hd.refill _ _) rfl (by rw [h, Book.pushed_push])

theorem popping {k : Nat} (hd : d.book.ledger.Laid) (h : d.book = b.pushed (n + k)) :
    Records (Keeping.move (.pop k)) (Emit.modifyFrame (·.popTemps k)) d fun _ b' => b' = b.pushed n :=
  .move hd (by rw [h]; exact b.sound_pop n k) (hd.refill _ _) rfl (by rw [h, Book.pushed_pop])

theorem padding (hd : d.book.ledger.Laid) (h : d.book = b) (p : Bool) :
    Records (Keeping.move (.pad p)) (Emit.modifyFrame (·.setPadded p)) d fun _ b' => b' = b.move (.pad p) :=
  .move hd trivial (hd.refill _ _) rfl (by rw [h])

theorem declaring {i : NodeId} (hd : d.book.ledger.Laid) (h : d.book = b) (hnew : i ∉ b.ledger.declared) :
    Records (Keeping.move (.declare i)) (Emit.modifyFrame (·.declare i)) d fun _ b' => b' = b.move (.declare i) := by
  subst h
  exact .move hd hnew (hd.declare hnew) (Ledger.frame_declare _ _) rfl

theorem aside {m : Move} {f : Unit → Keeping β} {y : Emit β} {Q : β → Book → Prop} (hd : d.book.ledger.Laid)
    (hm : d.book.Sound m) (hledger : (d.book.move m).ledger = d.book.ledger)
    (hf : ∀ d', d'.book.ledger.Laid → d'.book = d.book.move m → Records (f ()) y d' Q) :
    Records (Keeping.move m >>= f) y d Q := by
  have hmoves := Desk.leads_move hd hm (hledger ▸ hd)
  refine (hf _ hmoves.laid rfl).step hmoves rfl rfl ?_
  rw [Desk.layout, Desk.layout, hledger]

theorem followed {x : Keeping Unit} {y : Emit Unit} {R : Unit → Book → Prop} (h : Records x y d R)
    (hR : ∀ v b, R v b → b.ledger.Rests) : Records (x >>= fun _ => Keeping.move .pause) y d R := by
  cases h with
  | failed moves run code => exact .failed moves (bind_error run) code
  | @done v d' lines moves run emitted code result =>
    have hpause : d'.book.Sound .pause := hR v d'.book result
    exact .done (moves.trans (Desk.leads_move moves.laid hpause moves.laid)) (bind_ok run) emitted code result

theorem start (h : d.book = {}) (hx : Records x y d R) :
    Records x (Emit.modifyFrame (fun _ => {}) >>= fun _ => y) d R := by
  have hd : d.book.ledger.Laid := by
    rw [h]
    exact Ledger.laid_empty
  have hcode : (Emit.modifyFrame (fun _ => {}) >>= fun _ => y) d.layout = y d.layout := by
    have hlayout : (⟨{}, d.layout.labels⟩ : Layout) = d.layout := by rw [Desk.layout, h]; rfl
    show Emit.bind (Emit.modifyFrame fun _ => {}) (fun _ => y) d.layout = y d.layout
    simp only [Emit.bind, Emit.modifyFrame, hlayout]
    cases y d.layout <;> rfl
  exact hx.step (.refl hd) rfl rfl hcode

end Records

end Keeping

end MicroC
