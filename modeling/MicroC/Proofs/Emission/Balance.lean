import MicroC.Proofs.Analysis.Rules
import MicroC.Proofs.Emission.Records
import MicroC.Proofs.Parser.Stopping

/-!
# Frames in balance

The code of an expression leaves one temporary, that of a statement words for what it declares, and a block goes back
to where it was entered. So no move that is made for a function finds anything but what it asks for.

* `Keeping.Grows`: what the code of a statement does to a ledger.
* `Keeping.expr_records`, `Keeping.stmt_records`, `Keeping.function_records`: expressions, statements and functions.
* **`frames_kept`**: the ledger of a function is in order all the time.
-/

namespace MicroC

namespace Keeping

variable {d : Desk} {b : Book} {n : Nat}

/-! ## Expressions -/

open Convention

theorem push_records (hd : d.book.ledger.Laid) (h : d.book = b.pushed n) (operand comment : String) :
    Records (push operand comment) (Emit.push operand comment) d fun _ b' => b' = b.pushed (n + 1) := by
  refine .bind (.quiet (.instruction _ _ _) hd h) fun _ d hd h => ?_
  exact .pushing hd h 1

theorem pop_records (hd : d.book.ledger.Laid) (h : d.book = b.pushed (n + 1)) (register comment : String) :
    Records (pop register comment) (Emit.pop register comment) d fun _ b' => b' = b.pushed n := by
  refine .bind (.quiet (.instruction _ _ _) hd h) fun _ d hd h => ?_
  exact .popping hd h

theorem intLiteral_records (hd : d.book.ledger.Laid) (h : d.book = b.pushed n) (v : Int64) :
    Records (intLiteral v) (Emit.intLiteral v) d fun _ b' => b' = b.pushed (n + 1) := by
  unfold intLiteral Emit.intLiteral
  by_cases hfits : Operand.fitsImmediate v = true
  · rw [if_pos hfits, if_pos hfits]
    exact push_records hd h _ _
  · rw [if_neg hfits, if_neg hfits]
    exact .bind (.quiet (.instruction _ _ _) hd h) fun _ d hd h => push_records hd h _ _

theorem arithmetic_records (hd : d.book.ledger.Laid) (h : d.book = b.pushed (n + 1 + 1)) (opcode : Opcode)
    (op : BinaryOp) :
    Records (arithmetic opcode op) (Emit.arithmetic opcode op) d fun _ b' => b' = b.pushed (n + 1) := by
  refine .bind (pop_records hd h _ _) fun _ d hd h => ?_
  refine .bind (pop_records hd h _ _) fun _ d hd h => ?_
  exact .bind (.quiet (.instruction _ _ _) hd h) fun _ d hd h => push_records hd h _ _

theorem division_records (hd : d.book.ledger.Laid) (h : d.book = b.pushed (n + 1 + 1)) (result : String)
    (op : BinaryOp) :
    Records (division result op) (Emit.division result op) d fun _ b' => b' = b.pushed (n + 1) := by
  refine .bind (pop_records hd h _ _) fun _ d hd h => ?_
  refine .bind (pop_records hd h _ _) fun _ d hd h => ?_
  refine .bind (.quiet (.instruction _ _ _) hd h) fun _ d hd h => ?_
  exact .bind (.quiet (.instruction _ _ _) hd h) fun _ d hd h => push_records hd h _ _

theorem comparison_records (hd : d.book.ledger.Laid) (h : d.book = b.pushed (n + 1 + 1)) (op : BinaryOp) :
    Records (comparison op) (Emit.comparison op) d fun _ b' => b' = b.pushed (n + 1) := by
  refine .bind (pop_records hd h _ _) fun _ d hd h => ?_
  refine .bind (pop_records hd h _ _) fun _ d hd h => ?_
  refine .bind (.quiet (.instruction _ _ _) hd h) fun _ d hd h => ?_
  refine .bind (.quiet (.instruction _ _ _) hd h) fun _ d hd h => ?_
  refine .bind (.quiet (.instruction _ _ _) hd h) fun _ d hd h => ?_
  exact .bind (.quiet (.instruction _ _ _) hd h) fun _ d hd h => push_records hd h _ _

theorem power_records (hd : d.book.ledger.Laid) (h : d.book = b.pushed (n + 1 + 1)) :
    Records power Emit.power d fun _ b' => b' = b.pushed (n + 1) := by
  refine .bind (.quiet (.freshLabel _) hd h) fun again d hd h => ?_
  refine .bind (.quiet (.freshLabel _) hd h) fun done d hd h => ?_
  refine .bind (pop_records hd h _ _) fun _ d hd h => ?_
  refine .bind (pop_records hd h _ _) fun _ d hd h => ?_
  refine .bind (.quiet (.instruction _ _ _) hd h) fun _ d hd h => ?_
  refine .bind (.quiet (.label _ _ _) hd h) fun _ d hd h => ?_
  refine .bind (.quiet (.instruction _ _ _) hd h) fun _ d hd h => ?_
  refine .bind (.quiet (.instruction _ _ _) hd h) fun _ d hd h => ?_
  refine .bind (.quiet (.instruction _ _ _) hd h) fun _ d hd h => ?_
  refine .bind (.quiet (.instruction _ _ _) hd h) fun _ d hd h => ?_
  refine .bind (.quiet (.instruction _ _ _) hd h) fun _ d hd h => ?_
  exact .bind (.quiet (.label _ _ _) hd h) fun _ d hd h => push_records hd h _ _

theorem operator_records (hd : d.book.ledger.Laid) (h : d.book = b.pushed (n + 1 + 1)) (op : BinaryOp) :
    Records (operator op) (Emit.operator op) d fun _ b' => b' = b.pushed (n + 1) := by
  cases op with
  | add | sub | mul => exact arithmetic_records hd h _ _
  | div | mod => exact division_records hd h _ _
  | pow => exact power_records hd h
  | _ => exact comparison_records hd h _

theorem sign_records (hd : d.book.ledger.Laid) (h : d.book = b.pushed (n + 1)) (op : UnaryOp) :
    Records (sign op) (Emit.sign op) d fun _ b' => b' = b.pushed (n + 1) := by
  cases op with
  | plus => exact .pure hd h
  | neg =>
    refine .bind (pop_records hd h _ _) fun _ d hd h => ?_
    exact .bind (.quiet (.instruction _ _ _) hd h) fun _ d hd h => push_records hd h _ _

theorem slotOf_records (hd : d.book.ledger.Laid) (h : d.book = b) (a : Analysis) (use : NodeId) (x : Ident) :
    Records (slotOf a use x) (Emit.slotOf a use x) d fun _ b' => b' = b := by
  unfold slotOf Emit.slotOf
  cases a.symbols.get? use with
  | none => exact .fail hd _ _
  | some decl =>
    refine .reading hd ?_
    rw [hd.offset?_frame]
    cases d.book.ledger.slots decl with
    | none => exact .fail hd _ _
    | some offset => exact .pure hd h

theorem popArguments_records (hd : d.book.ledger.Laid) (rs : List String) (h : d.book = b.pushed (n + rs.length)) :
    Records (popArguments rs) (Emit.popArguments rs) d fun _ b' => b' = b.pushed n := by
  induction rs generalizing d with
  | nil => exact .pure hd h
  | cons r rs ih => exact .bind (pop_records hd h _ _) fun _ d hd h => ih hd h

/-- The words on the stack behind the arguments of a call are those that the registers have no room for, and the one
that keeps the stack aligned. -/
theorem call_records (hd : d.book.ledger.Laid) (h : d.book = b.pushed n) (name : String) (arity : Nat)
    {x : Keeping Unit} {y : Emit Unit}
    (harguments : ∀ d n, d.book.ledger.Laid → d.book = b.pushed n →
      Records x y d fun _ b' => b' = b.pushed (n + arity)) :
    Records (call name arity x) (Emit.call name arity y) d fun _ b' => b' = b.pushed (n + 1) := by
  refine .reading hd ?_
  rw [hd.depth_frame]
  have hpadding : (d.book.ledger.depth + stackArguments arity) % 2 = 0 ∨
      (d.book.ledger.depth + stackArguments arity) % 2 = 1 := by omega
  generalize (d.book.ledger.depth + stackArguments arity) % 2 = padding at hpadding
  have hrest : ∀ d, d.book.ledger.Laid → d.book = b.pushed (n + padding + arity) →
      Records
        (do
          popArguments (argumentRegisters.take arity)
          quiet (Emit.instruction .call [name] s!"Call '{name}'")
          quiet (Emit.shrinkStack (stackArguments arity + padding) "Drop stack arguments")
          move (.pop (stackArguments arity + padding))
          push returnRegister "Push return value")
        (do
          Emit.popArguments (argumentRegisters.take arity)
          Emit.instruction .call [name] s!"Call '{name}'"
          Emit.shrinkStack (stackArguments arity + padding) "Drop stack arguments"
          Emit.modifyFrame (·.popTemps (stackArguments arity + padding))
          Emit.push returnRegister "Push return value") d fun _ b' => b' = b.pushed (n + 1) := by
    intro d hd h
    have hwords : n + padding + arity =
        n + (stackArguments arity + padding) + (argumentRegisters.take arity).length := by
      rw [List.length_take, stackArguments]
      omega
    rw [hwords] at h
    refine .bind (popArguments_records hd _ h) fun _ d hd h => ?_
    refine .bind (.quiet (.instruction _ _ _) hd h) fun _ d hd h => ?_
    refine .bind (.quiet (.shrinkStack _ _) hd h) fun _ d hd h => ?_
    exact .bind (.popping hd h) fun _ d hd h => push_records hd h _ _
  obtain rfl | rfl := hpadding
  · exact .bind (harguments d n hd h) fun _ d hd h => hrest d hd h
  · refine .bind (.quiet (.growStack _) hd h) fun _ d hd h => ?_
    refine .bind (.pushing hd h 1) fun _ d hd h => ?_
    exact .bind (harguments d (n + 1) hd h) fun _ d hd h => hrest d hd h

mutual

/-- **The code of an expression leaves one temporary.** -/
theorem expr_records (a : Analysis) (e : Expr) {d : Desk} {n : Nat} (hd : d.book.ledger.Laid)
    (h : d.book = b.pushed n) : Records (expr a e) (Emit.expr a e) d fun _ b' => b' = b.pushed (n + 1) := by
  match e with
  | .float .. | .string .. | .index .. => exact .fail hd _ _
  | .int s v =>
    exact .bind (.quiet (.expectValue _ _) hd h) fun _ d hd h => intLiteral_records hd h v
  | .var s x =>
    refine .bind (.quiet (.expectValue _ _) hd h) fun _ d hd h => ?_
    exact .bind (slotOf_records hd h a s.id x) fun _ d hd h => push_records hd h _ _
  | .unary s op sp x =>
    refine .bind (.quiet (.expectValue _ _) hd h) fun _ d hd h => ?_
    exact .bind (expr_records a x hd h) fun _ d hd h => sign_records hd h op
  | .binary s op sp x y =>
    rw [expr.eq_def, Emit.expr.eq_def]
    refine .bind (.quiet (.expectValue _ _) hd h) fun _ d hd h => ?_
    by_cases hop : op = .assign
    · rw [if_pos hop, if_pos hop]
      match x with
      | .var s x =>
        refine .bind (slotOf_records hd h a s.id x) fun slot d hd h => ?_
        exact .bind (expr_records a y hd h) fun _ d hd h => .quiet (.store _ _) hd h
      | .int .. | .float .. | .string .. | .index .. | .call .. | .unary .. | .binary .. => exact .fail hd _ _
    · rw [if_neg hop, if_neg hop]
      refine .bind (expr_records a x hd h) fun _ d hd h => ?_
      exact .bind (expr_records a y hd h) fun _ d hd h => operator_records hd h op
  | .call s x args =>
    rw [expr, Emit.expr]
    refine .bind (.quiet (.expectValue _ _) hd h) fun _ d hd h => ?_
    split
    · exact call_records hd h _ _ fun d n hd h => arguments_records a args hd h
    · exact .fail hd _ _

theorem arguments_records (a : Analysis) (es : List Expr) {d : Desk} {n : Nat} (hd : d.book.ledger.Laid)
    (h : d.book = b.pushed n) :
    Records (arguments a es) (Emit.arguments a es) d fun _ b' => b' = b.pushed (n + es.length) := by
  match es with
  | [] => exact .pure hd h
  | e :: es => exact .bind (arguments_records a es hd h) fun _ d hd h => expr_records a e hd h

end

/-! ## Statements -/

/-- Words were added for some of the declarations, and nothing but variables and their padding is left behind. -/
structure Grows (b b' : Book) (ids : List NodeId) : Prop where
  outer : b'.outer = b.outer
  rests : b'.ledger.Rests
  since : ∃ since, since.Sublist ids ∧ b'.ledger.declared = b.ledger.declared ++ since

namespace Grows

variable {b' b'' : Book} {ids ids' : List NodeId}

theorem refl (h : b.ledger.Rests) (ids : List NodeId) : Grows b b ids :=
  ⟨rfl, h, [], List.nil_sublist _, (List.append_nil _).symm⟩

theorem trans (h : Grows b b' ids) (h' : Grows b' b'' ids') : Grows b b'' (ids ++ ids') := by
  obtain ⟨since, hsub, hsince⟩ := h.since
  obtain ⟨since', hsub', hsince'⟩ := h'.since
  refine ⟨h'.outer.trans h.outer, h'.rests, since ++ since', hsub.append hsub', ?_⟩
  rw [hsince', hsince, List.append_assoc]

theorem fresh (h : Grows b b' ids) (hfresh : (b.ledger.declared ++ (ids ++ ids')).Nodup) :
    (b'.ledger.declared ++ ids').Nodup := by
  obtain ⟨since, hsub, hsince⟩ := h.since
  rw [hsince, List.append_assoc]
  exact hfresh.sublist ((List.Sublist.refl _).append (hsub.append (List.Sublist.refl _)))

theorem returns (hd : b.ledger.Laid) (hd' : b'.ledger.Laid) (hrests : b.ledger.Rests)
    (h : Grows (b.move .mark) b' ids) : b'.Returns b.ledger.mark b.ledger := by
  obtain ⟨since, -, hsince⟩ := h.since
  have hsince : b'.ledger.declared = b.ledger.declared ++ since := hsince
  have htemps : b'.ledger.temps = b.ledger.temps := h.rests.1.trans hrests.1.symm
  have hwords : b.ledger.words ≤ b'.ledger.words := by
    rw [hd.words_eq, hd'.words_eq, hsince, List.length_append]
    exact Nat.le_add_right _ _
  exact {
    latest := by rw [h.outer]; rfl
    mark := rfl
    ledger := hd'.release hd hsince htemps
    since := ⟨since, hsince, hd'.slots_of_append hd hsince⟩
    depth := h.rests.depth_releasedWords hrests hwords }

end Grows

theorem branchUnlessTrue_records (hd : d.book.ledger.Laid) (h : d.book = b.pushed 1) (target : String) :
    Records (branchUnlessTrue target) (Emit.branchUnlessTrue target) d fun _ b' => b' = b := by
  refine .bind (pop_records hd h _ _) fun _ d hd h => ?_
  exact .bind (.quiet (.instruction _ _ _) hd h) fun _ d hd h => .quiet (.instruction _ _ _) hd h

/-- A frame of variables alone is padded when it has to be. -/
theorem alignFrame_records (hd : d.book.ledger.Laid) (h : d.book = b) (hpadded : b.ledger.padded = false)
    (htemps : b.ledger.temps = 0) :
    Records alignFrame Emit.alignFrame d fun _ b' =>
      b'.outer = b.outer ∧ b'.ledger.Rests ∧ b'.ledger.declared = b.ledger.declared := by
  subst h
  have haligned : d.book.ledger.isAligned = true ↔ d.book.ledger.words % 2 = 0 := by
    rw [Ledger.isAligned, Ledger.depth, hpadded, htemps, beq_iff_eq]
    rfl
  refine .reading hd ?_
  rw [hd.isAligned_frame]
  by_cases ha : d.book.ledger.isAligned = true
  · rw [if_pos ha, if_pos ha]
    refine .pure hd ⟨rfl, ⟨htemps, ?_⟩, rfl⟩
    have heven := haligned.1 ha
    rw [hpadded, heven]
    decide
  · rw [if_neg ha, if_neg ha]
    have hodd : d.book.ledger.words % 2 = 1 := (Nat.mod_two_eq_zero_or_one _).resolve_left (mt haligned.2 ha)
    refine .bind (.quiet (.growStack _) hd rfl) fun _ d' hd' h' => (Records.padding hd' h' true).mono ?_
    rintro _ _ rfl
    exact ⟨rfl, ⟨htemps, iff_of_true rfl hodd⟩, rfl⟩

/-- Where room is made for a variable there is no padding any more. -/
theorem reserve_records (hd : d.book.ledger.Laid) (h : d.book = b) (a : Analysis) (x : Binder) (init : Option Expr) :
    Records (reserve a x init) (Emit.reserve a x init) d fun _ b' => b' = b.move (.pad false) := by
  have hunpadded : ¬ d.book.ledger.padded = true → d.book = b.move (.pad false) := by
    intro hp
    rw [← h, Book.move, ← Bool.eq_false_iff.2 hp]
  cases init with
  | none =>
    refine .reading hd ?_
    by_cases hp : d.book.ledger.padded = true
    · rw [if_pos hp, if_pos (show d.book.ledger.frame.padded = true from hp)]
      exact .padding hd h false
    · rw [if_neg hp, if_neg (show ¬ d.book.ledger.frame.padded = true from hp)]
      exact .quiet (.growStack _) hd (hunpadded hp)
  | some e =>
    have hvalue : ∀ d, d.book.ledger.Laid → d.book = (b.move (.pad false)).pushed 0 →
        Records (expr a e >>= fun _ => move (.pop 1)) (Emit.expr a e >>= fun _ => Emit.modifyFrame (·.popTemps 1)) d
          fun _ b' => b' = b.move (.pad false) := fun d hd h =>
      .bind (expr_records a e hd h) fun _ d hd h => .popping hd h
    refine .reading hd ?_
    by_cases hp : d.book.ledger.padded = true
    · rw [if_pos hp, if_pos (show d.book.ledger.frame.padded = true from hp)]
      refine .bind (.quiet (.shrinkStack _ _) hd h) fun _ d hd h => ?_
      exact .bind (.padding hd h false) fun _ d hd h => hvalue d hd h
    · rw [if_neg hp, if_neg (show ¬ d.book.ledger.frame.padded = true from hp)]
      exact hvalue d hd (hunpadded hp)

theorem declare_records (hd : d.book.ledger.Laid) (hrests : b.ledger.Rests) (h : d.book = b) (a : Analysis)
    (x : Binder) (init : Option Expr) (hnew : x.site.id ∉ b.ledger.declared) :
    Records (declare a x init) (Emit.declare a x init) d fun _ b' => Grows b b' [x.site.id] := by
  refine .bind (.quiet (.expectInt _ _ _) hd h) fun _ d hd h => ?_
  refine .bind (reserve_records hd h a x init) fun _ d hd h => ?_
  refine .bind (.declaring hd h hnew) fun _ d hd h => (alignFrame_records hd h rfl hrests.1).mono ?_
  exact fun _ b' ⟨houter, hrests, hdeclared⟩ => ⟨houter, hrests, _, .refl _, hdeclared⟩

theorem scope_records {x : Keeping Unit} {y : Emit Unit} {ids : List NodeId} (hd : d.book.ledger.Laid)
    (hrests : b.ledger.Rests) (h : d.book = b)
    (hbody : ∀ d, d.book.ledger.Laid → d.book = b.move .mark → Records x y d fun _ b' => Grows (b.move .mark) b' ids) :
    Records (scope x) (Emit.scope y) d fun _ b' => b' = b := by
  subst h
  refine .reading hd (.aside hd trivial rfl fun d₁ hd₁ h₁ => ?_)
  refine .bind (hbody d₁ hd₁ h₁) fun _ d₂ hd₂ hgrows => ?_
  -- The ledger at the mark is the one that the body was entered with, so all that was told of it holds again.
  have hreturns := hgrows.returns hd hd₂ hrests
  refine .reading hd₂ ?_
  rw [hd₂.releasedWords_frame hd]
  have hback : d₂.book.move (.release d.book.ledger.mark) = d.book := by
    rw [Book.move, hreturns.ledger, hgrows.outer]
    rfl
  have hframe : (d₂.book.move (.release d.book.ledger.mark)).ledger.frame =
      d₂.book.ledger.frame.release d.book.ledger.frame := by
    rw [hback, Frame.release]
    have htemps : d₂.book.ledger.temps = d.book.ledger.temps := hgrows.rests.1.trans hrests.1.symm
    rw [Ledger.frame, Ledger.frame, htemps]
  refine .bind (.move hd₂ ⟨_, hreturns⟩ (by rw [hback]; exact hd) hframe hback) fun _ d hd h => ?_
  exact .quiet (.shrinkStack _ _) hd h

theorem between_records {x : Keeping Unit} {y : Emit Unit} {ids : List NodeId} (hd : d.book.ledger.Laid)
    (hrests : b.ledger.Rests) (h : d.book = b)
    (hx : ∀ d, d.book.ledger.Laid → d.book = b → Records x y d fun _ b' => Grows b b' ids) :
    Records (between x) y d fun _ b' => Grows b b' ids := by
  subst h
  exact .aside hd hrests rfl fun d' hd' h' => .followed (hx d' hd' h') fun _ _ hgrows => hgrows.rests

theorem Records.idle {x : Keeping Unit} {y : Emit Unit} {ids : List NodeId}
    (h : Records x y d fun _ b' => b' = b) (hrests : b.ledger.Rests) : Records x y d fun _ b' => Grows b b' ids := by
  refine h.mono ?_
  rintro _ _ rfl
  exact .refl hrests ids

theorem value_records (hd : d.book.ledger.Laid) (h : d.book = b) (a : Analysis) (e : Expr) :
    Records (expr a e) (Emit.expr a e) d fun _ b' => b' = b.pushed 1 :=
  expr_records a e hd (show d.book = b.pushed 0 from h)

mutual

/-- **The code of a statement adds words for what it declares**, and comes to rest. -/
theorem stmt_records (a : Analysis) (exit : String) (s : Stmt) {d : Desk} {b : Book} (hd : d.book.ledger.Laid)
    (hrests : b.ledger.Rests) (hfresh : (b.ledger.declared ++ s.decls.map Decl.id).Nodup) (h : d.book = b) :
    Records (stmt a exit s) (Emit.stmt a exit s) d fun _ b' => Grows b b' (s.decls.map Decl.id) := by
  match s with
  | .empty _ => exact between_records hd hrests h fun _ hd h => .idle (.pure hd h) hrests
  | .ite _ c t none =>
    refine between_records hd hrests h fun _ hd h => ?_
    refine .bind (.quiet (.expectCondition _ _) hd h) fun _ _ hd h => ?_
    refine .bind (value_records hd h a c) fun _ _ hd h => ?_
    refine .bind (.quiet (.freshLabel _) hd h) fun _ _ hd h => ?_
    refine .bind (.quiet (.freshLabel _) hd h) fun _ _ hd h => ?_
    refine .bind (branchUnlessTrue_records hd h _) fun _ _ hd h => ?_
    refine .bind (.quiet (.label _ _ _) hd h) fun _ _ hd h => ?_
    refine .bind (scope_records hd hrests h fun d hd h => stmt_records a exit t hd hrests hfresh h) fun _ _ hd h => ?_
    exact .idle (.quiet (.label _ _ _) hd h) hrests
  | .ite _ c t (some e) =>
    rw [Stmt.decls, List.map_append] at hfresh
    have hthen : (b.ledger.declared ++ t.decls.map Decl.id).Nodup :=
      hfresh.sublist ((List.Sublist.refl _).append (List.sublist_append_left _ _))
    have helse : (b.ledger.declared ++ e.decls.map Decl.id).Nodup :=
      hfresh.sublist ((List.Sublist.refl _).append (List.sublist_append_right _ _))
    refine between_records hd hrests h fun _ hd h => ?_
    refine .bind (.quiet (.expectCondition _ _) hd h) fun _ _ hd h => ?_
    refine .bind (value_records hd h a c) fun _ _ hd h => ?_
    refine .bind (.quiet (.freshLabel _) hd h) fun _ _ hd h => ?_
    refine .bind (.quiet (.freshLabel _) hd h) fun _ _ hd h => ?_
    refine .bind (.quiet (.freshLabel _) hd h) fun _ _ hd h => ?_
    refine .bind (branchUnlessTrue_records hd h _) fun _ _ hd h => ?_
    refine .bind (.quiet (.label _ _ _) hd h) fun _ _ hd h => ?_
    refine .bind (scope_records hd hrests h fun d hd h => stmt_records a exit t hd hrests hthen h) fun _ _ hd h => ?_
    refine .bind (.quiet (.instruction _ _ _) hd h) fun _ _ hd h => ?_
    refine .bind (.quiet (.label _ _ _) hd h) fun _ _ hd h => ?_
    refine .bind (scope_records hd hrests h fun d hd h => stmt_records a exit e hd hrests helse h) fun _ _ hd h => ?_
    exact .idle (.quiet (.label _ _ _) hd h) hrests
  | .loop _ c x =>
    refine between_records hd hrests h fun _ hd h => ?_
    refine .bind (.quiet (.expectCondition _ _) hd h) fun _ _ hd h => ?_
    refine .bind (.quiet (.freshLabel _) hd h) fun _ _ hd h => ?_
    refine .bind (.quiet (.freshLabel _) hd h) fun _ _ hd h => ?_
    refine .bind (.quiet (.freshLabel _) hd h) fun _ _ hd h => ?_
    refine .bind (.quiet (.label _ _ _) hd h) fun _ _ hd h => ?_
    refine .bind (value_records hd h a c) fun _ _ hd h => ?_
    refine .bind (branchUnlessTrue_records hd h _) fun _ _ hd h => ?_
    refine .bind (.quiet (.label _ _ _) hd h) fun _ _ hd h => ?_
    refine .bind (scope_records hd hrests h fun d hd h => stmt_records a exit x hd hrests hfresh h) fun _ _ hd h => ?_
    refine .bind (.quiet (.instruction _ _ _) hd h) fun _ _ hd h => ?_
    exact .idle (.quiet (.label _ _ _) hd h) hrests
  | .ret _ none => exact between_records hd hrests h fun _ hd h => .idle (.quiet (.instruction _ _ _) hd h) hrests
  | .ret _ (some e) =>
    refine between_records hd hrests h fun _ hd h => ?_
    refine .bind (value_records hd h a e) fun _ _ hd h => ?_
    refine .bind (pop_records hd h _ _) fun _ _ hd h => ?_
    exact .idle (.quiet (.instruction _ _ _) hd h) hrests
  | .expr _ e =>
    refine between_records hd hrests h fun _ hd h => ?_
    exact .bind (value_records hd h a e) fun _ _ hd h => .idle (pop_records hd h _ _) hrests
  | .decl x init =>
    have hnew : x.site.id ∉ b.ledger.declared := fun hmem =>
      (List.nodup_append.1 hfresh).2.2 _ hmem _ (List.mem_singleton_self _) rfl
    exact between_records hd hrests h fun _ hd h => declare_records hd hrests h a x init hnew
  | .array x _ => exact between_records hd hrests h fun _ hd _ => .fail hd _ _
  | .block _ body =>
    refine between_records hd hrests h fun _ hd h => .idle ?_ hrests
    exact scope_records hd hrests h fun d hd h => stmts_records a exit body hd hrests hfresh h

theorem stmts_records (a : Analysis) (exit : String) (ss : List Stmt) {d : Desk} {b : Book}
    (hd : d.book.ledger.Laid) (hrests : b.ledger.Rests)
    (hfresh : (b.ledger.declared ++ (Stmt.declsAll ss).map Decl.id).Nodup) (h : d.book = b) :
    Records (stmts a exit ss) (Emit.stmts a exit ss) d fun _ b' => Grows b b' ((Stmt.declsAll ss).map Decl.id) := by
  match ss with
  | [] => exact .idle (.pure hd h) hrests
  | s :: ss =>
    rw [Stmt.declsAll, List.map_append] at hfresh ⊢
    have hfirst : (b.ledger.declared ++ s.decls.map Decl.id).Nodup :=
      hfresh.sublist ((List.Sublist.refl _).append (List.sublist_append_left _ _))
    refine .bind (stmt_records a exit s hd hrests hfirst h) fun _ d' hd' hgrows => ?_
    refine (stmts_records a exit ss hd' hgrows.rests (hgrows.fresh hfresh) rfl).mono ?_
    exact fun _ b' hgrows' => hgrows.trans hgrows'

end

/-! ## Functions -/

/-- The words of parameters lie below the frame pointer without any padding. -/
theorem spillParameters_records (hd : d.book.ledger.Laid) (a : Analysis) (m : Nat) (bs : List Binder)
    (hpadded : d.book.ledger.padded = false) (htemps : d.book.ledger.temps = 0)
    (hfresh : (d.book.ledger.declared ++ bs.map (·.site.id)).Nodup) :
    Records (spillParameters a m bs) (Emit.spillParameters a m bs) d fun _ b' =>
      b'.outer = d.book.outer ∧ b'.ledger.padded = false ∧ b'.ledger.temps = 0 ∧
        b'.ledger.declared = d.book.ledger.declared ++ bs.map (·.site.id) := by
  induction bs generalizing d m with
  | nil => exact .pure hd ⟨rfl, hpadded, htemps, (List.append_nil _).symm⟩
  | cons x bs ih =>
    have hnew : x.site.id ∉ d.book.ledger.declared := fun hmem =>
      (List.nodup_append.1 hfresh).2.2 _ hmem _ List.mem_cons_self rfl
    refine .bind (.quiet (.expectInt _ _ _) hd rfl) fun _ _ hd h => ?_
    refine .bind (.quiet (.instruction _ _ _) hd h) fun _ _ hd h => ?_
    refine .bind (.declaring hd h hnew) fun _ d' hd' h' => ?_
    have hdeclared : d'.book.ledger.declared = d.book.ledger.declared ++ [x.site.id] := by rw [h']; rfl
    have hfresh' : (d'.book.ledger.declared ++ bs.map (·.site.id)).Nodup := by
      rw [hdeclared, List.append_assoc]
      exact hfresh
    refine (ih hd' (m + 1) (by rw [h']; exact hpadded) (by rw [h']; exact htemps) hfresh').mono ?_
    rintro _ b' ⟨houter, hp, ht, hd⟩
    refine ⟨houter.trans (by rw [h']; rfl), hp, ht, ?_⟩
    rw [hd, hdeclared, List.append_assoc]
    rfl

/-- **The code of a function leaves the words of its parameters.** -/
theorem function_records (a : Analysis) (f : Func) (hfresh : (f.decls.map Decl.id).Nodup) (h : d.book = {}) :
    Records (function a f) (Emit.function a f) d fun _ b' =>
      b'.outer = [] ∧ b'.ledger.Rests ∧ b'.ledger.declared = f.params.map (·.site.id) := by
  have hd : d.book.ledger.Laid := by
    rw [h]
    exact Ledger.laid_empty
  have hids : f.decls.map Decl.id = f.params.map (·.site.id) ++ (Stmt.declsAll f.body).map Decl.id := by
    rw [Func.decls, List.map_append, List.map_map]
    rfl
  rw [hids] at hfresh
  refine .start h ?_
  refine .bind (.quiet (.label _ _ _) hd h) fun _ _ hd h => ?_
  refine .bind (.quiet (.saveRegisters _) hd h) fun _ _ hd h => ?_
  refine .bind (.quiet (.instruction _ _ _) hd h) fun _ _ hd h => ?_
  refine .bind (.quiet (.instruction _ _ _) hd h) fun _ d hd h => ?_
  have hparams : (d.book.ledger.declared ++ f.params.map (·.site.id)).Nodup := by
    rw [h]
    exact (List.nodup_append.1 hfresh).1
  refine .bind (spillParameters_records hd a 0 f.params (by rw [h]) (by rw [h]) hparams) fun _ _ hd hspilt => ?_
  obtain ⟨houter, hpadded, htemps, hdeclared⟩ := hspilt
  refine .bind (alignFrame_records hd rfl hpadded htemps) fun _ d hd haligned => ?_
  obtain ⟨houter', hrests, hdeclared'⟩ := haligned
  have hdeclared : d.book.ledger.declared = f.params.map (·.site.id) := by
    rw [hdeclared', hdeclared, h]
    rfl
  have houter : d.book.outer = [] := by
    rw [houter', houter, h]
  have hbody : (d.book.ledger.declared ++ (Stmt.declsAll f.body).map Decl.id).Nodup := by
    rw [hdeclared]
    exact hfresh
  refine .bind (scope_records hd hrests rfl fun _ hd h => stmts_records a _ f.body hd hrests hbody h) fun _ _ hd h => ?_
  refine .bind (.quiet (.instruction _ _ _) hd h) fun _ _ hd h => ?_
  refine .bind (.quiet (.label _ _ _) hd h) fun _ _ hd h => ?_
  refine .bind (.quiet (.instruction _ _ _) hd h) fun _ _ hd h => ?_
  refine .bind (.quiet (.instruction _ _ _) hd h) fun _ _ hd h => ?_
  refine .bind (.quiet (.restoreRegisters _) hd h) fun _ _ hd h => ?_
  refine (Records.quiet (.instruction _ _ _) hd h).mono ?_
  rintro _ _ rfl
  exact ⟨houter, hrests, hdeclared⟩

end Keeping

/-! ## Parsed programs -/

theorem map_id_sublist_nodes (ds : List Decl) : (ds.map Decl.id).Sublist (ds.flatMap Decl.nodes) := by
  induction ds with
  | nil => exact .refl _
  | cons d ds ih =>
    have hfirst : [d.id].Sublist d.nodes := List.singleton_sublist.2 (Decl.mem_nodes.2 (.inl rfl))
    exact hfirst.append ih

theorem nodup_decls_of_parseProgram {source : String} {p : Program} (h : parseProgram source = .ok p) {f : Func}
    (hf : f ∈ p.functions) : (f.decls.map Decl.id).Nodup := by
  have hsub : f.decls.Sublist p.decls := by
    obtain ⟨before, after, hsplit⟩ := List.append_of_mem hf
    rw [Program.decls, hsplit, List.flatMap_append, List.flatMap_cons]
    exact (List.sublist_append_left _ _).trans (List.sublist_append_right _ _)
  have hnodes := (List.nodup_append.1 (numbered_of_parseProgram h)).2.1
  exact hnodes.sublist ((hsub.map Decl.id).trans (map_id_sublist_nodes _))

/-- **The ledger of a function is in order all the time.** In a parsed program no two declarations of a function have
the same number. Where that is so, every move that is made for a function finds what it asks for in a ledger that is in
order, also if the emission fails on the way, and with the ledger the emission comes to what it comes to with the
frame. If it succeeds, no mark is left, and no words but those of the parameters are. -/
theorem frames_kept (a : Analysis) (l : Layout) :
    (∀ source p, parseProgram source = .ok p → ∀ f ∈ p.functions, (f.decls.map Decl.id).Nodup) ∧
    ∀ f : Func, (f.decls.map Decl.id).Nodup →
      ∃ o d, Keeping.function a f { labels := l.labels } = (o, d) ∧
        d.book = ({} : Book).moves d.made ∧ ({} : Book).Keeps d.made ∧
        Emit.function a f l = o.map (fun _ => ⟨(), d.lines, d.layout⟩) ∧
        (o = .ok () →
          d.book.outer = [] ∧ d.book.ledger.Rests ∧ d.book.ledger.declared = f.params.map (·.site.id)) := by
  refine ⟨fun source p h f hf => nodup_decls_of_parseProgram h hf, fun f hf => ?_⟩
  -- A function starts with an empty frame, whatever the one before has left.
  have hstart : Emit.function a f l = Emit.function a f (Desk.layout { labels := l.labels }) := rfl
  rw [hstart]
  cases Keeping.function_records a f hf (d := { labels := l.labels }) rfl with
  | @failed e d moves run code =>
    obtain ⟨ms, hmade, hbook, hkeeps⟩ := moves
    obtain rfl : d.made = ms := hmade
    exact ⟨_, d, run, hbook, hkeeps, code, nofun⟩
  | @done v d lines moves run emitted code result =>
    obtain ⟨ms, hmade, hbook, hkeeps⟩ := moves
    obtain rfl : d.made = ms := hmade
    obtain rfl : d.lines = lines := emitted
    exact ⟨_, d, run, hbook, hkeeps, code, fun _ => result⟩

/-- The padding of `x` becomes the word of `y`, `z` is padded again, and at the end `x` is padded as before. -/
def handsOver : String := "int f(int x)\x7bint y;\x7bint z;\x7d\x7d"

def handsOverTables : Analysis := ⟨⟨[]⟩, ⟨[]⟩, ⟨[(⟨0⟩, .int), (⟨1⟩, .int), (⟨2⟩, .int)]⟩⟩

def handsOverMoves : List Move :=
  [.declare ⟨0⟩, .pad true, .mark, .pause, .pad false, .declare ⟨1⟩, .pause, .pause, .mark, .pause, .declare ⟨2⟩,
    .pad true, .pause, .release ⟨2, 2, false⟩, .pause, .release ⟨1, 1, true⟩]

theorem made_handsOver :
    ∃ p f, parseProgram handsOver = .ok p ∧ f ∈ p.functions ∧
      (Keeping.function handsOverTables f {}).2.made = handsOverMoves := by
  have hattempt : ((Attempt.program 400 (.start (scan handsOver).tokens)).any fun r =>
      r.1.toOption.any fun p => p.functions.any fun f =>
        decide ((Keeping.function handsOverTables f {}).2.made = handsOverMoves)) = true := by decide +kernel
  obtain ⟨⟨o, d⟩, hr, hany⟩ := (Option.any_eq_true _ _).1 hattempt
  cases o with
  | error e => cases hany
  | ok p =>
    obtain ⟨f, hf, hmade⟩ := List.any_eq_true.1 hany
    have hp : parseProgram handsOver = .ok p :=
      (parseProgram_eq_ok_iff (by decide +kernel)).2 ⟨by decide +kernel, d, hr⟩
    exact ⟨p, f, hp, hf, of_decide_eq_true hmade⟩

theorem frames_kept_handsOver :
    ∃ p f, parseProgram handsOver = .ok p ∧ f ∈ p.functions ∧ (f.decls.map Decl.id).Nodup ∧
      (Keeping.function handsOverTables f {}).2.made = handsOverMoves ∧ ({} : Book).Keeps handsOverMoves := by
  obtain ⟨p, f, hp, hf, hmade⟩ := made_handsOver
  have hnodup := (frames_kept handsOverTables {}).1 handsOver p hp f hf
  obtain ⟨o, d, hrun, -, hkeeps, -⟩ := (frames_kept handsOverTables {}).2 f hnodup
  have hd : (Keeping.function handsOverTables f {}).2 = d := congrArg Prod.snd hrun
  refine ⟨p, f, hp, hf, hnodup, hmade, ?_⟩
  rw [← hmade, hd]
  exact hkeeps

end MicroC
