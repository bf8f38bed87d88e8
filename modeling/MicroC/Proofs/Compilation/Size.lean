import Mathlib.Algebra.Ring.Nat
import Mathlib.Data.List.MinMax
import Mathlib.Order.Nat
import MicroC.Proofs.Compilation.Routines
import MicroC.Proofs.Parser.Language
import MicroC.Proofs.Parser.Tokens
import MicroC.Proofs.Token.Tiling

/-!
# How large modules are

A module has at most sixteen instructions for each token of its source, and every call takes at least
three tokens. So a source of some length bounds the number of instructions and how deep calls are nested.

* `Term.cost`, `Phrase.cost`, `Routine.cost`: how many instructions the code of a tree takes at most.
* `Term.cost_le`, `Statement.cost_le`, `Routines.cost_le`: the cost of a tree goes by its tokens.
* `ExprCode.width_le`, `StmtCode.width_le`, `ProgramCode.width_le`: the cost bounds the code.
* `Program.frameWords`: the cost bounds the frames, too.
* **`Compiled.size_le`**: the size of a module goes by the length of its source.
* `callDepth_le_of_parseProgram`: and so does the number of calls inside one another.
-/

namespace MicroC

namespace Grammar

/-! ## Costs -/

mutual

/-- How many instructions an expression takes at most. -/
def Term.cost : Term → Nat
  | .int _ | .float _ | .string _ | .var _ => 2
  | .index _ i => i.cost
  | .call _ args => Term.costs args + 48
  | .unary _ x => x.cost + 3
  | .binary _ x y => x.cost + y.cost + 9

def Term.costs : List Term → Nat
  | [] => 0
  | x :: xs => x.cost + Term.costs xs

end

mutual

/-- How many instructions a statement takes at most. -/
def Phrase.cost : Phrase → Nat
  | .empty | .array .. => 0
  | .ite c x none => c.cost + x.cost + 4
  | .ite c x (some y) => c.cost + x.cost + y.cost + 6
  | .loop c x => c.cost + x.cost + 5
  | .ret none => 1
  | .ret (some e) => e.cost + 2
  | .expr e => e.cost + 1
  | .decl _ _ none => 2
  | .decl _ _ (some e) => e.cost + 2
  | .block xs => Phrase.costs xs + 1

def Phrase.costs : List Phrase → Nat
  | [] => 0
  | x :: xs => x.cost + Phrase.costs xs

end

/-- How many instructions a function takes at most. -/
def Routine.cost (r : Routine) : Nat := Phrase.costs r.body + r.params.length + 20

/-! ## Tokens -/

mutual

theorem Term.cost_le : (x : Term) → x.cost ≤ 16 * x.tokens
  | .int _ | .float _ | .string _ | .var _ => Nat.le_add_left 2 14
  | .index _ i => by
    have := i.cost_le
    simp only [Term.cost, Term.tokens]
    omega
  | .call _ [] => Nat.le_refl 48
  | .call _ (x :: xs) => by
    have := x.cost_le
    have := Term.costs_le xs
    simp only [Term.cost, Term.costs, Term.tokens]
    omega
  | .unary _ x => by
    have := x.cost_le
    simp only [Term.cost, Term.tokens]
    omega
  | .binary _ x y => by
    have := x.cost_le
    have := y.cost_le
    simp only [Term.cost, Term.tokens]
    omega

theorem Term.costs_le : (xs : List Term) → Term.costs xs ≤ 16 * Term.tokensMore xs
  | [] => Nat.le_refl 0
  | x :: xs => by
    have := x.cost_le
    have := Term.costs_le xs
    simp only [Term.costs, Term.tokensMore]
    omega

end

theorem Derives.cost_le {l : Level} {ts : List Token} {x : Term} (h : Derives l ts x) : x.cost ≤ 16 * ts.length :=
  Nat.le_trans x.cost_le (Nat.mul_le_mul_left 16 h.tokens_le)

theorem Simple.cost_le {ts : List Token} {x : Phrase} (h : Simple ts x) : x.cost ≤ 16 * ts.length := by
  match h with
  | .empty _ | .array _ _ _ _ _ _ => exact Nat.zero_le _
  | .expr hx _ =>
    have := hx.cost_le
    simp only [Phrase.cost, List.length_append, List.length_cons, List.length_nil]
    omega
  | .decl _ _ _ => exact Nat.le_add_left 2 46
  | .init _ _ _ hx _ =>
    have := hx.cost_le
    simp only [Phrase.cost, List.length_append, List.length_cons, List.length_nil]
    omega

mutual

theorem Statement.cost_le {nearest o : Bool} {ts : List Token} {x : Phrase} (h : Statement nearest o ts x) :
    x.cost ≤ 16 * ts.length := by
  match h with
  | .simple hx => exact hx.cost_le
  | .ret _ _ => exact Nat.le_add_left 1 31
  | .retValue _ hx _ =>
    have := hx.cost_le
    simp only [Phrase.cost, List.length_append, List.length_cons, List.length_nil]
    omega
  | .block _ hxs _ =>
    have := hxs.cost_le
    simp only [Phrase.cost, List.length_append, List.length_cons, List.length_nil]
    omega
  | .ifThen _ _ hc _ hx =>
    have := hc.cost_le
    have := hx.cost_le
    simp only [Phrase.cost, List.length_append, List.length_cons]
    omega
  | .ifElse _ _ hc _ hx _ _ hy =>
    have := hc.cost_le
    have := hx.cost_le
    have := hy.cost_le
    simp only [Phrase.cost, List.length_append, List.length_cons]
    omega
  | .loop _ _ hc _ hx =>
    have := hc.cost_le
    have := hx.cost_le
    simp only [Phrase.cost, List.length_append, List.length_cons]
    omega
  | .forLoop _ _ hi hc _ hn _ hx =>
    have := hi.cost_le
    have := hc.cost_le
    have := hn.cost_le
    have := hx.cost_le
    simp only [Phrase.cost, Phrase.costs, List.length_append, List.length_cons]
    omega

theorem Statements.cost_le {nearest : Bool} {ts : List Token} {xs : List Phrase}
    (h : Statements nearest ts xs) : Phrase.costs xs ≤ 16 * ts.length := by
  match h with
  | .nil => exact Nat.le_refl 0
  | .cons hx hxs =>
    have := hx.cost_le
    have := hxs.cost_le
    simp only [Phrase.costs, List.length_append]
    omega

end

theorem Params.length_le {ts : List Token} {ps : List Param} (h : Params ts ps) : ps.length ≤ ts.length := by
  induction h with
  | last => exact Nat.le_add_left 1 1
  | more _ _ _ _ ih =>
    simp only [List.length_cons]
    omega

theorem Routines.cost_le {nearest : Bool} {ts : List Token} {rs : List Routine} (h : Routines nearest ts rs) :
    (rs.map Routine.cost).sum ≤ 16 * ts.length := by
  induction h with
  | nil => exact Nat.le_refl 0
  | @cons ps ts us k n l r b e params body fs _ _ _ hps _ _ hxs _ _ ih =>
    have hbody := hxs.cost_le
    have hparams : params.length ≤ ps.length := by
      rcases hps with ⟨rfl, rfl⟩ | hps
      · exact Nat.le_refl 0
      · exact hps.length_le
    simp only [List.map_cons, List.sum_cons, Routine.cost, List.length_append, List.length_cons]
    omega

end Grammar

/-! ## Code -/

open Grammar

section Code

variable {c : Meaning} {slots : List NodeId}

theorem width_shrinkItems_le (n : Nat) : width (shrinkItems n) ≤ 1 := by
  cases n with
  | zero => exact Nat.zero_le 1
  | succ n => exact Nat.le_refl 1

theorem width_popItems (rs : List Reg) : width (popItems rs) = rs.length := by
  induction rs with
  | nil => rfl
  | cons r rs ih => rw [popItems, List.map_cons, width_op, ← popItems, ih, List.length_cons]

theorem width_operatorItems_le (ks : List Kind) (n : Nat) (κ : Kind) (op : BinaryOp) :
    width (operatorItems ks n κ op) ≤ 9 := by
  cases op <;> simp [operatorItems, arithmeticItems, divisionItems, powerItems, powerLoop, comparisonItems]

theorem width_callItems_le (f : String) (arity padding : Nat) (κ : Kind) :
    width (callItems f arity padding κ) ≤ 9 := by
  have hpop : (Reg.arguments.take arity).length ≤ 6 := by
    rw [List.length_take]
    exact Nat.min_le_right _ _
  have hshrink := width_shrinkItems_le (Convention.stackArguments arity + padding)
  simp only [callItems, width_append, width_popItems, width_op, width_nil]
  omega

mutual

theorem ExprCode.width_le {ks : List Kind} {n n' : Nat} {κ : Kind} {e : Expr} {is : List Item}
    (h : ExprCode c slots ks n κ e is n') : width is ≤ e.term.cost := by
  match h with
  | .narrow _ => exact Nat.le_succ 1
  | .wide _ => exact Nat.le_refl 2
  | .var _ => exact Nat.le_succ 1
  | .plus hx => exact Nat.le_trans hx.width_le (Nat.le_add_right _ 3)
  | .neg hx =>
    have := hx.width_le
    simp only [Expr.term, Term.cost, width_append, negationItems, width_op, width_nil]
    omega
  | .assign _ hy =>
    have := hy.width_le
    simp only [Expr.term, Term.cost, width_append, storeItems, width_op, width_nil]
    omega
  | @ExprCode.binary _ _ _ _ _ n₂ κ _ op _ _ _ _ _ _ hx hy =>
    have := hx.width_le
    have := hy.width_le
    have := width_operatorItems_le ks n₂ κ op
    simp only [Expr.term, Term.cost, width_append]
    omega
  | @ExprCode.call _ _ _ _ _ p κ _ f args _ _ hp hargs =>
    have := hargs.width_le
    have := width_callItems_le f.name args.length p κ
    have hpad : p ≤ 1 := by
      rw [hp, callPadding]
      omega
    simp only [Expr.term, Term.cost, width_append, width_growItems]
    omega

theorem ArgsCode.width_le {ks : List Kind} {n n' : Nat} {es : List Expr} {is : List Item}
    (h : ArgsCode c slots ks n es is n') : width is ≤ Term.costs (Expr.terms es) := by
  match h with
  | .nil => exact Nat.le_refl 0
  | .cons hes he =>
    have := hes.width_le
    have := he.width_le
    simp only [Expr.terms, Term.costs, width_append]
    omega

end

theorem Spot.width_release_le (p p' : Spot) : width (p.release p') ≤ 1 := width_shrinkItems_le _

theorem Spot.width_alignItems_le (p : Spot) : width p.alignItems ≤ 1 := by
  rw [Spot.alignItems]
  split
  · exact Nat.zero_le 1
  · exact Nat.le_refl 1

theorem width_branchItems (target : String) : width (branchItems target) = 3 := rfl

mutual

theorem StmtCode.width_le {p q : Spot} {n n' : Nat} {s : Stmt} {is : List Item}
    (h : StmtCode c p n s is q n') : width is ≤ s.phrase.cost := by
  match h with
  | .empty => exact Nat.le_refl 0
  | @StmtCode.ifThen _ p p' _ _ _ _ _ _ _ _ he ht =>
    have := he.width_le
    have := ht.width_le
    have := p.width_release_le p'
    simp only [Stmt.phrase, Phrase.cost, width_append, width_branchItems, width_label, width_nil]
    omega
  | @StmtCode.ifElse _ p p' p'' _ _ _ _ _ _ _ _ _ _ _ he ht hu =>
    have := he.width_le
    have := ht.width_le
    have := hu.width_le
    have := p.width_release_le p'
    have := p.width_release_le p''
    simp only [Stmt.phrase, Phrase.cost, width_append, width_branchItems, width_label, width_op, width_nil]
    omega
  | @StmtCode.loop _ p p' _ _ _ _ _ _ _ _ he hb =>
    have := he.width_le
    have := hb.width_le
    have := p.width_release_le p'
    simp only [Stmt.phrase, Phrase.cost, width_append, width_branchItems, width_label, width_op, width_nil]
    omega
  | .leave => exact Nat.le_refl 1
  | .ret he =>
    have := he.width_le
    simp only [Stmt.phrase, Phrase.cost, width_append, width_op, width_nil]
    omega
  | .expr he =>
    have := he.width_le
    simp only [Stmt.phrase, Phrase.cost, width_append, width_op, width_nil]
    omega
  | @StmtCode.init _ p q _ _ _ _ _ he _ =>
    have := he.width_le
    have := width_shrinkItems_le p.padded.toNat
    have := q.width_alignItems_le
    simp only [Stmt.phrase, Phrase.cost, width_append]
    omega
  | @StmtCode.bare _ p q _ _ _ =>
    have := q.width_alignItems_le
    simp only [Stmt.phrase, Phrase.cost, width_append, width_growItems]
    omega
  | @StmtCode.block _ p p' _ _ _ _ _ h =>
    have := h.width_le
    have := p.width_release_le p'
    simp only [Stmt.phrase, Phrase.cost, width_append]
    omega

theorem StmtsCode.width_le {p q : Spot} {n n' : Nat} {ss : List Stmt} {is : List Item}
    (h : StmtsCode c p n ss is q n') : width is ≤ Phrase.costs (Stmt.phrases ss) := by
  match h with
  | .nil => exact Nat.le_refl 0
  | .cons hs hss =>
    have := hs.width_le
    have := hss.width_le
    simp only [Stmt.phrases, Phrase.costs, width_append]
    omega

end

theorem RoutineCode.width_le {n n' : Nat} {f : Func} {r : Subroutine} (h : RoutineCode c n f r n') :
    r.width ≤ f.routine.cost := by
  obtain ⟨h⟩ := h
  next p' =>
  have := h.width_le
  have := f.place.width_alignItems_le
  have := f.place.align.width_release_le p'
  simp only [Subroutine.width, entryWidth, exitWidth, Func.routine, Routine.cost, List.length_map, width_append,
    width_spillItems, width_op, width_nil]
  omega

theorem ProgramCode.width_le {n n' : Nat} {fs : List Func} {rs : List Subroutine} (h : ProgramCode c n fs rs n') :
    programWidth rs ≤ ((fs.map Func.routine).map Routine.cost).sum := by
  induction h with
  | nil => exact Nat.le_refl 0
  | cons hf _ ih =>
    have := hf.width_le
    simp only [programWidth, List.map_cons, List.sum_cons]
    omega

/-- No function of a program takes more instructions, and so no frame takes more words. -/
def Program.frameWords (p : Program) : Nat := (p.routines.map Routine.cost).foldr max 0

theorem ProgramCode.width_le_frameWords {n n' : Nat} {p : Program} {rs : List Subroutine}
    (h : ProgramCode c n p.functions rs n') {r : Subroutine} (hr : r ∈ rs) : r.width ≤ p.frameWords := by
  obtain ⟨f, hf, _, _, hcode⟩ := h.mem hr
  exact List.le_max_of_le (List.mem_map_of_mem (List.mem_map_of_mem hf)) hcode.width_le

end Code

/-! ## Calls -/

mutual

theorem Expr.callDepth_le : (e : Expr) → 48 * e.callDepth ≤ e.term.cost
  | .int .. | .float .. | .string .. | .var .. => Nat.zero_le _
  | .index _ _ i => i.callDepth_le
  | .call _ _ args => by
    have := Expr.callDepthAll_le args
    simp only [Expr.callDepth, Expr.term, Term.cost]
    omega
  | .unary _ _ _ x => Nat.le_trans x.callDepth_le (Nat.le_add_right _ 3)
  | .binary _ _ _ x y => by
    have := x.callDepth_le
    have := y.callDepth_le
    simp only [Expr.callDepth, Expr.term, Term.cost]
    omega

theorem Expr.callDepthAll_le : (es : List Expr) → 48 * Expr.callDepthAll es ≤ Term.costs (Expr.terms es)
  | [] => Nat.le_refl 0
  | e :: es => by
    have := e.callDepth_le
    have := Expr.callDepthAll_le es
    simp only [Expr.callDepthAll, Expr.terms, Term.costs]
    omega

end

mutual

theorem Stmt.callDepth_le : (s : Stmt) → 48 * s.callDepth ≤ s.phrase.cost
  | .empty _ | .array .. | .ret _ none | .decl _ none => Nat.zero_le _
  | .ite _ c t none => by
    have := c.callDepth_le
    have := t.callDepth_le
    simp only [Stmt.callDepth, Stmt.phrase, Phrase.cost]
    omega
  | .ite _ c t (some u) => by
    have := c.callDepth_le
    have := t.callDepth_le
    have := u.callDepth_le
    simp only [Stmt.callDepth, Stmt.phrase, Phrase.cost]
    omega
  | .loop _ c b => by
    have := c.callDepth_le
    have := b.callDepth_le
    simp only [Stmt.callDepth, Stmt.phrase, Phrase.cost]
    omega
  | .ret _ (some e) => Nat.le_trans e.callDepth_le (Nat.le_add_right _ 2)
  | .expr _ e => Nat.le_trans e.callDepth_le (Nat.le_add_right _ 1)
  | .decl _ (some e) => Nat.le_trans e.callDepth_le (Nat.le_add_right _ 2)
  | .block _ body => Nat.le_trans (Stmt.callDepthAll_le body) (Nat.le_add_right _ 1)

theorem Stmt.callDepthAll_le : (ss : List Stmt) → 48 * Stmt.callDepthAll ss ≤ Phrase.costs (Stmt.phrases ss)
  | [] => Nat.le_refl 0
  | s :: ss => by
    have := s.callDepth_le
    have := Stmt.callDepthAll_le ss
    simp only [Stmt.callDepthAll, Stmt.phrases, Phrase.costs]
    omega

end

theorem Program.callDepth_le_cost (p : Program) : 48 * p.callDepth ≤ (p.routines.map Routine.cost).sum := by
  unfold Program.callDepth Program.routines
  induction p.functions with
  | nil => exact Nat.le_refl 0
  | cons f fs ih =>
    have := Stmt.callDepthAll_le f.body
    simp only [List.foldr_cons, List.map_cons, List.sum_cons, Func.routine, Routine.cost] at ih ⊢
    omega

/-! ## Sources -/

variable {source : String} {p : Program} {a : Analysis} {m : Module}

theorem cost_le_of_parseProgram (h : parseProgram source = .ok p) :
    (p.routines.map Routine.cost).sum ≤ 16 * source.length := by
  obtain ⟨-, hd⟩ := (parseProgram_iff source p.routines).1 ⟨p, h, rfl⟩
  have hcost := hd.cost_le
  have htokens := length_tokens_le source
  omega

/-- **The size of a module goes by the length of its source.** -/
theorem Compiled.size_le (h : Compiled source p a m) : m.instructionCount ≤ 16 * source.length := by
  obtain ⟨rs, n, hcode, hspelled, -⟩ := h.routines
  rw [← blockWidth_blocks, hspelled.width_eq]
  exact Nat.le_trans hcode.width_le (cost_le_of_parseProgram h.parsed)

theorem callDepth_le_of_parseProgram (h : parseProgram source = .ok p) : 3 * p.callDepth ≤ source.length := by
  have hdepth := p.callDepth_le_cost
  have hcost := cost_le_of_parseProgram h
  omega

end MicroC
