import MicroC.Proofs.Semantics.Evaluation

/-!
# Evaluations with greater bounds

An evaluation that comes to a result within its bound comes to the same result within any greater one. So there
is at most one result.

* `Eval.Below`: an evaluation goes as far as another one, or is unfinished.
* **`Program.call_below`**: calls with greater bounds.
* **`Program.Evaluates.unique`**: there is at most one result.
-/

namespace MicroC

section Below

variable {σ α β : Type}

/-- An evaluation that is unfinished or comes to the same result as another one. -/
def Eval.Below (x y : Eval σ α) : Prop := ∀ host, (∃ host', x host = .error .unfinished host') ∨ y host = x host

namespace Eval.Below

variable {x y : Eval σ α}

theorem refl (x : Eval σ α) : Below x x := fun _ => .inr rfl

theorem unfinished : Below (throw .unfinished) y := fun host => .inl ⟨host, rfl⟩

theorem bind {f g : α → Eval σ β} (h : Below x y) (hf : ∀ v, Below (f v) (g v)) : Below (x >>= f) (y >>= g) := by
  intro host
  change (∃ host', EStateM.bind x f host = .error .unfinished host') ∨ EStateM.bind y g host = EStateM.bind x f host
  unfold EStateM.bind
  rcases h host with ⟨host', hx⟩ | hxy
  · rw [hx]
    exact .inl ⟨host', rfl⟩
  · rw [hxy]
    cases x host with
    | ok v host' => exact hf v host'
    | error e host' => exact .inr rfl

end Eval.Below

variable {symbols : SymbolTable} {call call' : String → List Int64 → Eval σ Int64} {m n : Nat}

mutual

theorem Expr.eval_below (h : ∀ f args, Eval.Below (call f args) (call' f args)) (e : Expr) (env : Env) :
    Eval.Below (e.eval symbols call env) (e.eval symbols call' env) := by
  match e with
  | .int .. | .float .. | .string .. | .index .. | .var .. =>
    rw [Expr.eval, Expr.eval]
    exact .refl _
  | .unary _ .plus _ x =>
    rw [Expr.eval, Expr.eval]
    exact Expr.eval_below h x env
  | .unary _ .neg _ x =>
    rw [Expr.eval, Expr.eval]
    exact (Expr.eval_below h x env).bind fun _ => .refl _
  | .binary _ op _ x y =>
    rw [Expr.eval, Expr.eval]
    by_cases hop : op = .assign
    · rw [if_pos hop, if_pos hop]
      exact (Expr.eval_below h y env).bind fun _ => .refl _
    · rw [if_neg hop, if_neg hop]
      exact (Expr.eval_below h x env).bind fun v => (Expr.eval_below h y v.2).bind fun _ => .refl _
  | .call _ f args =>
    rw [Expr.eval, Expr.eval]
    exact (Expr.evalArgs_below h args env).bind fun x => (h f.name x.1).bind fun _ => .refl _

theorem Expr.evalArgs_below (h : ∀ f args, Eval.Below (call f args) (call' f args)) (es : List Expr) (env : Env) :
    Eval.Below (Expr.evalArgs symbols call es env) (Expr.evalArgs symbols call' es env) := by
  match es with
  | [] =>
    rw [Expr.evalArgs, Expr.evalArgs]
    exact .refl _
  | e :: es =>
    rw [Expr.evalArgs, Expr.evalArgs]
    exact (Expr.evalArgs_below h es env).bind fun x => (Expr.eval_below h e x.2).bind fun _ => .refl _

end

theorem Eval.scope_below {x y : Env → Eval σ Completion} (h : ∀ env, Eval.Below (x env) (y env)) (env : Env) :
    Eval.Below (Eval.scope x env) (Eval.scope y env) := (h env).bind fun _ => .refl _

/-- A loop with more rounds. -/
theorem Eval.repeat_below {c c' : Env → Eval σ (Int64 × Env)} {b b' : Env → Eval σ Completion}
    (hc : ∀ env, Eval.Below (c env) (c' env)) (hb : ∀ env, Eval.Below (b env) (b' env)) (hmn : m ≤ n) (env : Env) :
    Eval.Below (Eval.repeat c b m env) (Eval.repeat c' b' n env) := by
  induction m generalizing n env with
  | zero => exact .unfinished
  | succ m ih =>
    obtain ⟨n, rfl⟩ := Nat.exists_eq_succ_of_ne_zero (Nat.ne_of_gt (Nat.lt_of_lt_of_le m.succ_pos hmn))
    refine (hc env).bind fun v => ?_
    dsimp only
    split
    · refine (hb v.2).bind fun x => ?_
      cases x with
      | falls env => exact ih (Nat.le_of_succ_le_succ hmn) env
      | returns v => exact .refl _
    · exact .refl _

mutual

theorem Stmt.eval_below (h : ∀ f args, Eval.Below (call f args) (call' f args)) (hmn : m ≤ n) (s : Stmt) (env : Env) :
    Eval.Below (s.eval symbols call m env) (s.eval symbols call' n env) := by
  match s with
  | .empty _ | .ret _ none | .decl _ none | .array .. =>
    rw [Stmt.eval, Stmt.eval]
    exact .refl _
  | .ite _ c t none =>
    rw [Stmt.eval, Stmt.eval]
    refine (Expr.eval_below h c env).bind fun v => ?_
    dsimp only
    split
    · exact Eval.scope_below (Stmt.eval_below h hmn t) v.2
    · exact .refl _
  | .ite _ c t (some u) =>
    rw [Stmt.eval, Stmt.eval]
    refine (Expr.eval_below h c env).bind fun v => ?_
    dsimp only
    split
    · exact Eval.scope_below (Stmt.eval_below h hmn t) v.2
    · exact Eval.scope_below (Stmt.eval_below h hmn u) v.2
  | .loop _ c b =>
    rw [Stmt.eval, Stmt.eval]
    exact Eval.repeat_below (Expr.eval_below h c) (Eval.scope_below (Stmt.eval_below h hmn b)) hmn env
  | .ret _ (some e) | .expr _ e | .decl _ (some e) =>
    rw [Stmt.eval, Stmt.eval]
    exact (Expr.eval_below h e env).bind fun _ => .refl _
  | .block _ body =>
    rw [Stmt.eval, Stmt.eval]
    exact Eval.scope_below (Stmt.evalAll_below h hmn body) env

theorem Stmt.evalAll_below (h : ∀ f args, Eval.Below (call f args) (call' f args)) (hmn : m ≤ n) (ss : List Stmt)
    (env : Env) : Eval.Below (Stmt.evalAll symbols call m ss env) (Stmt.evalAll symbols call' n ss env) := by
  match ss with
  | [] =>
    rw [Stmt.evalAll, Stmt.evalAll]
    exact .refl _
  | s :: ss =>
    rw [Stmt.evalAll, Stmt.evalAll]
    refine (Stmt.eval_below h hmn s env).bind fun x => ?_
    cases x with
    | falls env => exact Stmt.evalAll_below h hmn ss env
    | returns v => exact .refl _

end

variable [Host σ] {p : Program}

/-- **A call with greater bounds goes as far.** -/
theorem Program.call_below {rounds rounds' : Nat} (hrounds : rounds ≤ rounds') (hmn : m ≤ n) (name : String)
    (args : List Int64) :
    Eval.Below (σ := σ) (p.call symbols rounds m name args) (p.call symbols rounds' n name args) := by
  induction m generalizing n name args with
  | zero => exact .unfinished
  | succ m ih =>
    obtain ⟨n, rfl⟩ := Nat.exists_eq_succ_of_ne_zero (Nat.ne_of_gt (Nat.lt_of_lt_of_le m.succ_pos hmn))
    rw [Program.call, Program.call]
    split
    · next f _ =>
      exact (Stmt.evalAll_below (ih (Nat.le_of_succ_le_succ hmn)) hrounds f.body (f.bind args)).bind fun _ => .refl _
    · exact .refl _

/-- A call that comes to a result comes to the same one with greater bounds. -/
theorem Program.call_of_le {rounds rounds' : Nat} {name : String} {args : List Int64} {host host' : σ}
    {res : Except MachineError Int64} (h : p.call symbols rounds m name args host = Eval.result res host')
    (hrounds : rounds ≤ rounds') (hmn : m ≤ n) : p.call symbols rounds' n name args host = Eval.result res host' := by
  rcases @Program.call_below _ symbols m n _ p _ _ hrounds hmn name args host with ⟨_, hun⟩ | heq
  · rw [h] at hun
    cases res <;> cases hun
  · exact heq.trans h

/-- **An evaluation comes to one result.** -/
theorem Program.Evaluates.unique {name : String} {args : List Int64} {host host₁ host₂ : σ}
    {res res' : Except MachineError Int64} (h : p.Evaluates symbols name args host res host₁)
    (h' : p.Evaluates symbols name args host res' host₂) : res = res' ∧ host₁ = host₂ := by
  obtain ⟨rounds, m, h⟩ := h
  obtain ⟨rounds', n, h'⟩ := h'
  have hsame := (Program.call_of_le h (Nat.le_max_left rounds rounds') (Nat.le_max_left m n)).symm.trans
    (Program.call_of_le h' (Nat.le_max_right rounds rounds') (Nat.le_max_right m n))
  cases res <;> cases res' <;> cases hsame <;> exact ⟨rfl, rfl⟩

end Below

end MicroC
