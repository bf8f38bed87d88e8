import MicroC.Proofs.Ast.Measure
import MicroC.Proofs.Emission.Values

/-!
# What the code of statements does

The code of a statement ends as its evaluation ends: behind itself, with the variables that are in scope there,
or at the exit of its routine with the value that is returned. That of a function returns its value.

* `Ends`: how the code of a statement ends.
* `meets_scope`, `meets_repeat`: blocks and loops.
* **`StmtCode.meets`**: statements.
* **`RoutineCode.meets`**: functions.
-/

namespace MicroC

open Convention

section Places

variable {σ : Type} [Host σ] {prog : List Subroutine} {r : Subroutine} {cs : List Caller} {p q : Spot} {s : State}
  {host : σ} {k k' : List Item} {most fuel : Nat}

/-- How the code of a statement ends. -/
def Ends (r : Subroutine) (cs : List Caller) (q : Spot) (k : List Item) : Completion → State → Prop
  | .falls env, t => ∃ pad : List (Option Int64), pad.length = q.padded.toNat ∧ t.At r cs k (pad ++ env.words) ∧
      env.slots = q.slots
  | .returns v, t => t.routine = r ∧ t.callers = cs ∧ t.rest = [] ∧ t.regs .rax = v

theorem Ends.proceed {res : EStateM.Result Stop σ Completion} (h : Meets prog most fuel (Ends r cs p k') s host res)
    (hk : ∀ t ws (host' : σ), t.At r cs k' ws → Reaches prog most t host' fun u => u.At r cs k ws) :
    Meets prog most fuel (Ends r cs p k) s host res := by
  refine h.reaches fun v t host' ht => ?_
  cases v with
  | returns v => exact .here ht
  | falls env =>
    obtain ⟨pad, hpad, ht, henv⟩ := ht
    exact (hk t _ host' ht).trans fun u hu => .here ⟨pad, hpad, hu, henv⟩

theorem reaches_behind {l : String} {ks : List Kind} {ws : List (Option Int64)} (hs : s.At r cs (.label l ks :: k) ws) :
    Reaches prog most s host fun t => t.At r cs k ws :=
  reaches_label hs.rest (.here ⟨hs.routine, hs.callers, rfl, hs.words⟩)

theorem Ends.pass_label {res : EStateM.Result Stop σ Completion} {l : String} {ks : List Kind}
    (h : Meets prog most fuel (Ends r cs p (.label l ks :: k)) s host res) :
    Meets prog most fuel (Ends r cs p k) s host res :=
  Ends.proceed h fun _ _ _ ht => reaches_behind ht

theorem Ends.jump {res : EStateM.Result Stop σ Completion} {l : String} (hl : behind l r.body = some k)
    (h : Meets prog most fuel (Ends r cs p (.op (.jump .always l) :: k')) s host res) :
    Meets prog most fuel (Ends r cs p k) s host res := by
  refine Ends.proceed h fun t ws _ ht => ?_
  have hbehind : behind l t.routine.body = some k := by rw [ht.routine, hl]
  exact reaches_jump ht.rest rfl hbehind (.here ⟨ht.routine, ht.callers, rfl, ht.words⟩)

theorem reaches_alignItems {ws : List (Option Int64)} (hq : q.padded = false) (hs : s.At r cs (q.alignItems ++ k) ws) :
    Reaches prog most s host fun t => ∃ pad : List (Option Int64), pad.length = q.align.padded.toNat ∧
      t.At r cs k (pad ++ ws) := by
  unfold Spot.alignItems at hs
  unfold Spot.align
  split at hs
  · next h =>
    rw [if_pos h]
    exact .here ⟨[], by rw [hq]; rfl, hs⟩
  · next h =>
    rw [if_neg h]
    refine (reaches_growItems (n := 1) hs).trans fun t ⟨ht, _⟩ => .here ⟨[none], rfl, ht⟩

theorem reaches_release {pad : List (Option Int64)} {env env' : Env} (hgrows : p.Grows q) (hp : p.Filled)
    (hq : q.Filled) (hpad : pad.length = q.padded.toNat) (henv : env.slots = p.slots) (henv' : env'.slots = q.slots)
    (hs : s.At r cs (p.release q ++ k) (pad ++ env'.words)) :
    Reaches prog most s host (Ends r cs p k (.falls (env.leave env'))) := by
  obtain ⟨ds, hslots⟩ := hgrows.slots
  have hlen := hgrows.length_le hp hq
  have hpwords : p.words.length = p.slots.length + p.padded.toNat := hp
  have hqwords : q.words.length = q.slots.length + q.padded.toNat := hq
  have houter : env.length = p.slots.length := by rw [← henv, Env.length_slots]
  have hinner : env'.length = q.slots.length := by rw [← henv', Env.length_slots]
  have hle : p.slots.length ≤ q.slots.length := by
    rw [hslots, List.length_append]
    exact Nat.le_add_left _ _
  have htotal : (pad ++ env'.words).length = q.words.length := by
    rw [List.length_append, Env.length_words, hpad, hinner, hqwords, Nat.add_comm]
  refine (reaches_shrinkItems hs (by rw [htotal]; exact Nat.sub_le _ _)).trans fun t ⟨ht, _⟩ => .here ?_
  have hdrop : (pad ++ env'.words).drop (q.words.length - p.words.length + p.padded.toNat) =
      (env.leave env').words := by
    have hsplit : q.words.length - p.words.length + p.padded.toNat = pad.length + (env'.length - env.length) := by
      omega
    rw [hsplit, ← List.drop_drop, List.drop_left, Env.words, Env.leave, Env.words, List.map_drop]
  refine ⟨((pad ++ env'.words).drop (q.words.length - p.words.length)).take p.padded.toNat, ?_, ?_, ?_⟩
  · rw [List.length_take, List.length_drop, htotal]
    omega
  · rw [← hdrop, ← List.drop_drop, List.take_append_drop]
    exact ht
  · rw [Env.leave, Env.slots, List.map_drop]
    show env'.slots.drop _ = _
    rw [henv', hslots, houter, hinner, hslots, List.length_append, Nat.add_sub_cancel, List.drop_left]

theorem meets_scope {env : Env} {x : Env → Eval σ Completion} (hgrows : p.Grows q) (hp : p.Filled) (hq : q.Filled)
    (henv : env.slots = p.slots) (h : Meets prog most fuel (Ends r cs q (p.release q ++ k)) s host (x env host)) :
    Meets prog most fuel (Ends r cs p k) s host (Eval.scope x env host) := by
  refine h.bind fun v t host' ht => ?_
  cases v with
  | returns v => exact .pure ht
  | falls env' =>
    obtain ⟨pad, hpad, ht, henv'⟩ := ht
    exact (reaches_release hgrows hp hq hpad henv henv' ht).meets fun u hu => .pure hu

theorem meets_branch {env : Env} {x : Env → Eval σ Completion} {l : String} {ks : List Kind}
    {ws : List (Option Int64)} (hgrows : p.Grows q) (hp : p.Filled) (hq : q.Filled) (henv : env.slots = p.slots)
    (hs : s.At r cs (.label l ks :: k') ws)
    (h : ∀ t, t.At r cs k' ws → Meets prog most fuel (Ends r cs q (p.release q ++ k)) t host (x env host)) :
    Meets prog most fuel (Ends r cs p k) s host (Eval.scope x env host) :=
  (reaches_behind hs).meets fun t ht => meets_scope hgrows hp hq henv (h t ht)

end Places

/-! ## Statements -/

section Statements

variable {σ : Type} [Host σ] {prog : List Subroutine} {r : Subroutine} {cs : List Caller} {c : Meaning}
  {most fuel rounds : Nat} {call : String → List Int64 → Eval σ Int64}

theorem Spot.Filled.length_words {p : Spot} (hp : p.Filled) {pad : List (Option Int64)} {env : Env}
    (hpad : pad.length = p.padded.toNat) (henv : env.slots = p.slots) : p.words.length = pad.length + env.length := by
  rw [show p.words.length = p.slots.length + p.padded.toNat from hp, ← henv, Env.length_slots, hpad, Nat.add_comm]

theorem ExprCode.meets_condition (hcall : CallsMeet prog c cs most fuel call) (hcs : cs.length ≤ most)
    (hn : ((labels r.body).map Prod.fst).Nodup) {p : Spot} {n n' : Nat} {e : Expr} {is : List Item}
    (h : ExprCode c p.slots p.words n .temp e is n') (hp : p.Filled) {s : State} {host : σ} {k k' : List Item}
    {target : String} {pad : List (Option Int64)} {env : Env}
    (hs : s.At r cs (is ++ (branchItems target ++ k)) (pad ++ env.words)) (hpad : pad.length = p.padded.toNat)
    (henv : env.slots = p.slots) (hsuffix : is ++ (branchItems target ++ k) <:+ r.body)
    (hl : behind target r.body = some k') :
    Meets prog most fuel (fun x t => t.At r cs (if x.1 = 1 then k else k') (pad ++ x.2.words) ∧ x.2.slots = p.slots)
      s host (e.eval c.symbols call env host) := by
  refine (h.meets hcall hcs hn hs henv (hp.length_words hpad henv) hsuffix).reaches fun x t host' ⟨ht, henv'⟩ => ?_
  exact (reaches_branchItems hl ht).trans fun u hu => .here ⟨hu, henv'⟩

/-- The rounds of a loop. Each of them ends with a jump back to the condition. -/
theorem meets_repeat {p : Spot} {s : State} {host : σ} {k kcond kbody kback : List Item} {env : Env}
    {condition : Env → Eval σ (Int64 × Env)} {body : Env → Eval σ Completion} {pad : List (Option Int64)} {l : String}
    (hl : behind l r.body = some kcond)
    (hcondition : ∀ {s host pad env}, s.At r cs kcond (pad ++ env.words) → pad.length = p.padded.toNat →
      env.slots = p.slots → Meets prog most fuel (fun (x : Int64 × Env) t => t.At r cs (if x.1 = 1 then kbody else k)
        (pad ++ x.2.words) ∧ x.2.slots = p.slots) s host (condition env host))
    (hbody : ∀ {s host pad env}, s.At r cs kbody (pad ++ env.words) → pad.length = p.padded.toNat →
      env.slots = p.slots → Meets prog most fuel (Ends r cs p (.op (.jump .always l) :: kback)) s host (body env host))
    {m n : Nat} (hm : m ≤ fuel) (hmn : m ≤ n) (hs : s.At r cs kcond (pad ++ env.words))
    (hpad : pad.length = p.padded.toNat) (henv : env.slots = p.slots) :
    Meets prog most m (Ends r cs p k) s host (Eval.repeat condition body n env host) := by
  induction n generalizing m s host pad env with
  | zero => exact .unfinished hmn (.refl s host)
  | succ n ih =>
    refine ((hcondition hs hpad henv).mono hm fun _ _ h => h).bind fun (v, env₁) t host₁ ⟨ht, henv₁⟩ => ?_
    dsimp only at ht ⊢
    by_cases hv : v = 1
    · rw [if_pos hv] at ht ⊢
      refine ((hbody ht hpad henv₁).mono hm fun _ _ h => h).bind fun x u host₂ hu => ?_
      cases x with
      | returns v => exact .pure hu
      | falls env₂ =>
        -- The jump back is one step more for one round more.
        obtain ⟨pad₂, hpad₂, hu, henv₂⟩ := hu
        have hnext : u.Surely prog host₂ (.goes { u with rest := kcond } host₂) := by
          intro junk
          rw [State.next, hu.rest]
          dsimp only [Op.run, Jump.taken?]
          rw [hu.routine, hl]
          rfl
        have hcost : u.cost prog = 1 := by rw [State.cost, hu.rest]
        have hround := Meets.lead (.one hnext) (ih (m := m - 1) (by omega) (by omega)
          ⟨hu.routine, hu.callers, rfl, hu.words⟩ hpad₂ henv₂)
        rw [hcost] at hround
        exact hround.mono (by omega) fun _ _ h => h
    · rw [if_neg hv] at ht ⊢
      exact .pure ⟨pad, hpad, ht, henv₁⟩

mutual

/-- **The code of a statement ends as its evaluation ends.** -/
theorem StmtCode.meets (hcall : CallsMeet prog c cs most fuel call) (hcs : cs.length ≤ most) (hrounds : fuel ≤ rounds)
    (hn : ((labels r.body).map Prod.fst).Nodup) {p q : Spot}
    {n n' : Nat} {x : Stmt} {is : List Item} (h : StmtCode c p n x is q n') (hp : p.Filled)
    (hinit : x.initialised = true) (hvalued : x.valued = true) {s : State} {host : σ} {k : List Item}
    {pad : List (Option Int64)} {env : Env} (hs : s.At r cs (is ++ k) (pad ++ env.words))
    (hpad : pad.length = p.padded.toNat) (henv : env.slots = p.slots) (hsuffix : is ++ k <:+ r.body) :
    Meets prog most fuel (Ends r cs q k) s host (x.eval c.symbols call rounds env host) := by
  match h with
  | .empty =>
    rw [Stmt.eval]
    exact .pure ⟨pad, hpad, hs, henv⟩
  | .expr he =>
    rw [List.append_assoc] at hs hsuffix
    rw [Stmt.eval]
    refine (he.meets hcall hcs hn hs henv (hp.length_words hpad henv) hsuffix).bind
      fun (v, env₁) t host₁ ⟨ht, henv₁⟩ => ?_
    refine Reaches.meets ?_ fun u hu => .pure (T := Ends r cs p k) ⟨pad, hpad, hu, henv₁⟩
    exact reaches_pop ht.rest ht.words (.here ⟨ht.routine, ht.callers, rfl, rfl⟩)
  | .leave => cases hvalued
  | .ret he =>
    rw [List.append_assoc] at hs hsuffix
    rw [Stmt.eval]
    refine (he.meets hcall hcs hn hs henv (hp.length_words hpad henv) hsuffix).bind
      fun (v, env₁) t host₁ ⟨ht, henv₁⟩ => ?_
    refine Reaches.meets (S := Ends r cs p k (.returns v)) ?_ fun u hu => .pure hu
    refine reaches_pop ht.rest ht.words (.op rfl (fun _ => rfl) (.here ?_))
    exact ⟨ht.routine, ht.callers, rfl, rfl⟩
  | @StmtCode.ifThen _ _ q n n₁ n' st e t is js he ht =>
    simp only [List.append_assoc, List.cons_append, List.nil_append] at hs hsuffix
    obtain ⟨hq, hgrows, -⟩ := ht.walk hp .none .none fun _ hx => hx
    have hthen := (List.suffix_cons _ _).trans ((List.suffix_append _ _).trans ((List.suffix_append _ _).trans hsuffix))
    have hend := behind_of_suffix hn ((List.suffix_append _ _).trans ((List.suffix_append _ _).trans hthen))
    rw [Stmt.eval]
    refine (he.meets_condition hcall hcs hn hp hs hpad henv hsuffix hend).bind fun (v, env₁) u host₁ ⟨hu, henv₁⟩ => ?_
    dsimp only at hu ⊢
    by_cases hv : v = 1
    · rw [if_pos hv] at hu ⊢
      exact Ends.pass_label (meets_branch hgrows hp hq henv₁ hu fun y hy =>
        ht.meets hcall hcs hrounds hn hp hinit hvalued hy hpad henv₁ hthen)
    · rw [if_neg hv] at hu ⊢
      exact .pure ⟨pad, hpad, hu, henv₁⟩
  | @StmtCode.ifElse _ _ q q' n n₁ n₂ n' st e t u is js ks he ht hu =>
    simp only [List.append_assoc, List.cons_append, List.nil_append] at hs hsuffix
    obtain ⟨hinit, hinit'⟩ := Bool.and_eq_true_iff.1 hinit
    obtain ⟨hvalued, hvalued'⟩ := Bool.and_eq_true_iff.1 hvalued
    obtain ⟨hq, hgrows, -⟩ := ht.walk hp .none .none fun _ hx => hx
    obtain ⟨hq', hgrows', -⟩ := hu.walk hp .none .none fun _ hx => hx
    have hthen := (List.suffix_cons _ _).trans ((List.suffix_append _ _).trans ((List.suffix_append _ _).trans hsuffix))
    have hlabel := (List.suffix_cons _ _).trans ((List.suffix_append _ _).trans ((List.suffix_append _ _).trans hthen))
    have helse := (List.suffix_cons _ _).trans hlabel
    have hend := behind_of_suffix hn ((List.suffix_append _ _).trans ((List.suffix_append _ _).trans helse))
    rw [Stmt.eval]
    refine (he.meets_condition hcall hcs hn hp hs hpad henv hsuffix (behind_of_suffix hn hlabel)).bind
      fun (v, env₁) y host₁ ⟨hy, henv₁⟩ => ?_
    dsimp only at hy ⊢
    by_cases hv : v = 1
    · rw [if_pos hv] at hy ⊢
      exact Ends.jump hend (meets_branch hgrows hp hq henv₁ hy fun z hz =>
        ht.meets hcall hcs hrounds hn hp hinit hvalued hz hpad henv₁ hthen)
    · rw [if_neg hv] at hy ⊢
      exact Ends.pass_label (meets_scope hgrows' hp hq' henv₁
        (hu.meets hcall hcs hrounds hn hp hinit' hvalued' hy hpad henv₁ helse))
  | @StmtCode.loop _ _ q n n₁ n' st e b is js he hb =>
    simp only [List.append_assoc, List.cons_append, List.nil_append] at hs hsuffix
    obtain ⟨hq, hgrows, -⟩ := hb.walk hp .none .none fun _ hx => hx
    have hcond := (List.suffix_cons _ _).trans hsuffix
    have hbody := (List.suffix_cons _ _).trans ((List.suffix_append _ _).trans ((List.suffix_append _ _).trans hcond))
    have hend := behind_of_suffix hn ((List.suffix_cons _ _).trans ((List.suffix_append _ _).trans
      ((List.suffix_append _ _).trans hbody)))
    rw [Stmt.eval]
    refine (reaches_behind hs).meets fun t ht => ?_
    exact meets_repeat (behind_of_suffix hn hsuffix)
      (fun hs hpad henv => he.meets_condition hcall hcs hn hp hs hpad henv hcond hend)
      (fun hs hpad henv => meets_branch hgrows hp hq henv hs fun y hy =>
        hb.meets hcall hcs hrounds hn hp hinit hvalued hy hpad henv hbody) (Nat.le_refl _) hrounds ht hpad henv
  | @StmtCode.init _ _ q n n' b e is he hq =>
    rw [List.append_assoc, List.append_assoc] at hs hsuffix
    have hcode := (List.suffix_append _ _).trans hsuffix
    rw [Stmt.eval]
    have hbase : p.base.length = ([] : List (Option Int64)).length + env.length := by
      rw [hp.length_base, ← henv, Env.length_slots, List.length_nil, Nat.zero_add]
    refine (reaches_shrinkItems hs (by rw [List.length_append, hpad]; exact Nat.le_add_right _ _)).meets
      fun t ⟨ht, _⟩ => ?_
    rw [← hpad, List.drop_left] at ht
    have hroot : t.At r cs (is ++ (q.alignItems ++ k)) ([] ++ env.words) := ht
    refine (he.meets hcall hcs hn hroot henv hbase hcode).bind fun (v, env₁) u host₁ ⟨hu, henv₁⟩ => ?_
    refine (reaches_alignItems (by rw [hq]; rfl) hu).meets fun y ⟨pad', hpad', hy⟩ => ?_
    refine .pure ⟨pad', hpad', hy, ?_⟩
    rw [Spot.slots_align, hq]
    exact congrArg _ henv₁
  | .bare _ => cases hinit
  | @StmtCode.block _ _ q n n' st body is hbody =>
    rw [List.append_assoc] at hs hsuffix
    obtain ⟨hq, hgrows, -⟩ := hbody.walk hp .none .none fun _ hx => hx
    rw [Stmt.eval]
    exact meets_scope hgrows hp hq henv (hbody.meets hcall hcs hrounds hn hp hinit hvalued hs hpad henv hsuffix)

theorem StmtsCode.meets (hcall : CallsMeet prog c cs most fuel call) (hcs : cs.length ≤ most) (hrounds : fuel ≤ rounds)
    (hn : ((labels r.body).map Prod.fst).Nodup) {p q : Spot}
    {n n' : Nat} {xs : List Stmt} {is : List Item} (h : StmtsCode c p n xs is q n') (hp : p.Filled)
    (hinit : Stmt.initialisedAll xs = true) (hvalued : Stmt.valuedAll xs = true) {s : State} {host : σ} {k : List Item}
    {pad : List (Option Int64)} {env : Env} (hs : s.At r cs (is ++ k) (pad ++ env.words))
    (hpad : pad.length = p.padded.toNat) (henv : env.slots = p.slots) (hsuffix : is ++ k <:+ r.body) :
    Meets prog most fuel (Ends r cs q k) s host (Stmt.evalAll c.symbols call rounds xs env host) := by
  match h with
  | .nil =>
    rw [Stmt.evalAll]
    exact .pure ⟨pad, hpad, hs, henv⟩
  | .cons hx hxs =>
    rw [List.append_assoc] at hs hsuffix
    obtain ⟨hinit, hinit'⟩ := Bool.and_eq_true_iff.1 hinit
    obtain ⟨hvalued, hvalued'⟩ := Bool.and_eq_true_iff.1 hvalued
    obtain ⟨hq, -, -⟩ := hx.walk hp .none .none fun _ hx => hx
    rw [Stmt.evalAll]
    refine (hx.meets hcall hcs hrounds hn hp hinit hvalued hs hpad henv hsuffix).bind fun v t host' ht => ?_
    cases v with
    | returns v => exact .pure ht
    | falls env₁ =>
      obtain ⟨pad₁, hpad₁, ht, henv₁⟩ := ht
      exact hxs.meets hcall hcs hrounds hn hq hinit' hvalued' ht hpad₁ henv₁ ((List.suffix_append _ _).trans hsuffix)

end

end Statements

/-! ## Functions -/

section Functions

variable {σ : Type} [Host σ] {prog : List Subroutine} {r : Subroutine} {cs : List Caller} {c : Meaning}
  {most fuel rounds : Nat} {call : String → List Int64 → Eval σ Int64} {a : Caller} {args : List Int64}

/-- The arguments are where a routine finds them: the first ones in registers and the others on the stack. -/
def Caller.Provides (a : Caller) (args : List Int64) : Prop :=
  (topValues (stackArguments args.length) a.words).map ((Reg.arguments.take args.length).map a.regs ++ ·) = some args

/-- A routine reads an argument. -/
theorem Caller.Provides.read (h : a.Provides args) {s : State} (hcallers : s.callers = a :: cs)
    (harity : s.routine.arity = args.length) (hregs : s.regs = a.regs) {i : Nat} {v : Int64} (hi : args[i]? = some v)
    (junk : Junk) : (paramSrc i).read junk s = some (.ok v) := by
  have hlt : i < args.length := (List.getElem?_eq_some_iff.1 hi).1
  obtain ⟨vs, hvs, hargs⟩ := Option.map_eq_some_iff.1 h
  have hsix : Reg.arguments.length = 6 := rfl
  unfold paramSrc
  by_cases hreg : i < 6
  · obtain ⟨q, hq⟩ : ∃ q, Reg.arguments[i]? = some q := ⟨_, List.getElem?_eq_getElem (hsix ▸ hreg)⟩
    rw [hq]
    have htake : (Reg.arguments.take args.length)[i]? = some q := by rw [List.getElem?_take_of_lt hlt, hq]
    rw [← hargs, List.getElem?_append_left, List.getElem?_map, htake] at hi
    · rw [Src.read, hregs, ← Option.some.inj hi]
    · rw [List.length_map]
      exact (List.getElem?_eq_some_iff.1 htake).1
  · rw [List.getElem?_eq_none (by rw [hsix]; exact Nat.le_of_not_lt hreg)]
    dsimp only
    have hregisters : ((Reg.arguments.take args.length).map a.regs).length = 6 := by
      rw [List.length_map, List.length_take, hsix]
      omega
    rw [← hargs, List.getElem?_append_right (by omega), hregisters] at hi
    have hword := (topValues_spec hvs).2 _ _ hi
    rw [Src.read, hcallers]
    dsimp only
    rw [if_pos (by rw [harity, hsix, show argumentRegisters.length = 6 from rfl]; omega), hsix, hword]
    rfl

theorem reaches_spillItems (h : a.Provides args) (hcs : (a :: cs).length ≤ most) {s : State} {host : σ}
    {k : List Item} {i m : Nat}
    (harity : r.arity = args.length) (hregs : s.regs = a.regs) (hm : i + m = args.length)
    (hs : s.At r (a :: cs) (spillItems i m ++ k) ((args.take i).reverse.map some)) :
    Reaches prog most s host fun t => t.At r (a :: cs) k (args.reverse.map some) := by
  induction m generalizing i s with
  | zero =>
    rw [Nat.add_zero] at hm
    rw [hm, List.take_length] at hs
    exact .here hs
  | succ m ih =>
    have hlt : i < args.length := by omega
    have hm' : i + 1 + m = args.length := by omega
    obtain ⟨v, hv⟩ : ∃ v, args[i]? = some v := ⟨_, List.getElem?_eq_getElem hlt⟩
    refine reaches_push hs.callers hcs hs.rest (h.read hs.callers (hs.routine ▸ harity) hregs hv) (ih hregs hm' ?_)
    refine ⟨hs.routine, hs.callers, rfl, ?_⟩
    show some v :: s.words = _
    rw [hs.words, List.take_add_one, hv, List.reverse_append]
    rfl

theorem Func.words_bind (f : Func) (hlen : args.length = f.params.length) :
    (f.bind args).words = args.reverse.map some := by
  have hvalues : ((f.params.map (·.site.id)).zip args).map Prod.snd = args :=
    List.map_snd_zip (Nat.le_of_eq (by rw [List.length_map, hlen]))
  rw [Func.bind, Env.words, List.map_reverse, List.map_reverse]
  show (List.map (some ∘ Prod.snd) _).reverse = _
  rw [← List.map_map, hvalues]

theorem Func.slots_bind (f : Func) (hlen : args.length = f.params.length) : (f.bind args).slots = f.place.slots := by
  have hnames : ((f.params.map (·.site.id)).zip args).map Prod.fst = f.params.map (·.site.id) :=
    List.map_fst_zip (Nat.le_of_eq (by rw [List.length_map, hlen]))
  rw [Func.bind, Env.slots, List.map_reverse, hnames]
  rfl

/-- **The code of a function returns its value.** -/
theorem RoutineCode.meets (hcall : CallsMeet prog c (a :: cs) most fuel call) (hcs : (a :: cs).length ≤ most)
    (hrounds : fuel ≤ rounds) (hn : ((labels r.body).map Prod.fst).Nodup) {f : Func} {n n' : Nat}
    (h : RoutineCode c n f r n') (hinit : Stmt.initialisedAll f.body = true) (hvalued : Stmt.valuedAll f.body = true)
    (hargs : a.Provides args) (hlen : args.length = f.params.length) (flags : Option (Int64 × Int64)) (host : σ) :
    Meets prog most fuel (fun v t => t.routine = r ∧ t.callers = a :: cs ∧ t.rest = [] ∧ t.regs .rax = v)
      (entryState r a cs flags) host (f.eval c.symbols call rounds args host) := by
  cases h with
  | @mk _ _ is q hbody =>
    have hfilled : f.place.align.Filled := Spot.filled_align f.filled_place rfl
    obtain ⟨hq, hgrows, -⟩ := hbody.walk hfilled .none .none fun _ hx => hx
    have hslots : (f.bind args).slots = f.place.align.slots := by rw [f.slots_bind hlen, Spot.slots_align]
    rw [Func.eval]
    refine Reaches.meets ((reaches_spillItems (i := 0) hargs hcs hlen.symm rfl (by rw [hlen, Nat.zero_add])
      ⟨rfl, rfl, rfl, rfl⟩).trans fun t ht => reaches_alignItems rfl ht) fun t ⟨pad, hpad, ht⟩ => ?_
    rw [← f.words_bind hlen] at ht
    refine (hbody.meets hcall hcs hrounds hn hfilled hinit hvalued ht hpad hslots ?_).bind fun v u host' hu => ?_
    · exact (List.suffix_append _ _).trans (List.suffix_append _ _)
    · cases v with
      | returns v => exact .pure hu
      | falls env =>
        obtain ⟨pad', hpad', hu, henv⟩ := hu
        refine (reaches_release hgrows hfilled hq hpad' hslots henv hu).meets fun y ⟨_, _, hy, _⟩ => ?_
        refine Reaches.meets (reaches_move hy.rest (fun _ => rfl) (.here ?_)) fun z hz => .pure hz
        exact ⟨hy.routine, hy.callers, rfl, rfl⟩

end Functions

end MicroC
