import MicroC.Proofs.Parser.ExprTrace

/-!
# Statements as they are parsed

* `YieldsSimple`: statements that may also start a `for` loop.
* `YieldsStmt`, `YieldsBlock`, `YieldsStmts`: the relations of the parsing functions.
* **`statement_eq_ok`**: a statement is parsed exactly when `YieldsStmt` says so.
-/

namespace MicroC.Parser

/-- The tokens with which only one kind of statement starts. -/
def leadsStmt (k : TokenKind) : Bool :=
  k == .ifKw || k == .whileKw || k == .forKw || k == .returnKw || k == .leftBrace

/-- A statement that may also stand first in a `for` loop. -/
inductive YieldsSimple : Parser → Stmt → Parser → Prop
  | empty {s : Parser} (h : s.check .semicolon = true) :
      YieldsSimple s (.empty (s.advance.fresh s.peek.span).1) (s.advance.fresh s.peek.span).2
  | expr {s t : Parser} {e : Expr} (h : s.check .semicolon = false)
      (hd : s.startsDeclaration = false) (he : Yields .assignment s e t)
      (hs : t.check .semicolon = true) :
      YieldsSimple s (.expr (t.advance.fresh (e.span.merge t.peek.span)).1 e)
        (t.advance.fresh (e.span.merge t.peek.span)).2
  | decl {s : Parser} (hd : s.startsDeclaration = true)
      (hs : s.advance.advance.check .semicolon = true) :
      YieldsSimple s
        (.decl ⟨(s.advance.advance.advance.fresh
            (s.peek.span.merge s.advance.advance.peek.span)).1,
          ⟨s.peek.lexeme, s.peek.span⟩, ⟨s.advance.peek.lexeme, s.advance.peek.span⟩⟩ none)
        (s.advance.advance.advance.fresh (s.peek.span.merge s.advance.advance.peek.span)).2
  | init {s t : Parser} {e : Expr} (hd : s.startsDeclaration = true)
      (hq : s.advance.advance.check .equals = true)
      (he : Yields .assignment s.advance.advance.advance e t) (hs : t.check .semicolon = true) :
      YieldsSimple s
        (.decl ⟨(t.advance.fresh (s.peek.span.merge t.peek.span)).1,
          ⟨s.peek.lexeme, s.peek.span⟩, ⟨s.advance.peek.lexeme, s.advance.peek.span⟩⟩ (some e))
        (t.advance.fresh (s.peek.span.merge t.peek.span)).2
  | array {s a t : Parser} {v : Int64} (hd : s.startsDeclaration = true)
      (hb : s.advance.advance.check .leftBracket = true) (ha : a = s.advance.advance.advance)
      (hi : a.check .intLiteral = true) (hv : word? a.peek.lexeme = some v)
      (ht : t = (a.advance.fresh a.peek.span).2) (hc : t.check .rightBracket = true)
      (hs : t.advance.check .semicolon = true) :
      YieldsSimple s
        (.array ⟨(t.advance.advance.fresh (s.peek.span.merge t.advance.peek.span)).1,
            ⟨s.peek.lexeme, s.peek.span⟩, ⟨s.advance.peek.lexeme, s.advance.peek.span⟩⟩
          ⟨(a.advance.fresh a.peek.span).1, v⟩)
        (t.advance.advance.fresh (s.peek.span.merge t.advance.peek.span)).2

mutual

/-- From `s` a statement is read, which ends in state `t`. -/
inductive YieldsStmt : Parser → Stmt → Parser → Prop
  | simple {s t : Parser} {x : Stmt} (hk : leadsStmt s.peek.kind = false)
      (h : YieldsSimple s x t) : YieldsStmt s x t
  | ret {s : Parser} (h : s.check .returnKw = true) (hs : s.advance.check .semicolon = true) :
      YieldsStmt s
        (.ret (s.advance.advance.fresh (s.peek.span.merge s.advance.peek.span)).1 none)
        (s.advance.advance.fresh (s.peek.span.merge s.advance.peek.span)).2
  | retValue {s t : Parser} {e : Expr} (h : s.check .returnKw = true)
      (hn : s.advance.check .semicolon = false) (he : Yields .assignment s.advance e t)
      (hs : t.check .semicolon = true) :
      YieldsStmt s (.ret (t.advance.fresh (s.peek.span.merge t.peek.span)).1 (some e))
        (t.advance.fresh (s.peek.span.merge t.peek.span)).2
  | ifThen {s t u : Parser} {c : Expr} {x : Stmt} (h : s.check .ifKw = true)
      (ho : s.advance.check .leftParen = true) (hc : Yields .assignment s.advance.advance c t)
      (hp : t.check .rightParen = true) (hx : YieldsStmt t.advance x u)
      (hn : u.check .elseKw = false) :
      YieldsStmt s (.ite (u.fresh (s.peek.span.merge x.span)).1 c x none)
        (u.fresh (s.peek.span.merge x.span)).2
  | ifElse {s t u v : Parser} {c : Expr} {x y : Stmt} (h : s.check .ifKw = true)
      (ho : s.advance.check .leftParen = true) (hc : Yields .assignment s.advance.advance c t)
      (hp : t.check .rightParen = true) (hx : YieldsStmt t.advance x u)
      (he : u.check .elseKw = true) (hy : YieldsStmt u.advance y v) :
      YieldsStmt s (.ite (v.fresh (s.peek.span.merge y.span)).1 c x (some y))
        (v.fresh (s.peek.span.merge y.span)).2
  | loop {s t u : Parser} {c : Expr} {x : Stmt} (h : s.check .whileKw = true)
      (ho : s.advance.check .leftParen = true) (hc : Yields .assignment s.advance.advance c t)
      (hp : t.check .rightParen = true) (hx : YieldsStmt t.advance x u) :
      YieldsStmt s (.loop (u.fresh (s.peek.span.merge x.span)).1 c x)
        (u.fresh (s.peek.span.merge x.span)).2
  | forLoop {s t u v w : Parser} {init body : Stmt} {c step : Expr} (h : s.check .forKw = true)
      (ho : s.advance.check .leftParen = true) (hi : YieldsSimple s.advance.advance init t)
      (hc : Yields .assignment t c u) (hs : u.check .semicolon = true)
      (hn : Yields .assignment u.advance step v) (hp : v.check .rightParen = true)
      (hb : YieldsStmt v.advance body w) :
      YieldsStmt s (w.unrolledFor init c step body (s.peek.span.merge body.span)).1
        (w.unrolledFor init c step body (s.peek.span.merge body.span)).2
  | block {s t : Parser} {site : Site} {body : List Stmt} (hb : YieldsBlock s (site, body) t) :
      YieldsStmt s (.block site body) t

/-- A block: its node and its statements. -/
inductive YieldsBlock : Parser → Site × List Stmt → Parser → Prop
  | mk {s t : Parser} {body : List Stmt} (h : s.check .leftBrace = true)
      (hb : YieldsStmts s.advance body t) (hc : t.check .rightBrace = true) :
      YieldsBlock s ((t.advance.fresh (s.peek.span.merge t.peek.span)).1, body)
        (t.advance.fresh (s.peek.span.merge t.peek.span)).2

/-- Statements up to a closing brace or the end. -/
inductive YieldsStmts : Parser → List Stmt → Parser → Prop
  | nil {s : Parser} (h : (s.check .rightBrace || s.isAtEnd) = true) : YieldsStmts s [] s
  | cons {s t u : Parser} {x : Stmt} {xs : List Stmt}
      (h : (s.check .rightBrace || s.isAtEnd) = false) (hx : YieldsStmt s x t)
      (hxs : YieldsStmts t xs u) : YieldsStmts s (x :: xs) u

end

theorem checks_of_startsDeclaration {s : Parser} (h : s.startsDeclaration = true) :
    s.check .identifier = true ∧ s.advance.check .identifier = true := by
  simp only [startsDeclaration, Bool.and_eq_true, beq_iff_eq] at h
  obtain ⟨hc, hk⟩ := h
  refine ⟨hc, ?_⟩
  cases hs : s.ahead with
  | nil => simp [check, peek, peekAt, hs, endToken] at hc
  | cons x xs =>
    have hx : x.kind ≠ .eof := by
      simp only [check, peek, peekAt, hs, List.getD_cons_zero, beq_iff_eq] at hc
      simp [hc]
    simp only [peekAt, hs, List.getD_cons_succ] at hk
    simpa [check, peek, peekAt, advance, hs, hx, endToken] using hk

theorem declaration_eq_ok {s t : Parser} {x : Stmt} :
    (declaration s).1 = (.ok x, t) ↔
      s.check .identifier = true ∧ s.advance.check .identifier = true ∧
        (declarationRest ⟨s.peek.lexeme, s.peek.span⟩ ⟨s.advance.peek.lexeme, s.advance.peek.span⟩
          s.advance.advance).1 = (.ok x, t) := by
  simp only [declaration, Progress.andThen_eq_ok, Reading.andThen_eq_ok, Progress.reading_val,
    Progress.ident_eq_ok]
  constructor
  · rintro ⟨_, _, _, ⟨h, rfl, rfl⟩, _, _, _, ⟨h', rfl, rfl⟩, hr⟩
    exact ⟨h, h', hr⟩
  · rintro ⟨h, h', hr⟩
    exact ⟨_, _, size_advance_lt_of_check h (by decide), ⟨h, rfl, rfl⟩, _, _, size_advance_le _,
      ⟨h', rfl, rfl⟩, hr⟩

theorem arrayLength_eq_ok {s t : Parser} {n : ArrayLength} :
    (arrayLength s).1 = (.ok n, t) ↔
      ∃ v, s.check .intLiteral = true ∧ word? s.peek.lexeme = some v ∧
        n = ⟨(s.advance.fresh s.peek.span).1, v⟩ ∧ t = (s.advance.fresh s.peek.span).2 := by
  rw [arrayLength, Reading.andThen_eq_ok]
  constructor
  · rintro ⟨_, u, hu, hi, h⟩
    obtain ⟨hi', rfl, rfl⟩ := Reading.expect_eq_ok.1 hi
    split at h
    · simp at h
    · next v hv =>
      cases h
      exact ⟨v, hi', hv, rfl, rfl⟩
  · rintro ⟨v, hi, hv, rfl, rfl⟩
    refine ⟨_, _, size_advance_le _, Reading.expect_eq_ok.2 ⟨hi, rfl, rfl⟩, ?_⟩
    rw [hv]
    rfl

theorem yieldsSimple_of_declaration {s t : Parser} {x : Stmt} (hd : s.startsDeclaration = true)
    (h : (declaration s).1 = (.ok x, t)) : YieldsSimple s x t := by
  obtain ⟨-, -, h⟩ := declaration_eq_ok.1 h
  rw [declarationRest] at h
  split at h
  · next hb =>
    rw [Reading.since_val] at h
    obtain ⟨n, u, hu, hn, h⟩ := Reading.andThen_eq_ok.1 h
    obtain ⟨_, v, hv, hc, h⟩ := Reading.andThen_eq_ok.1 h
    obtain ⟨_, w, hw, hs, h⟩ := Reading.andThen_eq_ok.1 h
    obtain ⟨hc', -, rfl⟩ := Reading.expect_eq_ok.1 hc
    obtain ⟨hs', rfl, rfl⟩ := Reading.expect_eq_ok.1 hs
    cases h
    obtain ⟨value, hi, hvalue, rfl, rfl⟩ := arrayLength_eq_ok.1 hn
    exact .array hd hb rfl hi hvalue rfl hc' hs'
  · obtain ⟨init, u, hu, hi, h⟩ := Reading.andThen_eq_ok.1 h
    obtain ⟨_, w, hw, hs, h⟩ := Reading.andThen_eq_ok.1 h
    obtain ⟨hs', rfl, rfl⟩ := Reading.expect_eq_ok.1 hs
    cases h
    rw [declarationRest.initializer] at hi
    split at hi
    · next hq =>
      rw [Reading.since_val, Progress.reading_val] at hi
      obtain ⟨e, he, rfl⟩ := Progress.map_eq_ok.1 hi
      exact .init hd hq (yields_of_expression _ he) hs'
    · cases hi
      exact .decl hd hs'

theorem forInit_of_yieldsSimple {s t : Parser} {x : Stmt} (h : YieldsSimple s x t) :
    (forInit s).1 = (.ok x, t) := by
  have hsemi : s.startsDeclaration = true → s.check .semicolon = false := fun hd => by
    have := (checks_of_startsDeclaration hd).1
    simp_all [check]
  cases h with
  | empty h =>
    rw [forInit, if_pos h, emptyStmt]
    exact Progress.andThen_eq_ok.2 ⟨_, _, size_advance_lt_of_check h (by decide),
      Progress.expect_eq_ok.2 ⟨h, rfl, rfl⟩, rfl⟩
  | expr h hd he hs =>
    have he' := expression_of_yields he
    rw [forInit, if_neg (by simp [h]), if_neg (by simp [hd]), exprStmt]
    refine Progress.andThen_eq_ok.2 ⟨_, _, Progress.size_lt_of_ok he', he', ?_⟩
    exact Reading.andThen_eq_ok.2
      ⟨_, _, size_advance_le _, Reading.expect_eq_ok.2 ⟨hs, rfl, rfl⟩, rfl⟩
  | decl hd hs =>
    obtain ⟨h₁, h₂⟩ := checks_of_startsDeclaration hd
    rw [forInit, if_neg (by simp [hsemi hd]), if_pos hd]
    refine declaration_eq_ok.2 ⟨h₁, h₂, ?_⟩
    have hb : s.advance.advance.check .leftBracket = false := by simp_all [check]
    have hq : s.advance.advance.check .equals = false := by simp_all [check]
    rw [declarationRest, if_neg (by simp [hb])]
    refine Reading.andThen_eq_ok.2 ⟨none, _, Nat.le_refl _, ?_, ?_⟩
    · rw [declarationRest.initializer, if_neg (by simp [hq])]
      rfl
    · exact Reading.andThen_eq_ok.2
        ⟨_, _, size_advance_le _, Reading.expect_eq_ok.2 ⟨hs, rfl, rfl⟩, rfl⟩
  | @init u e hd hq he hs =>
    obtain ⟨h₁, h₂⟩ := checks_of_startsDeclaration hd
    have he' := expression_of_yields he
    rw [forInit, if_neg (by simp [hsemi hd]), if_pos hd]
    refine declaration_eq_ok.2 ⟨h₁, h₂, ?_⟩
    have hb : s.advance.advance.check .leftBracket = false := by simp_all [check]
    rw [declarationRest, if_neg (by simp [hb])]
    refine Reading.andThen_eq_ok.2 ⟨some e, u, ?_, ?_, ?_⟩
    · exact Nat.le_of_lt (Nat.lt_of_lt_of_le (Progress.size_lt_of_ok he') (size_advance_le _))
    · rw [declarationRest.initializer, if_pos hq]
      exact Progress.map_eq_ok.2 ⟨_, he', rfl⟩
    · exact Reading.andThen_eq_ok.2
        ⟨_, _, size_advance_le _, Reading.expect_eq_ok.2 ⟨hs, rfl, rfl⟩, rfl⟩
  | array hd hb ha hi hv ht hc hs =>
    subst ha ht
    obtain ⟨h₁, h₂⟩ := checks_of_startsDeclaration hd
    rw [forInit, if_neg (by simp [hsemi hd]), if_pos hd]
    refine declaration_eq_ok.2 ⟨h₁, h₂, ?_⟩
    rw [declarationRest, if_pos hb, Reading.since_val]
    have hn := arrayLength_eq_ok.2 ⟨_, hi, hv, rfl, rfl⟩
    refine Reading.andThen_eq_ok.2 ⟨_, _, Reading.size_le_of_ok hn, hn, ?_⟩
    refine Reading.andThen_eq_ok.2
      ⟨_, _, size_advance_le _, Reading.expect_eq_ok.2 ⟨hc, rfl, rfl⟩, ?_⟩
    exact Reading.andThen_eq_ok.2
      ⟨_, _, size_advance_le _, Reading.expect_eq_ok.2 ⟨hs, rfl, rfl⟩, rfl⟩

theorem yieldsSimple_of_forInit {s t : Parser} {x : Stmt} (h : (forInit s).1 = (.ok x, t)) :
    YieldsSimple s x t := by
  rw [forInit] at h
  split at h
  · next hs =>
    rw [emptyStmt] at h
    obtain ⟨_, u, hu, hx, h⟩ := Progress.andThen_eq_ok.1 h
    obtain ⟨-, rfl, rfl⟩ := Progress.expect_eq_ok.1 hx
    cases h
    exact .empty hs
  · next hs =>
    split at h
    · next hd => exact yieldsSimple_of_declaration hd h
    · next hd =>
      rw [exprStmt] at h
      obtain ⟨e, u, hu, he, h⟩ := Progress.andThen_eq_ok.1 h
      obtain ⟨_, w, hw, hs', h⟩ := Reading.andThen_eq_ok.1 h
      obtain ⟨hs', rfl, rfl⟩ := Reading.expect_eq_ok.1 hs'
      cases h
      exact .expr (by simpa using hs) (by simpa using hd) (yields_of_expression _ he) ‹_›

theorem condition_eq_ok {s t : Parser} {c : Expr} :
    (condition s).1 = (.ok c, t) ↔
      ∃ u, s.check .leftParen = true ∧ Yields .assignment s.advance c u ∧
        u.check .rightParen = true ∧ t = u.advance := by
  rw [condition, Progress.andThen_eq_ok]
  constructor
  · rintro ⟨_, u, hu, ho, h⟩
    obtain ⟨ho', -, rfl⟩ := Progress.expect_eq_ok.1 ho
    obtain ⟨c', v, hv, hc, h⟩ := Reading.andThen_eq_ok.1 h
    obtain ⟨_, w, hw, hp, h⟩ := Reading.andThen_eq_ok.1 h
    obtain ⟨hp', -, rfl⟩ := Reading.expect_eq_ok.1 hp
    cases h
    exact ⟨v, ho', yields_of_expression _ hc, hp', rfl⟩
  · rintro ⟨u, ho, hc, hp, rfl⟩
    have hc' := expression_of_yields hc
    refine ⟨_, _, size_advance_lt_of_check ho (by decide), Progress.expect_eq_ok.2 ⟨ho, rfl, rfl⟩, ?_⟩
    refine Reading.andThen_eq_ok.2 ⟨_, _, Nat.le_of_lt (Progress.size_lt_of_ok hc'), hc', ?_⟩
    exact Reading.andThen_eq_ok.2
      ⟨_, _, size_advance_le _, Reading.expect_eq_ok.2 ⟨hp, rfl, rfl⟩, rfl⟩

/-- A statement that no keyword and no brace leads is one that may start a `for` loop. -/
theorem statement_of_not_leadsStmt {s : Parser} (h : leadsStmt s.peek.kind = false) :
    (statement s).1 = (forInit s).1 := by
  rw [statement, forInit]
  split <;> simp_all [leadsStmt, check]

mutual

theorem yieldsStmt_of_statement {s t : Parser} {x : Stmt} (h : (statement s).1 = (.ok x, t)) :
    YieldsStmt s x t := by
  by_cases hk : leadsStmt s.peek.kind = true
  · rw [statement] at h
    split at h
    · next hif =>
      obtain ⟨_, u, hu, hkw, h⟩ := Progress.andThen_eq_ok.1 h
      obtain ⟨hkw', rfl, rfl⟩ := Progress.expect_eq_ok.1 hkw
      obtain ⟨c, v, hv, hc, h⟩ := Reading.andThen_eq_ok.1 h
      obtain ⟨c', ho, hc', hp, rfl⟩ := condition_eq_ok.1 hc
      obtain ⟨y, w, hw, hy, h⟩ := Reading.andThen_eq_ok.1 h
      have hw' := w.size_advance_le
      split at h
      · next he =>
        rw [Reading.since_val] at h
        obtain ⟨z, r, hr, hz, h⟩ := Reading.andThen_eq_ok.1 h
        cases h
        exact .ifElse hkw' ho hc' hp (yieldsStmt_of_statement hy) he (yieldsStmt_of_statement hz)
      · next he =>
        cases h
        exact .ifThen hkw' ho hc' hp (yieldsStmt_of_statement hy) (by simpa using he)
    · next hwhile =>
      obtain ⟨_, u, hu, hkw, h⟩ := Progress.andThen_eq_ok.1 h
      obtain ⟨hkw', rfl, rfl⟩ := Progress.expect_eq_ok.1 hkw
      obtain ⟨c, v, hv, hc, h⟩ := Reading.andThen_eq_ok.1 h
      obtain ⟨c', ho, hc', hp, rfl⟩ := condition_eq_ok.1 hc
      obtain ⟨y, w, hw, hy, h⟩ := Reading.andThen_eq_ok.1 h
      cases h
      exact .loop hkw' ho hc' hp (yieldsStmt_of_statement hy)
    · next hfor =>
      obtain ⟨_, u, hu, hkw, h⟩ := Progress.andThen_eq_ok.1 h
      obtain ⟨hkw', rfl, rfl⟩ := Progress.expect_eq_ok.1 hkw
      obtain ⟨_, v, hv, ho, h⟩ := Reading.andThen_eq_ok.1 h
      obtain ⟨ho', -, rfl⟩ := Reading.expect_eq_ok.1 ho
      obtain ⟨init, v₁, hv₁, hi, h⟩ := Reading.andThen_eq_ok.1 h
      obtain ⟨c, v₂, hv₂, hc, h⟩ := Reading.andThen_eq_ok.1 h
      obtain ⟨_, v₃, hv₃, hs, h⟩ := Reading.andThen_eq_ok.1 h
      obtain ⟨hs', -, rfl⟩ := Reading.expect_eq_ok.1 hs
      obtain ⟨step, v₄, hv₄, hn, h⟩ := Reading.andThen_eq_ok.1 h
      obtain ⟨_, v₅, hv₅, hp, h⟩ := Reading.andThen_eq_ok.1 h
      obtain ⟨hp', -, rfl⟩ := Reading.expect_eq_ok.1 hp
      obtain ⟨body, v₆, hv₆, hb, h⟩ := Reading.andThen_eq_ok.1 h
      cases h
      exact .forLoop hkw' ho' (yieldsSimple_of_forInit hi) (yields_of_expression _ hc) hs'
        (yields_of_expression _ hn) hp' (yieldsStmt_of_statement hb)
    · next hret =>
      rw [returnStmt] at h
      obtain ⟨_, u, hu, hkw, h⟩ := Progress.andThen_eq_ok.1 h
      obtain ⟨hkw', rfl, rfl⟩ := Progress.expect_eq_ok.1 hkw
      obtain ⟨v, w, hw, hv, h⟩ := Reading.andThen_eq_ok.1 h
      obtain ⟨_, r, hr, hs, h⟩ := Reading.andThen_eq_ok.1 h
      obtain ⟨hs', rfl, rfl⟩ := Reading.expect_eq_ok.1 hs
      cases h
      rw [returnStmt.value] at hv
      split at hv
      · next hn =>
        cases hv
        exact .ret hkw' hn
      · next hn =>
        obtain ⟨e, he, rfl⟩ := Progress.map_eq_ok.1 hv
        exact .retValue hkw' (by simpa using hn) (yields_of_expression _ he) hs'
    · next hbrace =>
      obtain ⟨b, hb, rfl⟩ := Progress.map_eq_ok.1 h
      exact .block (yieldsBlock_of_block hb)
    · simp_all [leadsStmt]
    · simp_all [leadsStmt]
  · have hk' : leadsStmt s.peek.kind = false := by simpa using hk
    rw [statement_of_not_leadsStmt hk'] at h
    exact .simple hk' (yieldsSimple_of_forInit h)
termination_by (s.size, 1)
decreasing_by
  all_goals first
    | (apply Prod.Lex.left; omega)
    | (apply Prod.Lex.right; decide)

theorem yieldsBlock_of_block {s t : Parser} {b : Site × List Stmt}
    (h : (block s).1 = (.ok b, t)) : YieldsBlock s b t := by
  rw [block] at h
  obtain ⟨_, u, hu, ho, h⟩ := Progress.andThen_eq_ok.1 h
  obtain ⟨ho', rfl, rfl⟩ := Progress.expect_eq_ok.1 ho
  obtain ⟨body, v, hv, hb, h⟩ := Reading.andThen_eq_ok.1 h
  obtain ⟨_, w, hw, hc, h⟩ := Reading.andThen_eq_ok.1 h
  obtain ⟨hc', rfl, rfl⟩ := Reading.expect_eq_ok.1 hc
  cases h
  exact .mk ho' (yieldsStmts_of_statements hb) hc'
termination_by (s.size, 0)
decreasing_by apply Prod.Lex.left; omega

theorem yieldsStmts_of_statements {s t : Parser} {xs : List Stmt}
    (h : (statements s).1 = (.ok xs, t)) : YieldsStmts s xs t := by
  rw [statements] at h
  split at h
  · next hc =>
    cases h
    exact .nil hc
  · next hc =>
    obtain ⟨x, u, hu, hx, h⟩ := Progress.andThen_eq_ok.1 h
    obtain ⟨xs', v, hv, hxs, h⟩ := Reading.andThen_eq_ok.1 h
    cases h
    exact .cons (by simpa using hc) (yieldsStmt_of_statement hx) (yieldsStmts_of_statements hxs)
termination_by (s.size, 2)
decreasing_by
  all_goals first
    | (apply Prod.Lex.left; omega)
    | (apply Prod.Lex.right; decide)

end

mutual

theorem statement_of_yieldsStmt {s t : Parser} {x : Stmt} (h : YieldsStmt s x t) :
    (statement s).1 = (.ok x, t) := by
  match h with
  | .simple hk h =>
    rw [statement_of_not_leadsStmt hk]
    exact forInit_of_yieldsSimple h
  | .ret h hs =>
    rw [statement, eq_of_beq h]
    refine Progress.andThen_eq_ok.2 ⟨_, _, size_advance_lt_of_check h (by decide),
      Progress.expect_eq_ok.2 ⟨h, rfl, rfl⟩, ?_⟩
    refine Reading.andThen_eq_ok.2 ⟨none, s.advance, Nat.le_refl _, ?_, ?_⟩
    · rw [returnStmt.value, if_pos hs]
      rfl
    · exact Reading.andThen_eq_ok.2
        ⟨_, _, size_advance_le _, Reading.expect_eq_ok.2 ⟨hs, rfl, rfl⟩, rfl⟩
  | .retValue (t := u) (e := e) h hn he hs =>
    have he' := expression_of_yields he
    rw [statement, eq_of_beq h]
    refine Progress.andThen_eq_ok.2 ⟨_, _, size_advance_lt_of_check h (by decide),
      Progress.expect_eq_ok.2 ⟨h, rfl, rfl⟩, ?_⟩
    refine Reading.andThen_eq_ok.2
      ⟨some e, u, Nat.le_of_lt (Progress.size_lt_of_ok he'), ?_, ?_⟩
    · rw [returnStmt.value, if_neg (by simp [hn])]
      exact Progress.map_eq_ok.2 ⟨_, he', rfl⟩
    · exact Reading.andThen_eq_ok.2
        ⟨_, _, size_advance_le _, Reading.expect_eq_ok.2 ⟨hs, rfl, rfl⟩, rfl⟩
  | .ifThen h ho hc hp hx hn =>
    have hx' := statement_of_yieldsStmt hx
    have hc' := condition_eq_ok.2 ⟨_, ho, hc, hp, rfl⟩
    rw [statement, eq_of_beq h]
    refine Progress.andThen_eq_ok.2 ⟨_, _, size_advance_lt_of_check h (by decide),
      Progress.expect_eq_ok.2 ⟨h, rfl, rfl⟩, ?_⟩
    refine Reading.andThen_eq_ok.2 ⟨_, _, Nat.le_of_lt (Progress.size_lt_of_ok hc'), hc', ?_⟩
    refine Reading.andThen_eq_ok.2 ⟨_, _, Nat.le_of_lt (Progress.size_lt_of_ok hx'), hx', ?_⟩
    rw [if_neg (by simp [hn])]
    rfl
  | .ifElse h ho hc hp hx he hy =>
    have hx' := statement_of_yieldsStmt hx
    have hy' := statement_of_yieldsStmt hy
    have hc' := condition_eq_ok.2 ⟨_, ho, hc, hp, rfl⟩
    rw [statement, eq_of_beq h]
    refine Progress.andThen_eq_ok.2 ⟨_, _, size_advance_lt_of_check h (by decide),
      Progress.expect_eq_ok.2 ⟨h, rfl, rfl⟩, ?_⟩
    refine Reading.andThen_eq_ok.2 ⟨_, _, Nat.le_of_lt (Progress.size_lt_of_ok hc'), hc', ?_⟩
    refine Reading.andThen_eq_ok.2 ⟨_, _, Nat.le_of_lt (Progress.size_lt_of_ok hx'), hx', ?_⟩
    rw [if_pos he]
    exact Reading.andThen_eq_ok.2 ⟨_, _, Nat.le_of_lt (Progress.size_lt_of_ok hy'), hy', rfl⟩
  | .loop h ho hc hp hx =>
    have hx' := statement_of_yieldsStmt hx
    have hc' := condition_eq_ok.2 ⟨_, ho, hc, hp, rfl⟩
    rw [statement, eq_of_beq h]
    refine Progress.andThen_eq_ok.2 ⟨_, _, size_advance_lt_of_check h (by decide),
      Progress.expect_eq_ok.2 ⟨h, rfl, rfl⟩, ?_⟩
    refine Reading.andThen_eq_ok.2 ⟨_, _, Nat.le_of_lt (Progress.size_lt_of_ok hc'), hc', ?_⟩
    exact Reading.andThen_eq_ok.2 ⟨_, _, Nat.le_of_lt (Progress.size_lt_of_ok hx'), hx', rfl⟩
  | .forLoop h ho hi hc hs hn hp hb =>
    have hi' := forInit_of_yieldsSimple hi
    have hc' := expression_of_yields hc
    have hn' := expression_of_yields hn
    have hb' := statement_of_yieldsStmt hb
    rw [statement, eq_of_beq h]
    refine Progress.andThen_eq_ok.2 ⟨_, _, size_advance_lt_of_check h (by decide),
      Progress.expect_eq_ok.2 ⟨h, rfl, rfl⟩, ?_⟩
    refine Reading.andThen_eq_ok.2
      ⟨_, _, size_advance_le _, Reading.expect_eq_ok.2 ⟨ho, rfl, rfl⟩, ?_⟩
    refine Reading.andThen_eq_ok.2 ⟨_, _, Nat.le_of_lt (Progress.size_lt_of_ok hi'), hi', ?_⟩
    refine Reading.andThen_eq_ok.2 ⟨_, _, Nat.le_of_lt (Progress.size_lt_of_ok hc'), hc', ?_⟩
    refine Reading.andThen_eq_ok.2
      ⟨_, _, size_advance_le _, Reading.expect_eq_ok.2 ⟨hs, rfl, rfl⟩, ?_⟩
    refine Reading.andThen_eq_ok.2 ⟨_, _, Nat.le_of_lt (Progress.size_lt_of_ok hn'), hn', ?_⟩
    refine Reading.andThen_eq_ok.2
      ⟨_, _, size_advance_le _, Reading.expect_eq_ok.2 ⟨hp, rfl, rfl⟩, ?_⟩
    exact Reading.andThen_eq_ok.2 ⟨_, _, Nat.le_of_lt (Progress.size_lt_of_ok hb'), hb', rfl⟩
  | .block hb =>
    have hb' := block_of_yieldsBlock hb
    have hk : s.check .leftBrace = true := by
      cases hb with
      | mk h _ _ => exact h
    rw [statement, eq_of_beq hk]
    exact Progress.map_eq_ok.2 ⟨_, hb', rfl⟩

theorem block_of_yieldsBlock {s t : Parser} {b : Site × List Stmt} (h : YieldsBlock s b t) :
    (block s).1 = (.ok b, t) := by
  match h with
  | .mk h hb hc =>
    have hb' := statements_of_yieldsStmts hb
    rw [block]
    refine Progress.andThen_eq_ok.2 ⟨_, _, size_advance_lt_of_check h (by decide),
      Progress.expect_eq_ok.2 ⟨h, rfl, rfl⟩, ?_⟩
    refine Reading.andThen_eq_ok.2 ⟨_, _, Reading.size_le_of_ok hb', hb', ?_⟩
    exact Reading.andThen_eq_ok.2
      ⟨_, _, size_advance_le _, Reading.expect_eq_ok.2 ⟨hc, rfl, rfl⟩, rfl⟩

theorem statements_of_yieldsStmts {s t : Parser} {xs : List Stmt} (h : YieldsStmts s xs t) :
    (statements s).1 = (.ok xs, t) := by
  match h with
  | .nil h =>
    rw [statements, if_pos h]
    rfl
  | .cons h hx hxs =>
    have hx' := statement_of_yieldsStmt hx
    have hxs' := statements_of_yieldsStmts hxs
    rw [statements, if_neg (by simp [h])]
    refine Progress.andThen_eq_ok.2 ⟨_, _, Progress.size_lt_of_ok hx', hx', ?_⟩
    exact Reading.andThen_eq_ok.2 ⟨_, _, Reading.size_le_of_ok hxs', hxs', rfl⟩

end

/-- **A statement is parsed exactly when the relation says so.** -/
theorem statement_eq_ok {s t : Parser} {x : Stmt} :
    (statement s).1 = (.ok x, t) ↔ YieldsStmt s x t :=
  ⟨yieldsStmt_of_statement, statement_of_yieldsStmt⟩

end MicroC.Parser
