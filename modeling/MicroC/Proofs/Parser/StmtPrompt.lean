import MicroC.Proofs.Parser.ExprPrompt
import MicroC.Proofs.Parser.NearestElse
import MicroC.Proofs.Parser.StmtComplete

/-!
# Statements are read promptly

* `IsSimple`, `IsStmt`, `IsStmts`, `IsBlock`: what is read of a statement.
* `declaration_or_expr_prompt`: two names ahead tell a declaration from an expression, and no token is taken too much.
* **`statement_prompt`**: a statement is read, or rejected at the first token that cannot be part of it.
-/

namespace MicroC.Parser

open Grammar

/-! ## Statements without parts that are statements -/

/-- The statements that may also start a `for` loop. -/
def IsSimple (ts : List Token) : Prop := ∃ x, Simple ts x

/-- What makes a declaration behind its type and name. -/
def BehindNames (us : List Token) : Prop :=
  ∀ k n : Token, k.kind = .identifier → n.kind = .identifier → IsSimple (k :: n :: us)

/-- An initial value with the sign in front of it, or nothing. -/
def IsInitializer (ts : List Token) : Prop := ts = [] ∨ Then (One .equals) (IsExpr .assignment) ts

/-- An expression in parentheses. -/
def IsCondition : List Token → Prop := Then (One .leftParen) (Then (IsExpr .assignment) (One .rightParen))

theorem completable_semicolon : Completable (One .semicolon) := completable_one (by decide)

theorem completable_behindNames : Completable BehindNames :=
  completable_semicolon.mono fun _ ⟨_, hts, ht⟩ _ _ hk hn => hts ▸ ⟨_, .decl hk hn ht⟩

theorem completable_condition : Completable IsCondition :=
  (completable_one (by decide)).then ((completable_expr _).then (completable_one (by decide)))

theorem emptyStmt_prompt (s : Parser) (hs : s.Regular) :
    Prompt IsSimple s (fun s => (emptyStmt s).1) (fun s => (emptyStmt s).1) := by
  refine (Prompt.opening hs .semicolon completable_nothing fun _ _ _ _ _ => .node _ _ _ _).mono fun ts hts => ?_
  obtain ⟨t, rfl, ht⟩ := then_nothing hts
  exact ⟨_, .empty ht⟩

theorem exprStmt_prompt (s : Parser) (hs : s.Regular) :
    Prompt IsSimple s (fun s => (exprStmt s).1) (fun s => (exprStmt s).1) := by
  refine (Prompt.progress hs (expression_prompt .assignment s hs) completable_semicolon fun _ _ t ht _ =>
    .closing ht .semicolon fun _ _ _ => .node _ _ _ _).mono ?_
  rintro _ ⟨_, _, rfl, ⟨x, hx⟩, t, rfl, ht⟩
  exact ⟨_, .expr hx ht⟩

theorem arrayLength_eq (s : Parser) : (arrayLength s).1 = if s.check .intLiteral then
    match word? s.peek.lexeme with
    | none => (.error ⟨.integerOutOfRange, s.peek⟩, s.advance)
    | some v => (Reading.node s.peek.span (⟨·, v⟩) : Reading s.advance ArrayLength).1
  else (.error ⟨.expected .intLiteral, s.peek⟩, s) := by
  have hexpect : (Reading.expect s .intLiteral).1 = s.expect .intLiteral := rfl
  rw [arrayLength, andThen_reading, Step.seq, hexpect, Parser.expect]
  cases s.check .intLiteral with
  | false => rfl
  | true =>
    simp only [if_true]
    cases word? s.peek.lexeme <;> rfl

/-- A number that is no word is read before it is rejected. -/
theorem arrayLength_prompt (s : Parser) (hs : s.Regular) :
    Prompt (One .intLiteral) s (fun s => (arrayLength s).1) (fun s => (arrayLength s).1) := by
  have hcompletable : Completable (One .intLiteral) := completable_one (by decide)
  have hlate : ParseFault.integerOutOfRange.isLate = true := rfl
  have hearly : (ParseFault.expected .intLiteral).isLate = false := rfl
  by_cases hc : s.check .intLiteral = true
  · have hk : s.peek.kind = .intLiteral := eq_of_beq hc
    have hne : s.peek.kind ≠ .eof := by rw [hk]; decide
    have hregular := hs.peek hne
    have hread : ∀ t : Parser, t.peek = s.peek → _ := fun t ht =>
      (arrayLength_eq t).trans ((if_pos (by rw [check, ht, hk]; rfl)).trans (by rw [ht]))
    cases hword : word? s.peek.lexeme with
    | none =>
      rw [hword] at hread
      exact .rejectLate hcompletable hlate hne (fun t ht => (hread t ht).trans (by rw [ht]))
        (fun t ht => (hread t ht).trans (by rw [ht]))
    | some v =>
      rw [hword] at hread
      have hfits : s.peek.Fits := ⟨hregular, fun _ => ((hregular.word?_eq_some hk).1 hword).1⟩
      have hnode : Prompt Nothing s.advance (fun t => (Reading.node s.peek.span (⟨·, v⟩) : Reading t ArrayLength).1)
        (fun t => (Reading.node s.peek.span (⟨·, v⟩) : Reading t ArrayLength).1) := .node _ _ _ _
      rw [← hk]
      exact (hnode.advance hne hfits hread hread).mono fun _ => then_nothing
  · have hfail : ∀ t : Parser, t.peek = s.peek → (arrayLength t).1 = (.error ⟨.expected .intLiteral, t.peek⟩, t) :=
      fun t ht => (arrayLength_eq t).trans (if_neg (by rwa [check, ht]))
    exact .reject hcompletable hearly (fun h => beq_iff_eq.2 h) hfail hfail

theorem initializer_prompt (s : Parser) (hs : s.Regular) :
    Prompt IsInitializer s (fun s => (declarationRest.initializer s).1)
      (fun s => (declarationRest.initializer s).1) := by
  refine .branchOn (fun hc => ?_) fun _ => ?_
  · have hexpr : Prompt _ s.advance (fun t => ((expression .assignment t).map some).1)
        (fun t => ((expression .assignment t).map some).1) :=
      .map hs.advance (expression_prompt .assignment s.advance hs.advance)
    exact (hexpr.past hs hc).mono fun _ => .inr
  · exact (Prompt.pure none none).mono fun _ => .inl

/-- What is read of the declaration of an array behind its opening bracket. -/
def behindLengthBracket (type name : Ident) (s : Parser) : Reading s Stmt :=
  (arrayLength s).andThen fun n t _ => (Reading.expect t .rightBracket).andThen fun _ u _ =>
    (Reading.expect u .semicolon).andThen fun semi _ _ => .node (type.span.merge semi.span) (.array ⟨·, type, name⟩ n)

theorem declarationRest_prompt (type type' name name' : Ident) (s : Parser) (hs : s.Regular) :
    Prompt BehindNames s (fun s => (declarationRest type name s).1) (fun s => (declarationRest type' name' s).1) := by
  refine .branchOn (fun hc => ?_) fun _ => ?_
  · have harray : Prompt (Then (One .intLiteral) (Then (One .rightBracket) (One .semicolon))) s.advance
        (fun t => (behindLengthBracket type name t).1) (fun t => (behindLengthBracket type' name' t).1) :=
      .reading hs.advance (arrayLength_prompt s.advance hs.advance)
        ((completable_one (by decide)).then completable_semicolon) fun _ _ t ht _ =>
          .mark ht .rightBracket completable_semicolon fun _ _ u hu _ =>
            .closing hu .semicolon fun _ _ _ => .node _ _ _ _
    refine (harray.past hs hc).mono ?_
    rintro _ ⟨_, _, rfl, ⟨l, rfl, hl⟩, _, _, rfl, ⟨i, rfl, hi⟩, _, _, rfl, ⟨r, rfl, hr⟩, t, rfl, ht⟩ k n hk hn
    exact ⟨_, .array hk hn hl hi hr ht⟩
  · refine (Prompt.reading hs (initializer_prompt s hs) completable_semicolon fun _ _ t ht _ =>
      .closing ht .semicolon fun _ _ _ => .node _ _ _ _).mono ?_
    rintro _ ⟨_, _, rfl, rfl | ⟨_, _, rfl, ⟨q, rfl, hq⟩, x, hx⟩, t, rfl, ht⟩ k n hk hn
    · exact ⟨_, .decl hk hn ht⟩
    · exact ⟨_, .init hk hn hq hx ht⟩

theorem declaration_prompt (s : Parser) (hs : s.Regular) :
    Prompt IsSimple s (fun s => (declaration s).1) (fun s => (declaration s).1) := by
  refine (Prompt.progress hs (.ident hs) ((completable_one (by decide)).then completable_behindNames)
    fun type type' t ht _ => .within ht (.ident ht) completable_behindNames fun name name' u hu _ =>
      declarationRest_prompt type type' name name' u hu).mono ?_
  rintro _ ⟨_, _, rfl, ⟨k, rfl, hk⟩, _, us, rfl, ⟨n, rfl, hn⟩, hus⟩
  exact hus k n hk hn

/-- Neither a declaration nor an expression fails at a name in front of it. -/
theorem name_not_rejected {s : Parser} (hs : s.Regular) {c : Token} {cs : List Token} (hahead : s.ahead = c :: cs)
    (hc : c.kind = .identifier) :
    ¬ c :: cs <:+ unread (declaration s).1 ∧ ¬ c :: cs <:+ unread (exprStmt s).1 := by
  have hfits : c.Fits := by
    refine ⟨hs c (by rw [hahead]; exact List.mem_cons_self), fun hint => ?_⟩
    rw [hc] at hint
    cases hint
  have hname : (sample .identifier).Fits := fits_sample (by decide)
  have hsemi : (sample .semicolon).Fits := fits_sample (by decide)
  have hnot : ∀ ts, (ofTokens (c :: ts)).check .semicolon ≠ true := fun ts => by
    rw [check_eq]
    show (c.kind == .semicolon) ≠ true
    rw [hc]
    decide
  constructor
  · obtain ⟨y, u, hy, -⟩ := yieldsSimple_of_simple (.decl hc rfl rfl)
      (List.forall_mem_cons.2 ⟨hfits, List.forall_mem_cons.2 ⟨hname, List.forall_mem_singleton.2 hsemi⟩⟩)
      (s := ofTokens [c, sample .identifier, sample .semicolon]) (List.append_nil _).symm
    have hok := forInit_of_yieldsSimple hy
    rw [forInit, if_neg (hnot _), if_pos (startsDeclaration_of_names rfl hc rfl)] at hok
    exact (declaration_prompt s hs).not_suffix hahead rfl hok
  · have hvar : Derives .assignment [c] _ := .ofEquality (.ofComparison (.ofAdditive (.ofMultiplicative (.ofUnary
      (.ofExponent (.ofAtom (.var hc)))))))
    obtain ⟨y, u, hy, -⟩ := yieldsSimple_of_simple (.expr hvar rfl)
      (List.forall_mem_cons.2 ⟨hfits, List.forall_mem_singleton.2 hsemi⟩)
      (s := ofTokens [c, sample .semicolon]) (List.append_nil _).symm
    have hok := forInit_of_yieldsSimple hy
    have hone : (ofTokens [c, sample .semicolon]).startsDeclaration ≠ true := by
      have hahead : (ofTokens [c, sample .semicolon]).ahead = c :: [sample .semicolon] := rfl
      rw [startsDeclaration_of_ahead hahead, hc]
      decide
    rw [forInit, if_neg (hnot _), if_neg hone] at hok
    exact (exprStmt_prompt s hs).not_suffix hahead rfl hok

/-- Whether two names are ahead is the same in front of texts that part behind the first token, if there is one more in
common or that token is no name. -/
theorem startsDeclaration_eq {s s' : Parser} {ts cs cs' : List Token} {c : Token} (hs : s.ahead = ts ++ c :: cs)
    (hs' : s'.ahead = ts ++ c :: cs') (h : ts = [] → c.kind ≠ .identifier) :
    s'.startsDeclaration = s.startsDeclaration := by
  cases ts with
  | nil =>
    have hc : (c.kind == .identifier) = false := beq_eq_false_iff_ne.2 (h rfl)
    rw [startsDeclaration_of_ahead hs, startsDeclaration_of_ahead hs', hc, Bool.false_and, Bool.false_and]
  | cons t ts =>
    rw [startsDeclaration_of_ahead hs, startsDeclaration_of_ahead hs']
    cases ts <;> rfl

/-- Two names ahead tell a declaration from an expression. Where either fails at the first token, this is no name, so
that the one behind it does not matter. -/
theorem declaration_or_expr_prompt (s : Parser) (hs : s.Regular) :
    Prompt IsSimple s (fun s => (if s.startsDeclaration then declaration s else exprStmt s).1)
      (fun s => (if s.startsDeclaration then declaration s else exprStmt s).1) := by
  by_cases hd : s.startsDeclaration = true
  · refine (declaration_prompt s hs).congrAhead (by rw [if_pos hd]) fun ts c cs cs' s' hahead hahead' hsuffix => ?_
    have hsame := startsDeclaration_eq hahead hahead' fun hts hc => by
      subst hts
      exact (name_not_rejected hs hahead hc).1 hsuffix
    rw [if_pos (hsame.trans hd)]
  · refine (exprStmt_prompt s hs).congrAhead (by rw [if_neg hd]) fun ts c cs cs' s' hahead hahead' hsuffix => ?_
    have hsame := startsDeclaration_eq hahead hahead' fun hts hc => by
      subst hts
      exact (name_not_rejected hs hahead hc).2 hsuffix
    rw [if_neg (by rwa [hsame])]

theorem forInit_prompt (s : Parser) (hs : s.Regular) :
    Prompt IsSimple s (fun s => (forInit s).1) (fun s => (forInit s).1) := by
  have hcases : ∀ t : Parser, (forInit t).1 = (if t.check .semicolon then (emptyStmt t).reading
      else (if t.startsDeclaration then declaration t else exprStmt t).reading).1 := fun t => by
    rw [forInit]
    split <;> rfl
  refine .congr ?_ (fun t _ => hcases t) (fun t _ => hcases t)
  exact .branchOn (fun _ => emptyStmt_prompt s hs) fun _ => declaration_or_expr_prompt s hs

/-! ## Returns and conditions -/

theorem returnStmt_prompt (s : Parser) (hs : s.Regular) :
    Prompt (Then (One .returnKw) (Then (fun ts => ts = [] ∨ IsExpr .assignment ts) (One .semicolon))) s
      (fun s => (returnStmt s).1) (fun s => (returnStmt s).1) := by
  have hvalue : ∀ t : Parser, t.Regular → Prompt (fun ts => ts = [] ∨ IsExpr .assignment ts) t
      (fun t => (returnStmt.value t).1) (fun t => (returnStmt.value t).1) := fun t ht =>
    .branchOn (fun _ => (Prompt.pure none none).mono fun _ => .inl)
      fun _ => (Prompt.map ht (expression_prompt .assignment t ht)).mono fun _ => .inr
  exact .opening hs .returnKw ((completable_nil (.inl rfl)).then completable_semicolon) fun _ _ t ht _ =>
      .reading ht (hvalue t ht) completable_semicolon fun _ _ u hu _ => .closing hu .semicolon fun _ _ _ => .node _ _ _ _

theorem condition_prompt (s : Parser) (hs : s.Regular) :
    Prompt IsCondition s (fun s => (condition s).1) (fun s => (condition s).1) :=
  .opening hs .leftParen ((completable_expr _).then (completable_one (by decide))) fun _ _ t ht _ =>
    .within ht (expression_prompt .assignment t ht) (completable_one (by decide)) fun c c' u hu _ =>
      .closing hu .rightParen fun _ _ _ => .pure c c'

/-! ## Statements -/

def IsStmt (ts : List Token) : Prop := ∃ o x, Statement false o ts x

def IsStmts (ts : List Token) : Prop := ∃ xs, Statements false ts xs

/-- Statements in braces. -/
def IsBlock : List Token → Prop := Then (One .leftBrace) (Then IsStmts (One .rightBrace))

/-- An `else` and the statement behind it, or nothing. -/
def IsElse (ts : List Token) : Prop := ts = [] ∨ Then (One .elseKw) IsStmt ts

theorem completable_stmt : Completable IsStmt :=
  completable_semicolon.mono fun _ ⟨_, hts, ht⟩ => hts ▸ ⟨_, _, .simple (.empty ht)⟩

theorem completable_stmts : Completable IsStmts := completable_nil ⟨[], .nil⟩

theorem completable_else : Completable IsElse := completable_nil (.inl rfl)

/-! ### The tokens of statements -/

theorem isStmt_of_if {ts : List Token}
    (h : Then (One .ifKw) (Then IsCondition (Then IsStmt IsElse)) ts) : IsStmt ts := by
  obtain ⟨_, _, rfl, ⟨k, rfl, hk⟩, _, _, rfl, ⟨_, _, rfl, ⟨l, rfl, hl⟩, us, _, rfl, ⟨c, hc⟩, r, rfl, hr⟩,
    vs, ws, rfl, ⟨o, x, hx⟩, helse⟩ := h
  rcases helse with rfl | ⟨_, zs, rfl, ⟨e, rfl, he⟩, o', y, hy⟩
  · exact ⟨_, _, (Statement.ifThen hk hl hc hr hx).cast (by simp)⟩
  · exact ⟨_, _, (Statement.ifElse hk hl hc hr hx (absurd · Bool.false_ne_true) he hy).cast (by simp)⟩

theorem isStmt_of_while {ts : List Token} (h : Then (One .whileKw) (Then IsCondition IsStmt) ts) : IsStmt ts := by
  obtain ⟨_, _, rfl, ⟨k, rfl, hk⟩, _, us, rfl, ⟨_, _, rfl, ⟨l, rfl, hl⟩, vs, _, rfl, ⟨c, hc⟩, r, rfl, hr⟩, o, x, hx⟩ := h
  exact ⟨_, _, (Statement.loop hk hl hc hr hx).cast (by simp)⟩

/-- What is read of a `for` loop behind its first part. -/
def IsForRest : List Token → Prop :=
  Then (IsExpr .assignment) (Then (One .semicolon) (Then (IsExpr .assignment) (Then (One .rightParen) IsStmt)))

theorem isStmt_of_for {ts : List Token}
    (h : Then (One .forKw) (Then (One .leftParen) (Then IsSimple IsForRest)) ts) : IsStmt ts := by
  obtain ⟨_, _, rfl, ⟨k, rfl, hk⟩, _, _, rfl, ⟨l, rfl, hl⟩, is, _, rfl, ⟨i, hi⟩, us, _, rfl, ⟨c, hc⟩, _, _, rfl,
    ⟨q, rfl, hq⟩, vs, _, rfl, ⟨n, hn⟩, _, ws, rfl, ⟨r, rfl, hr⟩, o, x, hx⟩ := h
  exact ⟨_, _, (Statement.forLoop hk hl hi hc hq hn hr hx).cast (by simp)⟩

theorem isStmt_of_return {ts : List Token}
    (h : Then (One .returnKw) (Then (fun ts => ts = [] ∨ IsExpr .assignment ts) (One .semicolon)) ts) : IsStmt ts := by
  obtain ⟨_, _, rfl, ⟨k, rfl, hk⟩, _, _, rfl, rfl | ⟨x, hx⟩, t, rfl, ht⟩ := h
  · exact ⟨_, _, .ret hk ht⟩
  · exact ⟨_, _, .retValue hk hx ht⟩

theorem isStmt_of_block {ts : List Token} (h : IsBlock ts) : IsStmt ts := by
  obtain ⟨_, _, rfl, ⟨l, rfl, hl⟩, us, _, rfl, ⟨xs, hxs⟩, r, rfl, hr⟩ := h
  exact ⟨_, _, .block hl hxs hr⟩

/-! ### The functions -/

mutual

/-- **A statement is read promptly.** -/
theorem statement_prompt (s : Parser) (hs : s.Regular) :
    Prompt IsStmt s (fun s => (statement s).1) (fun s => (statement s).1) := by
  have hkind : ∀ {k : TokenKind}, s.peek.kind = k → ∀ t : Parser, t.peek = s.peek → t.peek.kind = k :=
    fun hk t ht => by rw [ht, hk]
  have hparen : Completable (Then (One .rightParen) IsStmt) := (completable_one (by decide)).then completable_stmt
  have hstep : Completable (Then (IsExpr .assignment) (Then (One .rightParen) IsStmt)) :=
    (completable_expr _).then hparen
  have hsemi : Completable (Then (One .semicolon) _) := completable_semicolon.then hstep
  have hfor : Completable IsForRest := (completable_expr _).then hsemi
  have hinit : Completable (Then IsSimple IsForRest) :=
    (completable_semicolon.mono fun _ ⟨_, hts, ht⟩ => hts ▸ ⟨_, .empty ht⟩).then hfor
  by_cases hif : s.peek.kind = .ifKw
  · refine .congr (.mono (.opening (M := Then IsCondition (Then IsStmt IsElse)) hs .ifKw
      (completable_condition.then (completable_stmt.then completable_else)) fun kw kw' t ht _ =>
        .within ht (condition_prompt t ht) (completable_stmt.then completable_else) fun c c' u hu _ =>
          .within hu (statement_prompt u hu) completable_else fun x x' v hv _ => .branchOn (fun hc => ?_) fun _ => ?_)
        fun _ => isStmt_of_if)
      (fun t ht => by rw [statement, hkind hif t ht]) (fun t ht => by rw [statement, hkind hif t ht])
    · have := size_advance_lt_of_check hc (by decide)
      have helse : Prompt IsStmt v.advance
          (fun t => ((statement t).reading.andThen fun y _ _ =>
            .node (kw.span.merge y.span) (Stmt.ite · c x (some y))).1)
          (fun t => ((statement t).reading.andThen fun y _ _ =>
            .node (kw'.span.merge y.span) (Stmt.ite · c' x' (some y))).1) :=
        .endingWithin hv.advance (statement_prompt v.advance hv.advance) fun _ _ _ => .node _ _ _ _
      exact (helse.past hv hc).mono fun _ => .inr
    · exact (Prompt.node _ _ _ _).mono fun _ => .inl
  by_cases hwhile : s.peek.kind = .whileKw
  · exact .congr (.mono (.opening (M := Then IsCondition IsStmt) hs .whileKw (completable_condition.then completable_stmt)
      fun kw kw' t ht _ => .within ht (condition_prompt t ht) completable_stmt fun c c' u hu _ =>
        .endingWithin hu (statement_prompt u hu) fun _ _ _ => .node _ _ _ _) fun _ => isStmt_of_while)
      (fun t ht => by rw [statement, hkind hwhile t ht]) (fun t ht => by rw [statement, hkind hwhile t ht])
  by_cases hforKw : s.peek.kind = .forKw
  · exact .congr (.mono (.opening (M := Then (One .leftParen) (Then IsSimple IsForRest)) hs .forKw
      ((completable_one (by decide)).then hinit) fun kw kw' t ht _ => .mark ht .leftParen hinit fun _ _ u hu _ =>
        .within hu (forInit_prompt u hu) hfor fun init init' v hv _ =>
          .within hv (expression_prompt .assignment v hv) hsemi fun c c' w hw _ =>
            .mark hw .semicolon hstep fun _ _ x hx _ =>
              .within hx (expression_prompt .assignment x hx) hparen fun step step' y hy _ =>
                .mark hy .rightParen completable_stmt fun _ _ z hz _ =>
                  .endingWithin hz (statement_prompt z hz) fun body body' r => .done rfl
                    (fun t _ => ⟨_, (t.unrolledFor init c step body (kw.span.merge body.span)).2, rfl, rfl, rfl⟩)
                    (fun t _ => ⟨_, (t.unrolledFor init' c' step' body' (kw'.span.merge body'.span)).2, rfl, rfl⟩))
        fun _ => isStmt_of_for)
      (fun t ht => by rw [statement, hkind hforKw t ht]) (fun t ht => by rw [statement, hkind hforKw t ht])
  by_cases hreturn : s.peek.kind = .returnKw
  · exact .congr ((returnStmt_prompt s hs).mono fun _ => isStmt_of_return)
      (fun t ht => by rw [statement, hkind hreturn t ht]) (fun t ht => by rw [statement, hkind hreturn t ht])
  by_cases hbrace : s.peek.kind = .leftBrace
  · exact .congr (.mono (.map hs (block_prompt s hs)) fun _ => isStmt_of_block)
      (fun t ht => by rw [statement, hkind hbrace t ht]) (fun t ht => by rw [statement, hkind hbrace t ht])
  · have hsimple : ∀ t : Parser, t.peek = s.peek → (statement t).1 = (forInit t).1 := fun t ht =>
      statement_of_not_leadsStmt (by rw [ht]; simp [leadsStmt, *])
    exact ((forInit_prompt s hs).mono fun _ ⟨x, hx⟩ => ⟨_, x, .simple hx⟩).congr hsimple hsimple
termination_by (s.size, 1)
decreasing_by
  all_goals first
    | (apply Prod.Lex.left; omega)
    | (apply Prod.Lex.right; decide)

theorem block_prompt (s : Parser) (hs : s.Regular) :
    Prompt IsBlock s (fun s => (block s).1) (fun s => (block s).1) := by
  have hbrace : Completable (One .rightBrace) := completable_one (by decide)
  exact .congr (.opening hs .leftBrace (completable_stmts.then hbrace) fun _ _ t ht _ =>
    .reading ht (statements_prompt t ht) hbrace fun _ _ u hu _ => .closing hu .rightBrace fun _ _ _ => .node _ _ _ _)
    (fun t _ => by rw [block]) (fun t _ => by rw [block])
termination_by (s.size, 0)
decreasing_by
  apply Prod.Lex.left
  omega

theorem statements_prompt (s : Parser) (hs : s.Regular) :
    Prompt IsStmts s (fun s => (statements s).1) (fun s => (statements s).1) := by
  refine .congr (.branch (b := fun t => t.check .rightBrace || t.isAtEnd) (fun t ht => ?_) (fun _ => ?_) fun _ => ?_)
    (fun t _ => by rw [statements]) (fun t _ => by rw [statements])
  · rw [isAtEnd, isAtEnd, check, check, check, check, ht]
  · refine (Prompt.pure [] []).mono ?_
    rintro _ rfl
    exact ⟨[], .nil⟩
  · have hcons : Prompt (Then IsStmt IsStmts) s
        (fun s => ((statement s).andThen fun x t _ => (statements t).andThen fun xs _ _ => .pure (x :: xs)).1)
        (fun s => ((statement s).andThen fun x t _ => (statements t).andThen fun xs _ _ => .pure (x :: xs)).1) :=
      .progress hs (statement_prompt s hs) completable_stmts fun _ _ t ht _ =>
        .ending ht (statements_prompt t ht) fun _ _ _ => .pure _ _
    refine Prompt.mono hcons ?_
    rintro _ ⟨ts, us, rfl, ⟨o, x, hx⟩, xs, hxs⟩
    exact ⟨_, .cons hx hxs⟩
termination_by (s.size, 2)
decreasing_by
  all_goals first
    | (apply Prod.Lex.left; omega)
    | (apply Prod.Lex.right; decide)

end

end MicroC.Parser
