import MicroC.Parser.Program
import MicroC.Proofs.Ast.Unplaced
import MicroC.Proofs.Parser.ExprTrace

/-!
# Parsing tokens without places

A parser decides by the kinds and the texts of the tokens ahead. So tokens without places are parsed to the same
program without places, or lead to the same error.

* `Parser.unplacedOutcome`: an outcome without places.
* `Reading.andThen_unplaced`, `Progress.andThen_unplaced`: what is true of two steps is true of both in a row.
* `expression_unplaced`, `statement_unplaced`, **`program_unplaced`**: parsing commutes with forgetting places.
-/

namespace MicroC

open MicroC.Parser

variable {α β : Type} {f : α → α} {g : β → β}

/-- An outcome without places. -/
def Parser.unplacedOutcome (f : α → α) : Except ParseError α × Parser → Except ParseError α × Parser
  | (.ok a, t) => (.ok (f a), t.unplaced)
  | (.error e, t) => (.error e.unplaced, t.unplaced)

/-! ## Steps -/

namespace Reading

variable {s s' : Parser}

theorem andThen_unplaced {r : Reading s α} {r' : Reading s' α}
    {k : α → (t : Parser) → t.size ≤ s.size → Reading t β}
    {k' : α → (t : Parser) → t.size ≤ s'.size → Reading t β} (hr : r'.1 = unplacedOutcome f r.1)
    (hk : ∀ a t h h', (k' (f a) t.unplaced h').1 = unplacedOutcome g (k a t h).1) :
    (r'.andThen k').1 = unplacedOutcome g (r.andThen k).1 := by
  obtain ⟨⟨o, t⟩, h⟩ := r
  obtain ⟨⟨o', t'⟩, h'⟩ := r'
  cases o with
  | error e =>
    cases hr
    rfl
  | ok a =>
    cases hr
    exact hk a t h h'

theorem ok_unplaced {a a' : α} {t t' : Parser} {h : t.size ≤ s.size} {h' : t'.size ≤ s'.size}
    (heq : (a', t') = (f a, t.unplaced)) :
    (ok a' t' h' : Reading s' α).1 = unplacedOutcome f (ok a t h : Reading s α).1 :=
  congrArg (fun p => (Except.ok p.1, p.2)) heq

theorem node_unplaced {span span' : Span} {k k' : Site → α} (hspan : span' = .nowhere)
    (hk : ∀ site : Site, k' site.unplaced = f (k site)) :
    (node span' k' : Reading s.unplaced α).1 = unplacedOutcome f (node span k : Reading s α).1 := by
  subst hspan
  have hvalue : k' (s.unplaced.fresh .nowhere).1 = f (k (s.fresh span).1) := hk (s.fresh span).1
  rw [node_val, node_val, hvalue]
  rfl

theorem expect_unplaced (s : Parser) (k : TokenKind) :
    (expect s.unplaced k).1 = unplacedOutcome Token.unplaced (expect s k).1 := by
  show s.unplaced.expect k = unplacedOutcome Token.unplaced (s.expect k)
  rw [Parser.expect, Parser.expect, check_unplaced]
  split
  · rw [peek_unplaced, advance_unplaced]
    rfl
  · rw [peek_unplaced]
    rfl

end Reading

namespace Progress

variable {s s' : Parser}

theorem andThen_unplaced {p : Progress s α} {p' : Progress s' α}
    {k : α → (t : Parser) → t.size < s.size → Reading t β}
    {k' : α → (t : Parser) → t.size < s'.size → Reading t β} (hp : p'.1 = unplacedOutcome f p.1)
    (hk : ∀ a t h h', (k' (f a) t.unplaced h').1 = unplacedOutcome g (k a t h).1) :
    (p'.andThen k').1 = unplacedOutcome g (p.andThen k).1 := by
  obtain ⟨⟨o, t⟩, h⟩ := p
  obtain ⟨⟨o', t'⟩, h'⟩ := p'
  cases o with
  | error e =>
    cases hp
    rfl
  | ok a =>
    cases hp
    exact hk a t (h.2 a rfl) (h'.2 (f a) rfl)

theorem map_unplaced {p : Progress s α} {p' : Progress s' α} {h h' : α → β} (hp : p'.1 = unplacedOutcome f p.1)
    (hh : ∀ a, h' (f a) = g (h a)) : (p'.map h').1 = unplacedOutcome g (p.map h).1 :=
  andThen_unplaced hp fun a t _ _ => congrArg (fun b => (Except.ok b, t.unplaced)) (hh a)

theorem ident_unplaced (s : Parser) : (ident s.unplaced).1 = unplacedOutcome Ident.unplaced (ident s).1 :=
  map_unplaced (Reading.expect_unplaced s .identifier) fun _ => rfl

end Progress

/-! ## Expressions -/

namespace Parser

theorem literalOutcome_unplaced {s : Parser} {node : Except ParseFault (Site → Expr)}
    (h : ∀ k, node = .ok k → ∀ site : Site, k site.unplaced = (k site).unplaced) :
    s.unplaced.literalOutcome node = unplacedOutcome Expr.unplaced (s.literalOutcome node) := by
  cases node with
  | error fault =>
    rw [literalOutcome, advance_unplaced, peek_unplaced]
    rfl
  | ok k =>
    rw [literalOutcome, advance_unplaced, peek_unplaced]
    exact congrArg (fun e => (Except.ok e, _)) (h k rfl (s.advance.fresh s.peek.span).1)

theorem binary_unplaced (s : Parser) (lhs : Expr) (op : BinaryOp) (span : Span) (rhs : Expr) :
    s.unplaced.binary lhs.unplaced op .nowhere rhs.unplaced =
      ((s.binary lhs op span rhs).1.unplaced, (s.binary lhs op span rhs).2.unplaced) := by
  rw [binary, Expr.unplaced_span, Expr.unplaced_span]
  rfl

/-! The types of steps depend on the state they start from, so the state without places is given by an equation: a
state behind `advance` cannot be rewritten inside a step. -/

mutual

-- By recursion on the tokens ahead and the layer, as the functions themselves.
theorem expression_unplaced (l : Level) {s s' : Parser} (hs : s' = s.unplaced) :
    (expression l s').1 = unplacedOutcome Expr.unplaced (expression l s).1 := by
  subst hs
  by_cases hl : l.isChain = true
  · have := rank_tighter_lt hl
    rw [expression_chain hl, expression_chain hl]
    exact Progress.andThen_unplaced (expression_unplaced l.tighter rfl) fun lhs t _ _ => operators_unplaced l rfl rfl
  · obtain hl' | hl' : l = .sign ∨ l = .atom := by
      cases l <;> simp_all [Level.isChain]
    · rw [hl']
      have hk : s.unplaced.peek.kind = s.peek.kind := by rw [peek_unplaced, Token.unplaced_kind]
      cases hop : UnaryOp.ofToken? s.peek.kind with
      | none =>
        rw [expression_unsigned hop, expression_unsigned (hk ▸ hop)]
        exact expression_unplaced .power rfl
      | some op =>
        have hs := size_advance_lt (UnaryOp.ne_eof_of_ofToken? hop)
        rw [expression_signed hop, expression_signed (hk ▸ hop), peek_unplaced]
        refine Reading.andThen_unplaced (expression_unplaced .sign s.advance_unplaced) fun x t _ _ => ?_
        exact Reading.node_unplaced (by simp) fun site => rfl
    · rw [hl', expression_atom, expression_atom, peek_unplaced, Token.unplaced_kind, Token.unplaced_lexeme]
      cases hk : s.peek.kind with
      | intLiteral =>
        refine literalOutcome_unplaced fun k hnode site => ?_
        split at hnode <;> cases hnode
        rfl
      | floatLiteral =>
        refine literalOutcome_unplaced fun k hnode site => ?_
        split at hnode <;> cases hnode
        rfl
      | stringLiteral =>
        refine literalOutcome_unplaced fun k hnode site => ?_
        cases hnode
        rfl
      | leftParen =>
        have hs : s.advance.size < s.size := size_advance_lt (by simp [hk])
        refine Reading.andThen_unplaced (expression_unplaced .assignment s.advance_unplaced) fun e t _ _ => ?_
        exact Reading.andThen_unplaced (Reading.expect_unplaced t .rightParen) fun _ _ _ _ => rfl
      | identifier =>
        exact Progress.andThen_unplaced (Progress.ident_unplaced s) fun name t _ _ => behindName_unplaced name t
      | _ => rfl
termination_by (s.size, l.rank + 1)
decreasing_by
  all_goals first
    | (apply Prod.Lex.left; omega)
    | (apply Prod.Lex.right; omega)
    | (apply Prod.Lex.right; rw [hl']; decide)

theorem behindName_unplaced (name : Ident) (s : Parser) :
    (behindName name.unplaced s.unplaced).1 = unplacedOutcome Expr.unplaced (behindName name s).1 := by
  have hs := s.size_advance_le
  rw [behindName, behindName, check_unplaced, check_unplaced]
  split
  · next hp =>
    have := size_advance_lt_of_check hp (by decide)
    rw [Reading.since_val, Reading.since_val]
    refine Reading.andThen_unplaced (arguments_unplaced s.advance_unplaced) fun args t _ _ => ?_
    refine Reading.andThen_unplaced (Reading.expect_unplaced t .rightParen) fun close u _ _ => ?_
    exact Reading.node_unplaced rfl fun site => rfl
  split
  · next hb =>
    have := size_advance_lt_of_check hb (by decide)
    rw [Reading.since_val, Reading.since_val]
    refine Reading.andThen_unplaced (expression_unplaced .assignment s.advance_unplaced) fun i t _ _ => ?_
    refine Reading.andThen_unplaced (Reading.expect_unplaced t .rightBracket) fun close u _ _ => ?_
    exact Reading.node_unplaced rfl fun site => rfl
  · exact Reading.node_unplaced rfl fun site => rfl
termination_by (s.size, 11)
decreasing_by
  all_goals
    apply Prod.Lex.left
    omega

theorem operators_unplaced (l : Level) {lhs lhs' : Expr} {s s' : Parser} (hlhs : lhs' = lhs.unplaced)
    (hs : s' = s.unplaced) :
    (operators l lhs' s').1 = unplacedOutcome Expr.unplaced (operators l lhs s).1 := by
  subst hlhs hs
  have hk : s.unplaced.peek.kind = s.peek.kind := by rw [peek_unplaced, Token.unplaced_kind]
  cases hop : l.operator? s.peek.kind with
  | none =>
    rw [operators_stop hop, operators_stop (hk ▸ hop)]
    rfl
  | some op =>
    have hs := size_advance_lt (Level.ne_eof_of_operator? hop)
    rw [operators_operator hop, operators_operator (hk ▸ hop), peek_unplaced]
    cases l.grouping with
    | right =>
      refine Reading.andThen_unplaced (expression_unplaced l s.advance_unplaced) fun rhs t _ _ => ?_
      exact Reading.node_unplaced (by simp) fun site => rfl
    | once =>
      refine Reading.andThen_unplaced (expression_unplaced l.tighter s.advance_unplaced) fun rhs t _ _ => ?_
      rw [peek_unplaced, Token.unplaced_kind]
      split
      · rw [Reading.fail_val, Reading.fail_val, advance_unplaced]
        rfl
      · exact Reading.node_unplaced (by simp) fun site => rfl
    | left =>
      refine Reading.andThen_unplaced (expression_unplaced l.tighter s.advance_unplaced) fun rhs t _ _ => ?_
      have hbinary := binary_unplaced t lhs op s.peek.span rhs
      exact operators_unplaced l (congrArg Prod.fst hbinary) (congrArg Prod.snd hbinary)
termination_by (s.size, 0)
decreasing_by
  all_goals
    apply Prod.Lex.left
    try rw [size_binary]
    omega

theorem arguments_unplaced {s s' : Parser} (hs : s' = s.unplaced) :
    (arguments s').1 = unplacedOutcome Expr.unplacedAll (arguments s).1 := by
  subst hs
  rw [arguments, arguments, check_unplaced]
  split
  · rfl
  · exact argumentList_unplaced rfl
termination_by (s.size, 10)
decreasing_by apply Prod.Lex.right; decide

theorem argumentList_unplaced {s s' : Parser} (hs : s' = s.unplaced) :
    (argumentList s').1 = unplacedOutcome Expr.unplacedAll (argumentList s).1 := by
  subst hs
  rw [argumentList, argumentList]
  refine Progress.andThen_unplaced (expression_unplaced .assignment rfl) fun e t ht _ => ?_
  dsimp only
  rw [check_unplaced]
  split
  · have := t.size_advance_le
    rw [Reading.since_val, Reading.since_val]
    exact Reading.andThen_unplaced (argumentList_unplaced t.advance_unplaced) fun es u _ _ => rfl
  · rfl
termination_by (s.size, 9)
decreasing_by
  all_goals first
    | (apply Prod.Lex.left; omega)
    | (apply Prod.Lex.right; decide)

end

/-! ## Statements -/

theorem initializer_unplaced {s s' : Parser} (hs : s' = s.unplaced) :
    (declarationRest.initializer s').1 =
      unplacedOutcome (Option.map Expr.unplaced) (declarationRest.initializer s).1 := by
  subst hs
  rw [declarationRest.initializer, declarationRest.initializer, check_unplaced]
  split
  · exact Progress.map_unplaced (expression_unplaced .assignment s.advance_unplaced) fun _ => rfl
  · rfl

theorem emptyStmt_unplaced (s : Parser) :
    (emptyStmt s.unplaced).1 = unplacedOutcome Stmt.unplaced (emptyStmt s).1 := by
  refine Progress.andThen_unplaced (Reading.expect_unplaced s .semicolon) fun semi t _ _ => ?_
  exact Reading.node_unplaced rfl fun site => rfl

theorem exprStmt_unplaced (s : Parser) :
    (exprStmt s.unplaced).1 = unplacedOutcome Stmt.unplaced (exprStmt s).1 := by
  refine Progress.andThen_unplaced (expression_unplaced .assignment rfl) fun e t _ _ => ?_
  refine Reading.andThen_unplaced (Reading.expect_unplaced t .semicolon) fun semi u _ _ => ?_
  exact Reading.node_unplaced (by simp) fun site => rfl

theorem arrayLength_unplaced {s s' : Parser} (hs : s' = s.unplaced) :
    (arrayLength s').1 = unplacedOutcome ArrayLength.unplaced (arrayLength s).1 := by
  subst hs
  refine Reading.andThen_unplaced (Reading.expect_unplaced s .intLiteral) fun token t _ _ => ?_
  rw [Token.unplaced_lexeme]
  split
  · rfl
  · exact Reading.node_unplaced rfl fun site => rfl

theorem declarationRest_unplaced (type name : Ident) (s : Parser) :
    (declarationRest type.unplaced name.unplaced s.unplaced).1 =
      unplacedOutcome Stmt.unplaced (declarationRest type name s).1 := by
  rw [declarationRest, declarationRest, check_unplaced]
  split
  · rw [Reading.since_val, Reading.since_val]
    refine Reading.andThen_unplaced (arrayLength_unplaced s.advance_unplaced) fun n t _ _ => ?_
    refine Reading.andThen_unplaced (Reading.expect_unplaced t .rightBracket) fun _ u _ _ => ?_
    refine Reading.andThen_unplaced (Reading.expect_unplaced u .semicolon) fun semi v _ _ => ?_
    exact Reading.node_unplaced rfl fun site => rfl
  · refine Reading.andThen_unplaced (initializer_unplaced rfl) fun init t _ _ => ?_
    refine Reading.andThen_unplaced (Reading.expect_unplaced t .semicolon) fun semi u _ _ => ?_
    exact Reading.node_unplaced rfl fun site => rfl

theorem declaration_unplaced (s : Parser) :
    (declaration s.unplaced).1 = unplacedOutcome Stmt.unplaced (declaration s).1 := by
  refine Progress.andThen_unplaced (Progress.ident_unplaced s) fun type t _ _ => ?_
  refine Reading.andThen_unplaced (Progress.ident_unplaced t) fun name u _ _ => ?_
  exact declarationRest_unplaced type name u

theorem value_unplaced (s : Parser) :
    (returnStmt.value s.unplaced).1 = unplacedOutcome (Option.map Expr.unplaced) (returnStmt.value s).1 := by
  rw [returnStmt.value, returnStmt.value, check_unplaced]
  split
  · rfl
  · exact Progress.map_unplaced (expression_unplaced .assignment rfl) fun _ => rfl

theorem returnStmt_unplaced (s : Parser) :
    (returnStmt s.unplaced).1 = unplacedOutcome Stmt.unplaced (returnStmt s).1 := by
  refine Progress.andThen_unplaced (Reading.expect_unplaced s .returnKw) fun kw t _ _ => ?_
  refine Reading.andThen_unplaced (value_unplaced t) fun v u _ _ => ?_
  refine Reading.andThen_unplaced (Reading.expect_unplaced u .semicolon) fun semi w _ _ => ?_
  exact Reading.node_unplaced rfl fun site => rfl

theorem condition_unplaced (s : Parser) :
    (condition s.unplaced).1 = unplacedOutcome Expr.unplaced (condition s).1 := by
  refine Progress.andThen_unplaced (Reading.expect_unplaced s .leftParen) fun _ t _ _ => ?_
  refine Reading.andThen_unplaced (expression_unplaced .assignment rfl) fun c u _ _ => ?_
  exact Reading.andThen_unplaced (Reading.expect_unplaced u .rightParen) fun _ _ _ _ => rfl

theorem startsDeclaration_unplaced (s : Parser) : s.unplaced.startsDeclaration = s.startsDeclaration := by
  rw [startsDeclaration, startsDeclaration, check_unplaced, peekAt_unplaced, Token.unplaced_kind]

theorem forInit_unplaced (s : Parser) :
    (forInit s.unplaced).1 = unplacedOutcome Stmt.unplaced (forInit s).1 := by
  rw [forInit, forInit, check_unplaced, startsDeclaration_unplaced]
  split
  · exact emptyStmt_unplaced s
  split
  · exact declaration_unplaced s
  · exact exprStmt_unplaced s

theorem unrolledFor_unplaced (s : Parser) (init : Stmt) (c step : Expr) (body : Stmt) {span span' : Span}
    (hspan : span' = .nowhere) :
    s.unplaced.unrolledFor init.unplaced c.unplaced step.unplaced body.unplaced span' =
      ((s.unrolledFor init c step body span).1.unplaced, (s.unrolledFor init c step body span).2.unplaced) := by
  rw [hspan, unrolledFor, Stmt.unplaced_span, Expr.unplaced_span]
  rfl

mutual

theorem statement_unplaced {s s' : Parser} (hs : s' = s.unplaced) :
    (statement s').1 = unplacedOutcome Stmt.unplaced (statement s).1 := by
  subst hs
  rw [statement, statement, peek_unplaced, Token.unplaced_kind]
  cases hk : s.peek.kind with
  | ifKw =>
    refine Progress.andThen_unplaced (Reading.expect_unplaced s .ifKw) fun kw t ht _ => ?_
    refine Reading.andThen_unplaced (condition_unplaced t) fun c u hu _ => ?_
    refine Reading.andThen_unplaced (statement_unplaced rfl) fun x v hv _ => ?_
    dsimp only
    rw [check_unplaced]
    split
    · have := v.size_advance_le
      rw [Reading.since_val, Reading.since_val]
      refine Reading.andThen_unplaced (statement_unplaced v.advance_unplaced) fun y w _ _ => ?_
      exact Reading.node_unplaced (by simp) fun site => rfl
    · exact Reading.node_unplaced (by simp) fun site => rfl
  | whileKw =>
    refine Progress.andThen_unplaced (Reading.expect_unplaced s .whileKw) fun kw t ht _ => ?_
    refine Reading.andThen_unplaced (condition_unplaced t) fun c u hu _ => ?_
    refine Reading.andThen_unplaced (statement_unplaced rfl) fun x v hv _ => ?_
    exact Reading.node_unplaced (by simp) fun site => rfl
  | forKw =>
    refine Progress.andThen_unplaced (Reading.expect_unplaced s .forKw) fun kw t ht _ => ?_
    refine Reading.andThen_unplaced (Reading.expect_unplaced t .leftParen) fun _ u hu _ => ?_
    refine Reading.andThen_unplaced (forInit_unplaced u) fun init v hv _ => ?_
    refine Reading.andThen_unplaced (expression_unplaced .assignment rfl) fun c w hw _ => ?_
    refine Reading.andThen_unplaced (Reading.expect_unplaced w .semicolon) fun _ x hx _ => ?_
    refine Reading.andThen_unplaced (expression_unplaced .assignment rfl) fun step y hy _ => ?_
    refine Reading.andThen_unplaced (Reading.expect_unplaced y .rightParen) fun _ z hz _ => ?_
    refine Reading.andThen_unplaced (statement_unplaced rfl) fun body r _ _ => ?_
    exact Reading.ok_unplaced (unrolledFor_unplaced r init c step body (by simp))
  | returnKw => exact returnStmt_unplaced s
  | leftBrace => exact Progress.map_unplaced (block_unplaced s) fun _ => rfl
  | semicolon => exact emptyStmt_unplaced s
  | _ =>
    dsimp only
    rw [startsDeclaration_unplaced]
    split
    · exact declaration_unplaced s
    · exact exprStmt_unplaced s
termination_by (s.size, 1)

theorem block_unplaced (s : Parser) :
    (block s.unplaced).1 =
      unplacedOutcome (fun b => (b.1.unplaced, Stmt.unplacedAll b.2)) (block s).1 := by
  rw [block, block]
  refine Progress.andThen_unplaced (Reading.expect_unplaced s .leftBrace) fun opening t ht _ => ?_
  refine Reading.andThen_unplaced (statements_unplaced t) fun body u _ _ => ?_
  refine Reading.andThen_unplaced (Reading.expect_unplaced u .rightBrace) fun closing v _ _ => ?_
  exact Reading.node_unplaced rfl fun site => rfl
termination_by (s.size, 0)

theorem statements_unplaced (s : Parser) :
    (statements s.unplaced).1 = unplacedOutcome Stmt.unplacedAll (statements s).1 := by
  rw [statements, statements, check_unplaced, isAtEnd_unplaced]
  split
  · rfl
  · refine Progress.andThen_unplaced (statement_unplaced rfl) fun first t ht _ => ?_
    exact Reading.andThen_unplaced (statements_unplaced t) fun rest u _ _ => rfl
termination_by (s.size, 2)

end

/-! ## Programs -/

theorem param_unplaced (s : Parser) : (param s.unplaced).1 = unplacedOutcome Binder.unplaced (param s).1 := by
  refine Progress.andThen_unplaced (Progress.ident_unplaced s) fun type t _ _ => ?_
  refine Reading.andThen_unplaced (Progress.ident_unplaced t) fun name u _ _ => ?_
  exact Reading.node_unplaced rfl fun site => rfl

theorem paramList_unplaced {s s' : Parser} (hs : s' = s.unplaced) :
    (paramList s').1 = unplacedOutcome (List.map Binder.unplaced) (paramList s).1 := by
  subst hs
  rw [paramList, paramList]
  refine Progress.andThen_unplaced (param_unplaced s) fun p t ht _ => ?_
  dsimp only
  rw [check_unplaced]
  split
  · have := t.size_advance_le
    rw [Reading.since_val, Reading.since_val]
    exact Reading.andThen_unplaced (paramList_unplaced t.advance_unplaced) fun ps u _ _ => rfl
  · rfl
termination_by s.size

theorem params_unplaced (s : Parser) :
    (params s.unplaced).1 = unplacedOutcome (List.map Binder.unplaced) (params s).1 := by
  rw [params, params, check_unplaced]
  split
  · rfl
  · exact paramList_unplaced rfl

theorem function_unplaced (s : Parser) :
    (function s.unplaced).1 = unplacedOutcome Func.unplaced (function s).1 := by
  refine Progress.andThen_unplaced (Progress.ident_unplaced s) fun returns t _ _ => ?_
  refine Reading.andThen_unplaced (Progress.ident_unplaced t) fun name u _ _ => ?_
  refine Reading.andThen_unplaced (Reading.expect_unplaced u .leftParen) fun _ v _ _ => ?_
  refine Reading.andThen_unplaced (params_unplaced v) fun params w _ _ => ?_
  refine Reading.andThen_unplaced (Reading.expect_unplaced w .rightParen) fun _ x _ _ => ?_
  refine Reading.andThen_unplaced (block_unplaced x) fun body y _ _ => ?_
  exact Reading.node_unplaced rfl fun site => rfl

theorem functions_unplaced (s : Parser) :
    (functions s.unplaced).1 = unplacedOutcome (List.map Func.unplaced) (functions s).1 := by
  rw [functions, functions, isAtEnd_unplaced]
  split
  · rfl
  · refine Progress.andThen_unplaced (function_unplaced s) fun f t ht _ => ?_
    exact Reading.andThen_unplaced (functions_unplaced t) fun fs u _ _ => rfl
termination_by s.size

/-- **Parsing a program commutes with forgetting places.** -/
theorem program_unplaced (s : Parser) :
    (program s.unplaced).1 = unplacedOutcome Program.unplaced (program s).1 := by
  refine Reading.andThen_unplaced (functions_unplaced s) fun fs t _ _ => ?_
  refine Reading.node_unplaced ?_ fun site => rfl
  rw [List.getLast?_map]
  cases fs.getLast? with
  | none => rw [Option.map_none, peek_unplaced, Token.unplaced_span]
  | some f => rw [Option.map_some, peek_unplaced]; rfl

end Parser

end MicroC
