import MicroC.Proofs.Parser.Attempts
import MicroC.Proofs.Parser.Earliest

/-!
# The parser stops

Each function of the grammar ends as the step of the parser from the same place does, if it is given sixteen nested
calls for each token ahead: one for each layer of an expression, and some for the functions around it.

* `expression_ends`, `statement_ends`, `program_ends`: attempts with enough nested calls.
* **`parser_stops`**: the parser reads one token after the other and stops.
* `parseProgram_eq_ok_iff`: parsing by attempts.
-/

namespace MicroC

open MicroC.Parser

namespace Attempt

variable {tokens : List Token} {c : Cursor} {s : Parser}

/-! ## Expressions -/

theorem rank_le (l : Level) : l.rank ≤ 7 := by
  cases l <;> decide

theorem expression_of_chain {l : Level} (hl : l.isChain = true) (n : Nat) :
    expression (n + 1) l = expression n l.tighter >>= operators n l := by
  cases l with
  | sign | atom => cases hl
  | _ => rfl

theorem eatOperator_none {l : Level} (h : c.At tokens s) (hop : l.operator? s.peek.kind = none) :
    eatOperator l c = some (.ok none, c) := by
  refine (bind_ok (peek_eq h)).trans ?_
  rw [hop]
  rfl

theorem eatOperator_some {l : Level} {op : BinaryOp} (h : c.At tokens s) (hop : l.operator? s.peek.kind = some op) :
    eatOperator l c = some (.ok (some (op, s.peek.span)), c.next) := by
  refine (bind_ok (peek_eq h)).trans ?_
  rw [hop]
  exact bind_ok (advance_eq h (Level.ne_eof_of_operator? hop))

theorem literal_ends (h : c.At tokens s) (hk : s.peek.kind ≠ .eof) (node : Except ParseFault (Site → Expr))
    (hnode : node ≠ .error .nonAssociative) :
    Ends tokens (advance >>= fun _ => literal s.peek node) c (literalOutcome s node) := by
  refine .advancing h hk ?_
  cases node with
  | error fault => exact .fail (h.next hk) fun hfault => hnode (congrArg _ hfault)
  | ok f => exact .node (h.next hk) _ _

theorem ident_eq (h : c.At tokens s) (hc : s.check .identifier = true) :
    ident c = some (.ok ⟨s.peek.lexeme, s.peek.span⟩, c.next) :=
  bind_ok (expect_eq h hc (by decide))

theorem ident_andThen {β : Type} {f : Ident → (t : Parser) → Reading t β} (hc : s.check .identifier = true) :
    ((Progress.ident s).andThen fun name t _ => f name t).1 = (f ⟨s.peek.lexeme, s.peek.span⟩ s.advance).1 := by
  have hread : (Progress.ident s).1 = (.ok ⟨s.peek.lexeme, s.peek.span⟩, s.advance) :=
    Progress.ident_eq_ok.2 ⟨hc, rfl, rfl⟩
  generalize Progress.ident s = p at hread
  obtain ⟨⟨o, t⟩, ht⟩ := p
  cases hread
  rfl

mutual

/-- **An attempt at an expression ends.** The layers around an operand read nothing, so each of them has to be paid for
by the token behind it. -/
theorem expression_ends (n : Nat) (l : Level) {c : Cursor} {s : Parser} (h : c.At tokens s)
    (hn : 16 * s.size + l.rank + 1 ≤ n) : Ends tokens (expression n l) c (Parser.expression l s).1 := by
  cases n with
  | zero => omega
  | succ n =>
    by_cases hl : l.isChain = true
    · have := rank_tighter_lt hl
      rw [expression_of_chain hl, expression_chain hl]
      refine .progress (expression_ends n l.tighter h (by omega)) fun lhs d t ht hd => ?_
      exact operators_ends n l lhs hd (by omega)
    · obtain hl' | hl' : l = .sign ∨ l = .atom := by
        cases l <;> simp_all [Level.isChain]
      · subst hl'
        rw [expression]
        refine .peeking h ?_
        cases hop : UnaryOp.ofToken? s.peek.kind with
        | none =>
          rw [expression_unsigned hop]
          exact expression_ends n .power h (Nat.le_of_succ_le_succ hn)
        | some op =>
          have hk := UnaryOp.ne_eof_of_ofToken? hop
          have hsize := size_advance_lt hk
          rw [expression_signed hop]
          refine .advancing h hk (.reading (r := (Parser.expression .sign s.advance).reading) ?_ ?_)
          · exact expression_ends n .sign (h.next hk) (by omega)
          · exact fun x d t _ hd => .node hd _ _
      · subst hl'
        exact atom_ends n h (by omega)
termination_by (n, 0)

theorem atom_ends (n : Nat) {c : Cursor} {s : Parser} (h : c.At tokens s) (hn : 16 * s.size ≤ n) :
    Ends tokens (expression (n + 1) .atom) c (Parser.expression .atom s).1 := by
  rw [expression, expression_atom]
  refine .peeking h ?_
  cases hk : s.peek.kind
  case intLiteral =>
    refine literal_ends h (by rw [hk]; decide) _ fun hnode => ?_
    split at hnode <;> cases hnode
  case floatLiteral =>
    refine literal_ends h (by rw [hk]; decide) _ fun hnode => ?_
    split at hnode <;> cases hnode
  case stringLiteral => exact literal_ends h (by rw [hk]; decide) _ nofun
  case leftParen =>
    have hread : s.peek.kind ≠ .eof := by rw [hk]; decide
    have hsize := size_advance_lt hread
    refine .advancing h hread (.reading (r := (Parser.expression .assignment s.advance).reading) ?_ ?_)
    · exact expression_ends n .assignment (h.next hread) (by have := rank_le .assignment; omega)
    · exact fun e d t _ hd => .reading (.expect hd .rightParen) fun _ _ _ _ hd' => .pure hd' e
  case identifier =>
    have hread : s.peek.kind ≠ .eof := by rw [hk]; decide
    refine Ends.step (peekAt_one_eq h hread) (.refl c) ?_
    rw [peekAt_one hread]
    by_cases hp : s.advance.peek.kind = .leftParen
    · rw [if_pos hp]
      exact call_ends n h hk hp hn
    · rw [if_neg hp]
      exact reference_ends n h hk hp hn
  all_goals exact .fail h (by decide)
termination_by (n, 2)

theorem call_ends (n : Nat) {c : Cursor} {s : Parser} (h : c.At tokens s) (hk : s.peek.kind = .identifier)
    (hp : s.advance.peek.kind = .leftParen) (hn : 16 * s.size ≤ n) :
    Ends tokens (call n) c ((Progress.ident s).andThen fun name t _ => behindName name t).1 := by
  have hread : s.peek.kind ≠ .eof := by rw [hk]; decide
  have hname : s.check .identifier = true := beq_iff_eq.2 hk
  have hopen : s.advance.check .leftParen = true := beq_iff_eq.2 hp
  have hsize := size_advance_lt hread
  have hsize' := size_advance_lt_of_check hopen (by decide)
  have hnext := h.next hread
  cases n with
  | zero => omega
  | succ n =>
    rw [call, ident_andThen hname, behindName, if_pos hopen]
    refine Ends.step (ident_eq h hname) c.passes_next (.expecting hnext hopen (by decide) ?_)
    refine .reading (r := Parser.arguments s.advance.advance) ?_ fun args d t _ hd => ?_
    · have hbehind := hnext.next (kind_of_check (by decide) hopen)
      rw [Parser.arguments]
      exact .unlessAhead hbehind [] (argumentList_ends n hbehind (by omega))
    · exact .reading (.expect hd .rightParen) fun _ _ _ _ hd' => .node hd' _ _
termination_by (n, 0)

theorem reference_ends (n : Nat) {c : Cursor} {s : Parser} (h : c.At tokens s) (hk : s.peek.kind = .identifier)
    (hp : s.advance.peek.kind ≠ .leftParen) (hn : 16 * s.size ≤ n) :
    Ends tokens (reference n) c ((Progress.ident s).andThen fun name t _ => behindName name t).1 := by
  have hread : s.peek.kind ≠ .eof := by rw [hk]; decide
  have hname : s.check .identifier = true := beq_iff_eq.2 hk
  have hopen : ¬ s.advance.check .leftParen = true := fun hc => hp (eq_of_beq hc)
  have hsize := size_advance_lt hread
  have hnext := h.next hread
  cases n with
  | zero => omega
  | succ n =>
    rw [reference, ident_andThen hname, behindName, if_neg hopen]
    refine Ends.step (ident_eq h hname) c.passes_next (.eating hnext (fun hb hbehind => ?_) fun hb => ?_)
    · have hsize' := size_advance_lt_of_check hb (by decide)
      rw [if_pos hb]
      refine .reading (r := (Parser.expression .assignment s.advance.advance).reading) ?_ fun i d t _ hd => ?_
      · exact expression_ends n .assignment hbehind (by have := rank_le .assignment; omega)
      · exact .reading (.expect hd .rightBracket) fun _ _ _ _ hd' => .node hd' _ _
    · rw [if_neg (ne_true_of_eq_false hb)]
      exact .node hnext _ _
termination_by (n, 0)

theorem argumentList_ends (n : Nat) {c : Cursor} {s : Parser} (h : c.At tokens s) (hn : 16 * s.size + 9 ≤ n) :
    Ends tokens (argumentList n) c (Parser.argumentList s).1 := by
  cases n with
  | zero => omega
  | succ n =>
    have hfirst := expression_ends n .assignment h (by have := rank_le .assignment; omega)
    rw [argumentList, Parser.argumentList]
    refine .progress hfirst fun e d t ht hd => .eating hd (fun hc hbehind => ?_) fun hc => ?_
    · have hsize := size_advance_lt_of_check hc (by decide)
      rw [if_pos hc]
      exact .reading (r := (Parser.argumentList t.advance).reading) (argumentList_ends n hbehind (by omega))
        fun es _ _ _ hd' => .pure hd' (e :: es)
    · rw [if_neg (ne_true_of_eq_false hc)]
      exact .pure hd [e]
termination_by (n, 0)

theorem operators_ends (n : Nat) (l : Level) (lhs : Expr) {c : Cursor} {s : Parser} (h : c.At tokens s)
    (hn : 16 * s.size + 1 ≤ n) : Ends tokens (operators n l lhs) c (Parser.operators l lhs s).1 := by
  cases n with
  | zero => omega
  | succ n =>
    have hrank := rank_le l
    have hrank' := rank_le l.tighter
    rw [operators]
    cases hop : l.operator? s.peek.kind with
    | none =>
      rw [operators_stop hop]
      exact Ends.step (eatOperator_none h hop) (.refl c) (.pure h lhs)
    | some op =>
      have hk := Level.ne_eof_of_operator? hop
      have hsize := size_advance_lt hk
      have hnext := h.next hk
      rw [operators_operator hop]
      refine Ends.step (eatOperator_some h hop) c.passes_next ?_
      dsimp only
      cases l.grouping with
      | right =>
        refine .reading (r := (Parser.expression l s.advance).reading) (expression_ends n l hnext (by omega)) ?_
        exact fun rhs d t _ hd => .node hd _ _
      | once =>
        refine .reading (r := (Parser.expression l.tighter s.advance).reading)
          (expression_ends n l.tighter hnext (by omega)) fun rhs d t _ hd => ?_
        cases hsecond : l.operator? t.peek.kind with
        | none =>
          refine Ends.step (eatOperator_none hd hsecond) (.refl d) ?_
          exact .node hd _ _
        | some op' =>
          have hk' := Level.ne_eof_of_operator? hsecond
          refine Ends.step (eatOperator_some hd hsecond) d.passes_next ?_
          have hprevious : d.next.buffer[d.position]? = some t.peek := hd.peek_eq
          refine Ends.step (previous_eq rfl hprevious) (.refl d.next) ?_
          refine ⟨_, d.next, t.advance, rfl, rfl, hd.next hk', .refl _, fun e he _ => ?_⟩
          cases he
          exact ⟨Nat.succ_pos _, hprevious⟩
      | left =>
        refine .reading (r := (Parser.expression l.tighter s.advance).reading)
          (expression_ends n l.tighter hnext (by omega)) fun rhs d t ht hd => ?_
        refine .making hd _ fun e he => ?_
        exact operators_ends n l _ he (by rw [size_binary]; omega)
termination_by (n, 0)

end

theorem value_ends {n : Nat} (h : c.At tokens s) (hn : 16 * s.size + 8 ≤ n) :
    Ends tokens (expression n .assignment) c (Parser.expression .assignment s).1 :=
  expression_ends n .assignment h hn

/-! ## Statements -/

theorem emptyStmt_ends (h : c.At tokens s) (hc : s.check .semicolon = true) :
    Ends tokens emptyStmt c (Parser.emptyStmt s).1 :=
  .progress (r := Progress.expect s .semicolon) (.reads h hc) fun _ _ _ _ hd => .node hd _ _

theorem exprStmt_ends {n : Nat} (h : c.At tokens s) (hn : 16 * s.size + 8 ≤ n) :
    Ends tokens (exprStmt n) c (Parser.exprStmt s).1 :=
  .progress (value_ends h hn) fun _ _ _ _ hd =>
    .reading (.expect hd .semicolon) fun _ _ _ _ hd' => .node hd' _ _

theorem arrayLength_ends (h : c.At tokens s) : Ends tokens arrayLength c (Parser.arrayLength s).1 := by
  refine .reading (.expect h .intLiteral) fun token d t _ hd => ?_
  cases word? token.lexeme with
  | none => exact .fail hd (by decide)
  | some v => exact .node hd _ _

theorem initializer_ends {n : Nat} (h : c.At tokens s) (hn : 16 * s.size + 8 ≤ n) :
    Ends tokens (initializer n) c (Parser.declarationRest.initializer s).1 := by
  refine .eating h (fun hc hbehind => ?_) fun hc => ?_
  · have hsize := size_advance_lt_of_check hc (by decide)
    rw [declarationRest.initializer, if_pos hc]
    exact .map (value_ends hbehind (by omega)) some
  · rw [declarationRest.initializer, if_neg (ne_true_of_eq_false hc)]
    exact .pure h none

theorem declaration_ends {n : Nat} (h : c.At tokens s) (hn : 16 * s.size + 8 ≤ n) :
    Ends tokens (declaration n) c (Parser.declaration s).1 := by
  refine .progress (.ident h) fun type d t ht hd => ?_
  refine .reading (r := (Progress.ident t).reading) (.ident hd) fun name e u hu he => ?_
  refine .eating he (fun hc hbehind => ?_) fun hc => ?_
  · rw [declarationRest, if_pos hc]
    refine .reading (arrayLength_ends hbehind) fun n _ _ _ hf => ?_
    refine .reading (.expect hf .rightBracket) fun _ _ _ _ hg => ?_
    exact .reading (.expect hg .semicolon) fun _ _ _ _ hd' => .node hd' _ _
  · rw [declarationRest, if_neg (ne_true_of_eq_false hc)]
    refine .reading (initializer_ends he (by omega)) fun init _ _ _ hf => ?_
    exact .reading (.expect hf .semicolon) fun _ _ _ _ hd' => .node hd' _ _

theorem returnStmt_ends {n : Nat} (h : c.At tokens s) (hn : 16 * s.size + 8 ≤ n) :
    Ends tokens (returnStmt n) c (Parser.returnStmt s).1 := by
  refine .progress (.expect h .returnKw) fun kw d t ht hd => ?_
  refine .reading (r := Parser.returnStmt.value t) (.unlessAhead hd none ?_) fun v _ _ _ he => ?_
  · exact .map (value_ends hd (by omega)) some
  · exact .reading (.expect he .semicolon) fun _ _ _ _ hd' => .node hd' _ _

theorem condition_ends {n : Nat} (h : c.At tokens s) (hn : 16 * s.size + 8 ≤ n) :
    Ends tokens (condition n) c (Parser.condition s).1 := by
  refine .progress (.expect h .leftParen) fun _ d t ht hd => ?_
  refine .reading (r := (Parser.expression .assignment t).reading)
    (value_ends hd (by omega)) fun e _ _ _ he => ?_
  exact .reading (.expect he .rightParen) fun _ _ _ _ hd' => .pure hd' e

/-- Two names ahead tell a declaration from an expression. -/
theorem simpleStmt_ends {n : Nat} (h : c.At tokens s) (hn : 16 * s.size + 8 ≤ n) :
    Ends tokens (simpleStmt n) c (if s.startsDeclaration then Parser.declaration s else Parser.exprStmt s).1 := by
  refine .peeking h ?_
  rw [startsDeclaration, Parser.check]
  by_cases hk : s.peek.kind = .identifier
  · have hread : s.peek.kind ≠ .eof := by rw [hk]; decide
    rw [if_pos hk, hk]
    refine Ends.step (peekAt_one_eq h hread) (.refl c) ?_
    by_cases hk' : (s.peekAt 1).kind = .identifier
    · rw [if_pos hk', hk']
      exact declaration_ends h hn
    · have hstarts : ¬ (TokenKind.identifier == .identifier && (s.peekAt 1).kind == .identifier) = true := fun hc =>
        hk' (eq_of_beq (Bool.and_eq_true_iff.1 hc).2)
      rw [if_neg hk']
      simp only [if_neg hstarts]
      exact exprStmt_ends h hn
  · have hstarts : ¬ (s.peek.kind == .identifier && (s.peekAt 1).kind == .identifier) = true := fun hc =>
      hk (eq_of_beq (Bool.and_eq_true_iff.1 hc).1)
    rw [if_neg hk]
    simp only [if_neg hstarts]
    exact exprStmt_ends h hn

theorem forInit_ends {n : Nat} (h : c.At tokens s) (hn : 16 * s.size + 8 ≤ n) :
    Ends tokens (forInit n) c (Parser.forInit s).1 := by
  refine .peeking h ?_
  rw [Parser.forInit]
  by_cases hk : s.peek.kind = .semicolon
  · have hc : s.check .semicolon = true := beq_iff_eq.2 hk
    rw [if_pos hk, if_pos hc]
    exact emptyStmt_ends h hc
  · have hc : ¬ s.check .semicolon = true := fun hc => hk (eq_of_beq hc)
    rw [if_neg hk, if_neg hc]
    exact simpleStmt_ends h hn

theorem unrolledFor_ends (h : c.At tokens s) (init : Stmt) (e step : Expr) (body : Stmt) (span : Span) :
    Ends tokens (unrolledFor init e step body span) c
      (.ok (s.unrolledFor init e step body span).1, (s.unrolledFor init e step body span).2) :=
  .numbering h _ fun _ h => .numbering h _ fun _ h => .numbering h _ fun _ h => .numbering h _ fun _ h =>
    .numbering h _ fun _ h => .pure h _

mutual

/-- **An attempt at a statement ends.** -/
theorem statement_ends (n : Nat) {c : Cursor} {s : Parser} (h : c.At tokens s) (hn : 16 * s.size + 10 ≤ n) :
    Ends tokens (statement n) c (Parser.statement s).1 := by
  cases n with
  | zero => omega
  | succ n =>
    rw [statement]
    refine .peeking h ?_
    cases hk : s.peek.kind
    case ifKw =>
      rw [Parser.statement]
      simp only [hk]
      refine .progress (.expect h .ifKw) fun kw d t ht hd => ?_
      refine .reading (r := (Parser.condition t).reading) (condition_ends hd (by omega)) fun e f u hu hf => ?_
      refine .reading (r := (Parser.statement u).reading) (statement_ends n hf (by omega)) fun x g v hv hg => ?_
      refine .eating hg (fun hc hbehind => ?_) fun hc => ?_
      · have hsize := size_advance_lt_of_check hc (by decide)
        rw [if_pos hc]
        refine .reading (r := (Parser.statement v.advance).reading) (statement_ends n hbehind (by omega)) ?_
        exact fun y _ _ _ hd' => .node hd' _ _
      · rw [if_neg (ne_true_of_eq_false hc)]
        exact .node hg _ _
    case whileKw =>
      rw [Parser.statement]
      simp only [hk]
      refine .progress (.expect h .whileKw) fun kw d t ht hd => ?_
      refine .reading (r := (Parser.condition t).reading) (condition_ends hd (by omega)) fun e f u hu hf => ?_
      refine .reading (r := (Parser.statement u).reading) (statement_ends n hf (by omega)) fun x g v hv hg => ?_
      exact .node hg _ _
    case forKw =>
      rw [Parser.statement]
      simp only [hk]
      refine .progress (.expect h .forKw) fun kw d t ht hd => ?_
      refine .reading (.expect hd .leftParen) fun _ d t ht hd => ?_
      refine .reading (r := (Parser.forInit t).reading) (forInit_ends hd (by omega)) fun init d t ht hd => ?_
      refine .reading (r := (Parser.expression .assignment t).reading)
        (value_ends hd (by omega)) fun e d t ht hd => ?_
      refine .reading (.expect hd .semicolon) fun _ d t ht hd => ?_
      refine .reading (r := (Parser.expression .assignment t).reading)
        (value_ends hd (by omega)) fun step d t ht hd => ?_
      refine .reading (.expect hd .rightParen) fun _ d t ht hd => ?_
      refine .reading (r := (Parser.statement t).reading) (statement_ends n hd (by omega)) fun body d t ht hd => ?_
      exact unrolledFor_ends hd init e step body _
    case returnKw =>
      rw [Parser.statement]
      simp only [hk]
      exact returnStmt_ends h (by omega)
    case leftBrace =>
      rw [Parser.statement]
      simp only [hk]
      exact .map (block_ends n h (by omega)) fun b => Stmt.block b.1 b.2
    case semicolon =>
      rw [Parser.statement]
      simp only [hk]
      exact emptyStmt_ends h (beq_iff_eq.2 hk)
    all_goals
      have hle : 16 * s.size + 8 ≤ n := by omega
      rw [statement_of_not_leadsStmt (by rw [hk]; rfl), Parser.forInit, if_neg (by rw [Parser.check, hk]; decide)]
      exact simpleStmt_ends h hle
termination_by n

theorem block_ends (n : Nat) {c : Cursor} {s : Parser} (h : c.At tokens s) (hn : 16 * s.size + 1 ≤ n) :
    Ends tokens (block n) c (Parser.block s).1 := by
  cases n with
  | zero => omega
  | succ n =>
    rw [block, Parser.block]
    refine .progress (.expect h .leftBrace) fun opening d t ht hd => ?_
    refine .reading (statements_ends n hd (by omega)) fun body _ _ _ he => ?_
    exact .reading (.expect he .rightBrace) fun _ _ _ _ hd' => .node hd' _ _
termination_by n

theorem statements_ends (n : Nat) {c : Cursor} {s : Parser} (h : c.At tokens s) (hn : 16 * s.size + 11 ≤ n) :
    Ends tokens (statements n) c (Parser.statements s).1 := by
  cases n with
  | zero => omega
  | succ n =>
    rw [statements, Parser.statements]
    refine .checking h ?_
    cases hbrace : s.check .rightBrace with
    | true => exact .pure h []
    | false =>
      rw [if_neg Bool.false_ne_true, Bool.false_or]
      refine .checking h ?_
      rw [isAtEnd]
      cases hend : s.check .eof with
      | true => exact .pure h []
      | false =>
        refine .progress (statement_ends n h (by omega)) fun first d t ht hd => ?_
        exact .reading (statements_ends n hd (by omega)) fun rest _ _ _ hd' => .pure hd' (first :: rest)
termination_by n

end

/-! ## Programs -/

theorem param_ends (h : c.At tokens s) : Ends tokens param c (Parser.param s).1 := by
  refine .progress (.ident h) fun type d t _ hd => ?_
  exact .reading (r := (Progress.ident t).reading) (.ident hd) fun name _ _ _ hd' => .node hd' _ _

theorem paramList_ends (n : Nat) {c : Cursor} {s : Parser} (h : c.At tokens s) (hn : s.size + 1 ≤ n) :
    Ends tokens (paramList n) c (Parser.paramList s).1 := by
  induction n generalizing c s with
  | zero => omega
  | succ n ih =>
    rw [paramList, Parser.paramList]
    refine .progress (param_ends h) fun p d t ht hd => .eating hd (fun hc hbehind => ?_) fun hc => ?_
    · have hsize := size_advance_lt_of_check hc (by decide)
      rw [if_pos hc]
      exact .reading (r := (Parser.paramList t.advance).reading) (ih hbehind (by omega))
        fun ps _ _ _ hd' => .pure hd' (p :: ps)
    · rw [if_neg (ne_true_of_eq_false hc)]
      exact .pure hd [p]

theorem function_ends {n : Nat} (h : c.At tokens s) (hn : 16 * s.size + 1 ≤ n) :
    Ends tokens (function n) c (Parser.function s).1 := by
  refine .progress (.ident h) fun returns d t ht hd => ?_
  refine .reading (r := (Progress.ident t).reading) (.ident hd) fun name d u hu hd => ?_
  refine .reading (.expect hd .leftParen) fun _ d v hv hd => ?_
  refine .reading (r := Parser.params v) (.unlessAhead hd [] (paramList_ends n hd (by omega))) fun ps d w hw hd => ?_
  refine .reading (.expect hd .rightParen) fun _ d x hx hd => ?_
  refine .reading (r := (Parser.block x).reading) (block_ends n hd (by omega)) fun body _ _ _ hd => ?_
  exact .node hd _ _

theorem functions_ends (n : Nat) {c : Cursor} {s : Parser} (h : c.At tokens s) (hn : 16 * s.size + 2 ≤ n) :
    Ends tokens (functions n) c (Parser.functions s).1 := by
  induction n generalizing c s with
  | zero => omega
  | succ n ih =>
    rw [functions, Parser.functions]
    refine .checking h ?_
    rw [isAtEnd]
    cases hend : s.check .eof with
    | true => exact .pure h []
    | false =>
      refine .progress (function_ends h (by omega)) fun f d t ht hd => ?_
      exact .reading (ih hd (by omega)) fun fs _ _ _ hd' => .pure hd' (f :: fs)

/-- **An attempt at a program ends.** -/
theorem program_ends {n : Nat} (h : c.At tokens s) (hn : 16 * s.size + 2 ≤ n) :
    Ends tokens (program n) c (Parser.program s).1 :=
  .peeking h (.reading (functions_ends n h hn) fun _ _ _ _ hd => .node hd _ _)

end Attempt

/-! ## The parser -/

open Attempt in
/-- **The parser stops.** From the start, and from wherever it was led before, the parser comes to a tree or an error
within sixteen nested calls for each token, and more of them change nothing. On its way it reads the tokens at the
indices from its place onwards one after the other, goes no further than the first end of file, and asks for no token
that the buffer does not have, also when it looks back at a second operator. A statement or an expression that is
parsed has at least one token. -/
theorem parser_stops (tokens : List Token) :
    (Cursor.start tokens).At tokens (.ofTokens tokens) ∧
    ∀ (c : Cursor) (s : Parser) (n : Nat), c.At tokens s → 16 * (tokens.length + 1) ≤ n →
      Ends tokens (program n) c s.program.1 ∧
      Ends tokens (statement n) c s.statement.1 ∧
      (∀ x d, statement n c = some (.ok x, d) → c.position < d.position) ∧
      ∀ l, Ends tokens (expression n l) c (s.expression l).1 ∧
        ∀ e d, expression n l c = some (.ok e, d) → c.position < d.position := by
  refine ⟨.start tokens, fun c s n h hn => ?_⟩
  have hsize := h.size_eq
  have hstatement := statement_ends n h (by omega)
  refine ⟨program_ends h (by omega), hstatement, fun x d => hstatement.lt_of_ok h, fun l => ?_⟩
  have hrank := rank_le l
  have hexpression := expression_ends n l h (by omega)
  exact ⟨hexpression, fun e d => hexpression.lt_of_ok h⟩

/-- `a == b == <end of file> c`, where the second operator is complained about and nothing behind it is read. -/
def twoEquals : List Token :=
  [⟨.identifier, "a", .point 1 1⟩, ⟨.equalsEquals, "==", .point 1 3⟩, ⟨.identifier, "b", .point 1 6⟩,
   ⟨.equalsEquals, "==", .point 1 8⟩, ⟨.eof, "", .point 1 11⟩, ⟨.identifier, "c", .point 1 12⟩]

theorem parser_stops_twoEquals :
    (Cursor.start twoEquals).At twoEquals (.ofTokens twoEquals) ∧ 16 * (twoEquals.length + 1) ≤ 112 ∧
    (∃ e d, Attempt.expression 112 .assignment (Cursor.start twoEquals) = some (.error e, d) ∧
      e.fault = .nonAssociative ∧ d.passed = [0, 1, 2, 3]) ∧
    ∀ l, Attempt.Ends twoEquals (Attempt.expression 112 l) (Cursor.start twoEquals)
      (Parser.expression l (.ofTokens twoEquals)).1 := by
  have hstart : (Cursor.start twoEquals).At twoEquals (.ofTokens twoEquals) := (parser_stops twoEquals).1
  have hn : 16 * (twoEquals.length + 1) ≤ 112 := by decide
  refine ⟨hstart, hn, ⟨_, _, rfl, rfl, rfl⟩, fun l => ?_⟩
  exact (((parser_stops twoEquals).2 _ _ 112 hstart hn).2.2.2 l).1

/-! ## Parsing by attempts -/

/-- A text is a program exactly when an attempt at it succeeds, and what the attempt comes to can be computed. -/
theorem parseProgram_eq_ok_iff {source : String} {n : Nat} {p : Program}
    (hn : 16 * ((scan source).tokens.length + 1) ≤ n) :
    parseProgram source = .ok p ↔
      (scan source).errors = [] ∧ ∃ d, Attempt.program n (.start (scan source).tokens) = some (.ok p, d) := by
  have hstart := Cursor.At.start (scan source).tokens
  have hsize := hstart.size_eq
  obtain ⟨o, d, t, hattempt, hprogram, -⟩ := Attempt.program_ends hstart (n := n) (by omega)
  refine parseSource_eq_ok.trans (and_congr_right fun _ => ⟨?_, ?_⟩)
  · rintro ⟨u, hu, -⟩
    cases hprogram.symm.trans hu
    exact ⟨d, hattempt⟩
  · rintro ⟨e, he⟩
    cases hattempt.symm.trans he
    obtain ⟨u, hfunctions, hahead⟩ := yieldsFuncs_of_program hprogram
    refine ⟨t, hprogram, ?_⟩
    rw [check_eq, hahead, ← check_eq]
    exact hfunctions.isAtEnd

end MicroC
