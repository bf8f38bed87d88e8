import MicroC.Proofs.Parser.Outcome

/-!
# Expressions as they are parsed

What a parser yields, as relations between the states before and after. A parsing function succeeds
exactly when its relation holds, so whatever is true of parsed trees is shown by induction over these
relations and never over the functions.

* `Yields`, `Continues`, `Arguments`, `ArgumentList`: the relations of the parsing functions.
* `expression_chain`, `expression_atom`, `operators_operator`: the functions, one step at a time.
* **`expression_eq_ok`**: an expression is parsed exactly when `Yields` says so.
-/

namespace MicroC

/-- The layers that are operands of the next tighter layer with binary operators between them. -/
def Level.isChain : Level → Bool
  | .sign | .atom => false
  | _ => true

namespace Parser

mutual

/-- From `s` an expression of layer `l` is read, which ends in state `t`. -/
inductive Yields : Level → Parser → Expr → Parser → Prop
  | layer {l : Level} {s t u : Parser} {lhs e : Expr} (hl : l.isChain = true)
      (hx : Yields l.tighter s lhs t) (ho : Continues l lhs t e u) : Yields l s e u
  | signed {s t : Parser} {op : UnaryOp} {x : Expr} (h : UnaryOp.ofToken? s.peek.kind = some op)
      (hx : Yields .sign s.advance x t) :
      Yields .sign s (.unary (t.fresh (s.peek.span.merge x.span)).1 op s.peek.span x)
        (t.fresh (s.peek.span.merge x.span)).2
  | unsigned {s t : Parser} {e : Expr} (h : UnaryOp.ofToken? s.peek.kind = none)
      (hx : Yields .power s e t) : Yields .sign s e t
  | int {s : Parser} {v : Int64} (h : s.peek.kind = .intLiteral)
      (hv : word? s.peek.lexeme = some v) :
      Yields .atom s (.int (s.advance.fresh s.peek.span).1 v) (s.advance.fresh s.peek.span).2
  | float {s : Parser} {v : Binary64} (h : s.peek.kind = .floatLiteral)
      (hv : Binary64.ofDecimal? s.peek.lexeme = some v) :
      Yields .atom s (.float (s.advance.fresh s.peek.span).1 v) (s.advance.fresh s.peek.span).2
  | string {s : Parser} (h : s.peek.kind = .stringLiteral) :
      Yields .atom s (.string (s.advance.fresh s.peek.span).1 (unquote s.peek.lexeme))
        (s.advance.fresh s.peek.span).2
  | paren {s t : Parser} {e : Expr} (h : s.peek.kind = .leftParen)
      (he : Yields .assignment s.advance e t) (hc : t.check .rightParen = true) :
      Yields .atom s e t.advance
  | var {s : Parser} (h : s.peek.kind = .identifier) (hp : s.advance.check .leftParen = false)
      (hb : s.advance.check .leftBracket = false) :
      Yields .atom s (.var (s.advance.fresh s.peek.span).1 ⟨s.peek.lexeme, s.peek.span⟩)
        (s.advance.fresh s.peek.span).2
  | index {s t : Parser} {i : Expr} (h : s.peek.kind = .identifier)
      (hb : s.advance.check .leftBracket = true) (hi : Yields .assignment s.advance.advance i t)
      (hc : t.check .rightBracket = true) :
      Yields .atom s
        (.index (t.advance.fresh (s.peek.span.merge t.peek.span)).1 ⟨s.peek.lexeme, s.peek.span⟩ i)
        (t.advance.fresh (s.peek.span.merge t.peek.span)).2
  | call {s t : Parser} {args : List Expr} (h : s.peek.kind = .identifier)
      (hp : s.advance.check .leftParen = true) (ha : Arguments s.advance.advance args t)
      (hc : t.check .rightParen = true) :
      Yields .atom s
        (.call (t.advance.fresh (s.peek.span.merge t.peek.span)).1 ⟨s.peek.lexeme, s.peek.span⟩ args)
        (t.advance.fresh (s.peek.span.merge t.peek.span)).2

/-- Behind an operand of layer `l` the operators of that layer make it an expression. -/
inductive Continues : Level → Expr → Parser → Expr → Parser → Prop
  | stop {l : Level} {lhs : Expr} {s : Parser} (h : l.operator? s.peek.kind = none) :
      Continues l lhs s lhs s
  | right {l : Level} {lhs rhs : Expr} {op : BinaryOp} {s t : Parser}
      (h : l.operator? s.peek.kind = some op) (hg : l.grouping = .right)
      (hx : Yields l s.advance rhs t) :
      Continues l lhs s
        (.binary (t.fresh (lhs.span.merge rhs.span)).1 op s.peek.span lhs rhs)
        (t.fresh (lhs.span.merge rhs.span)).2
  | once {l : Level} {lhs rhs : Expr} {op : BinaryOp} {s t : Parser}
      (h : l.operator? s.peek.kind = some op) (hg : l.grouping = .once)
      (hx : Yields l.tighter s.advance rhs t) (hn : l.operator? t.peek.kind = none) :
      Continues l lhs s
        (.binary (t.fresh (lhs.span.merge rhs.span)).1 op s.peek.span lhs rhs)
        (t.fresh (lhs.span.merge rhs.span)).2
  | left {l : Level} {lhs rhs e : Expr} {op : BinaryOp} {s t u : Parser}
      (h : l.operator? s.peek.kind = some op) (hg : l.grouping = .left)
      (hx : Yields l.tighter s.advance rhs t)
      (ho : Continues l (t.binary lhs op s.peek.span rhs).1 (t.binary lhs op s.peek.span rhs).2 e u) :
      Continues l lhs s e u

/-- The arguments of a call, up to the closing parenthesis. -/
inductive Arguments : Parser → List Expr → Parser → Prop
  | none {s : Parser} (h : s.check .rightParen = true) : Arguments s [] s
  | some {s t : Parser} {es : List Expr} (h : s.check .rightParen = false)
      (he : ArgumentList s es t) : Arguments s es t

/-- One or more expressions with commas between them. -/
inductive ArgumentList : Parser → List Expr → Parser → Prop
  | last {s t : Parser} {e : Expr} (he : Yields .assignment s e t) (h : t.check .comma = false) :
      ArgumentList s [e] t
  | more {s t u : Parser} {e : Expr} {es : List Expr} (he : Yields .assignment s e t)
      (h : t.check .comma = true) (hes : ArgumentList t.advance es u) : ArgumentList s (e :: es) u

end

/-- A layer of operators is a tighter expression and what its operators make of it. -/
theorem expression_chain {l : Level} (hl : l.isChain = true) (s : Parser) :
    (expression l s).1 = ((expression l.tighter s).andThen fun lhs t _ => operators l lhs t).1 := by
  cases l <;> first | exact absurd hl (by decide) | (rw [expression]; rfl)

theorem rank_tighter_lt {l : Level} (hl : l.isChain = true) : l.tighter.rank < l.rank := by
  cases l <;> first | exact absurd hl (by decide) | decide

/-! ## The functions, one step at a time -/

theorem expression_unsigned {s : Parser} (h : UnaryOp.ofToken? s.peek.kind = none) :
    (expression .sign s).1 = (expression .power s).1 := by
  conv => lhs; rw [expression]
  split
  · rfl
  · next hop => exact absurd (h.symm.trans hop) (by simp)

theorem expression_signed {s : Parser} {op : UnaryOp} (h : UnaryOp.ofToken? s.peek.kind = some op) :
    (expression .sign s).1 = ((expression .sign s.advance).reading.andThen fun x _ _ =>
      .node (s.peek.span.merge x.span) (.unary · op s.peek.span x)).1 := by
  conv => lhs; rw [expression]
  split
  · next hnone => exact absurd (hnone.symm.trans h) (by simp)
  · next hop =>
    cases hop.symm.trans h
    rfl

/-- What follows a name tells a call, an element of an array and a variable apart. -/
def behindName (name : Ident) (t : Parser) : Reading t Expr :=
  if t.check .leftParen then
    Reading.since ((arguments t.advance).andThen fun args u _ =>
      (Reading.expect u .rightParen).andThen fun close _ _ =>
        .node (name.span.merge close.span) (.call · name args)) t.size_advance_le
  else if t.check .leftBracket then
    Reading.since ((expression .assignment t.advance).reading.andThen fun i u _ =>
      (Reading.expect u .rightBracket).andThen fun close _ _ =>
        .node (name.span.merge close.span) (.index · name i)) t.size_advance_le
  else .node name.span (.var · name)

/-- A literal made of the token ahead. -/
def literalOutcome (s : Parser) : Except ParseFault (Site → Expr) → Except ParseError Expr × Parser
  | .error fault => (.error ⟨fault, s.peek⟩, s.advance)
  | .ok node => (.ok (node (s.advance.fresh s.peek.span).1), (s.advance.fresh s.peek.span).2)

theorem literal_val {s : Parser} {hs : s.peek.kind ≠ .eof} {node : Except ParseFault (Site → Expr)} :
    (literal hs node).1 = literalOutcome s node := by
  cases node <;> rfl

theorem literalOutcome_eq_ok {s t : Parser} {e : Expr} {node : Except ParseFault (Site → Expr)} :
    literalOutcome s node = (.ok e, t) ↔
      ∃ f, node = .ok f ∧ e = f (s.advance.fresh s.peek.span).1 ∧ t = (s.advance.fresh s.peek.span).2 := by
  cases node with
  | error fault => simp [literalOutcome]
  | ok f => simp [literalOutcome, eq_comm]

/-- The token ahead says which operand there is. -/
theorem expression_atom (s : Parser) :
    (expression .atom s).1 = match s.peek.kind with
      | .intLiteral => literalOutcome s <|
        match word? s.peek.lexeme with
        | some v => .ok (.int · v)
        | none => .error .integerOutOfRange
      | .floatLiteral => literalOutcome s <|
        match Binary64.ofDecimal? s.peek.lexeme with
        | some v => .ok (.float · v)
        | none => .error .invalidFloat
      | .stringLiteral => literalOutcome s (.ok (.string · (unquote s.peek.lexeme)))
      | .leftParen => ((expression .assignment s.advance).reading.andThen fun e t _ =>
          (Reading.expect t .rightParen).andThen fun _ _ _ => .pure e).1
      | .identifier => ((Progress.ident s).andThen fun name t _ => behindName name t).1
      | .eof => (.error ⟨.expectedExpression, s.peek⟩, s)
      | _ => (.error ⟨.noOperand, s.peek⟩, s) := by
  conv => lhs; rw [expression]
  split
  iterate 3
    next h =>
      simp only [h]
      exact literal_val
  iterate 3
    next h =>
      simp only [h]
      rfl
  split <;> first | contradiction | rfl

theorem operators_stop {l : Level} {lhs : Expr} {s : Parser} (h : l.operator? s.peek.kind = none) :
    (operators l lhs s).1 = (.ok lhs, s) := by
  rw [operators]
  split
  · rfl
  · next hop => exact absurd (h.symm.trans hop) (by simp)

theorem operators_operator {l : Level} {lhs : Expr} {s : Parser} {op : BinaryOp}
    (h : l.operator? s.peek.kind = some op) :
    (operators l lhs s).1 = match l.grouping with
      | .right => ((expression l s.advance).reading.andThen fun rhs _ _ =>
        .node (lhs.span.merge rhs.span) (.binary · op s.peek.span lhs rhs)).1
      | .once => ((expression l.tighter s.advance).reading.andThen fun rhs t _ =>
        if (l.operator? t.peek.kind).isSome then
          .fail ⟨.nonAssociative, t.peek⟩ t.advance t.size_advance_le
        else .node (lhs.span.merge rhs.span) (.binary · op s.peek.span lhs rhs)).1
      | .left => ((expression l.tighter s.advance).reading.andThen fun rhs t _ =>
        operators l (t.binary lhs op s.peek.span rhs).1 (t.binary lhs op s.peek.span rhs).2).1 := by
  conv => lhs; rw [operators]
  split
  · next hnone => exact absurd (hnone.symm.trans h) (by simp)
  · next hop =>
    cases hop.symm.trans h
    cases l.grouping <;> rfl

/-! ## The functions and the relations -/

mutual

theorem yields_of_expression (l : Level) {s t : Parser} {e : Expr}
    (h : (expression l s).1 = (.ok e, t)) : Yields l s e t := by
  by_cases hl : l.isChain = true
  · rw [expression_chain hl, Progress.andThen_eq_ok] at h
    obtain ⟨lhs, u, hu, hx, ho⟩ := h
    have := rank_tighter_lt hl
    exact .layer hl (yields_of_expression l.tighter hx) (continues_of_operators l ho)
  · obtain hl' | hl' : l = .sign ∨ l = .atom := by
      cases l <;> simp_all [Level.isChain]
    · rw [hl'] at h ⊢
      cases hop : UnaryOp.ofToken? s.peek.kind with
      | none =>
        rw [expression_unsigned hop] at h
        exact .unsigned hop (yields_of_expression .power h)
      | some op =>
        rw [expression_signed hop, Reading.andThen_eq_ok] at h
        obtain ⟨x, u, hu, hx, hn⟩ := h
        cases hn
        have := size_advance_lt (UnaryOp.ne_eof_of_ofToken? hop)
        exact .signed hop (yields_of_expression .sign hx)
    · rw [hl', expression_atom] at h
      rw [hl']
      split at h
      · next hk =>
        obtain ⟨f, hf, rfl, rfl⟩ := literalOutcome_eq_ok.1 h
        split at hf <;> cases hf
        next hv => exact .int hk hv
      · next hk =>
        obtain ⟨f, hf, rfl, rfl⟩ := literalOutcome_eq_ok.1 h
        split at hf <;> cases hf
        next hv => exact .float hk hv
      · next hk =>
        obtain ⟨f, hf, rfl, rfl⟩ := literalOutcome_eq_ok.1 h
        cases hf
        exact .string hk
      · next hk =>
        have hs : s.advance.size < s.size := size_advance_lt (by simp [hk])
        rw [Reading.andThen_eq_ok] at h
        obtain ⟨x, u, hu, hx, hn⟩ := h
        obtain ⟨_, v, hv, hc', hp⟩ := Reading.andThen_eq_ok.1 hn
        obtain ⟨hc, -, rfl⟩ := Reading.expect_eq_ok.1 hc'
        cases hp
        exact .paren hk (yields_of_expression .assignment hx) hc
      · next hk =>
        obtain ⟨name, u, hu, hname, hn⟩ := Progress.andThen_eq_ok.1 h
        obtain ⟨-, rfl, rfl⟩ := Progress.ident_eq_ok.1 hname
        have hu' := s.advance.size_advance_le
        rw [behindName] at hn
        split at hn
        · next hp =>
          rw [Reading.since_val] at hn
          obtain ⟨args, v, hv, ha, hn⟩ := Reading.andThen_eq_ok.1 hn
          obtain ⟨_, w, hw, hc', hn⟩ := Reading.andThen_eq_ok.1 hn
          obtain ⟨hc, rfl, rfl⟩ := Reading.expect_eq_ok.1 hc'
          cases hn
          exact .call hk hp (arguments_of_arguments ha) hc
        · next hp =>
          split at hn
          · next hb =>
            rw [Reading.since_val] at hn
            obtain ⟨i, v, hv, hi, hn⟩ := Reading.andThen_eq_ok.1 hn
            obtain ⟨_, w, hw, hc', hn⟩ := Reading.andThen_eq_ok.1 hn
            obtain ⟨hc, rfl, rfl⟩ := Reading.expect_eq_ok.1 hc'
            cases hn
            exact .index hk hb (yields_of_expression .assignment hi) hc
          · next hb =>
            cases hn
            exact .var hk (by simpa using hp) (by simpa using hb)
      · cases h
      · cases h
termination_by (s.size, l.rank + 1)
decreasing_by
  all_goals first
    | (apply Prod.Lex.left; omega)
    | (apply Prod.Lex.right; omega)
    | (apply Prod.Lex.right; rw [hl']; decide)

theorem continues_of_operators (l : Level) {lhs e : Expr} {s t : Parser}
    (h : (operators l lhs s).1 = (.ok e, t)) : Continues l lhs s e t := by
  cases hop : l.operator? s.peek.kind with
  | none =>
    rw [operators_stop hop] at h
    cases h
    exact .stop hop
  | some op =>
    have hs := size_advance_lt (Level.ne_eof_of_operator? hop)
    rw [operators_operator hop] at h
    cases hg : l.grouping with
    | right =>
      rw [hg] at h
      obtain ⟨rhs, u, hu, hx, hn⟩ := Reading.andThen_eq_ok.1 h
      cases hn
      exact .right hop hg (yields_of_expression l hx)
    | once =>
      rw [hg] at h
      obtain ⟨rhs, u, hu, hx, hn⟩ := Reading.andThen_eq_ok.1 h
      split at hn
      · simp at hn
      · next hno =>
        cases hn
        exact .once hop hg (yields_of_expression l.tighter hx) (by simpa using hno)
    | left =>
      rw [hg] at h
      obtain ⟨rhs, u, hu, hx, hn⟩ := Reading.andThen_eq_ok.1 h
      exact .left hop hg (yields_of_expression l.tighter hx) (continues_of_operators l hn)
termination_by (s.size, 0)
decreasing_by
  all_goals
    apply Prod.Lex.left
    try rw [size_binary]
    omega

theorem arguments_of_arguments {s t : Parser} {es : List Expr}
    (h : (arguments s).1 = (.ok es, t)) : Arguments s es t := by
  rw [arguments] at h
  split at h
  · next hc =>
    cases h
    exact .none hc
  · next hc => exact .some (by simpa using hc) (argumentList_of_argumentList h)
termination_by (s.size, 10)
decreasing_by apply Prod.Lex.right; decide

theorem argumentList_of_argumentList {s t : Parser} {es : List Expr}
    (h : (argumentList s).1 = (.ok es, t)) : ArgumentList s es t := by
  rw [argumentList] at h
  obtain ⟨e, u, hu, he, hn⟩ := Progress.andThen_eq_ok.1 h
  split at hn
  · next hc =>
    have := u.size_advance_le
    rw [Reading.since_val] at hn
    obtain ⟨es', v, hv, hes, hn⟩ := Reading.andThen_eq_ok.1 hn
    cases hn
    exact .more (yields_of_expression .assignment he) hc (argumentList_of_argumentList hes)
  · next hc =>
    cases hn
    exact .last (yields_of_expression .assignment he) (by simpa using hc)
termination_by (s.size, 9)
decreasing_by
  all_goals first
    | (apply Prod.Lex.left; omega)
    | (apply Prod.Lex.right; decide)

end

theorem check_of_kind {s : Parser} {k : TokenKind} (h : s.peek.kind = k) : s.check k = true := by
  simp [check, h]

mutual

theorem expression_of_yields {l : Level} {s t : Parser} {e : Expr} (h : Yields l s e t) :
    (expression l s).1 = (.ok e, t) := by
  match h with
  | .layer hl hx ho =>
    have hx' := expression_of_yields hx
    have ho' := operators_of_continues ho
    rw [expression_chain hl, Progress.andThen_eq_ok]
    exact ⟨_, _, Progress.size_lt_of_ok hx', hx', ho'⟩
  | .signed hs hx =>
    have hx' := expression_of_yields hx
    rw [expression_signed hs]
    exact Reading.andThen_eq_ok.2 ⟨_, _, Nat.le_of_lt (Progress.size_lt_of_ok hx'), hx', rfl⟩
  | .unsigned hs hx =>
    rw [expression_unsigned hs]
    exact expression_of_yields hx
  | .int hk hv =>
    rw [expression_atom, hk]
    exact literalOutcome_eq_ok.2 ⟨_, by rw [hv], rfl, rfl⟩
  | .float hk hv =>
    rw [expression_atom, hk]
    exact literalOutcome_eq_ok.2 ⟨_, by rw [hv], rfl, rfl⟩
  | .string hk =>
    rw [expression_atom, hk]
    rfl
  | .paren hk he hc =>
    have he' := expression_of_yields he
    rw [expression_atom, hk]
    refine Reading.andThen_eq_ok.2 ⟨_, _, Nat.le_of_lt (Progress.size_lt_of_ok he'), he', ?_⟩
    exact Reading.andThen_eq_ok.2 ⟨_, _, size_advance_le _, Reading.expect_eq_ok.2 ⟨hc, rfl, rfl⟩, rfl⟩
  | .var hk hp hb =>
    have hs := size_advance_lt (s := s) (by simp [hk])
    rw [expression_atom, hk]
    refine Progress.andThen_eq_ok.2 ⟨_, _, hs, Progress.ident_eq_ok.2 ⟨check_of_kind hk, rfl, rfl⟩, ?_⟩
    simp [behindName, hp, hb]
  | .index hk hb hi hc =>
    have hi' := expression_of_yields hi
    have hs := size_advance_lt (s := s) (by simp [hk])
    have hp : s.advance.check .leftParen = false := by simp_all [check]
    rw [expression_atom, hk]
    refine Progress.andThen_eq_ok.2 ⟨_, _, hs, Progress.ident_eq_ok.2 ⟨check_of_kind hk, rfl, rfl⟩, ?_⟩
    rw [behindName, if_neg (by simp [hp]), if_pos hb, Reading.since_val]
    refine Reading.andThen_eq_ok.2 ⟨_, _, Nat.le_of_lt (Progress.size_lt_of_ok hi'), hi', ?_⟩
    exact Reading.andThen_eq_ok.2 ⟨_, _, size_advance_le _, Reading.expect_eq_ok.2 ⟨hc, rfl, rfl⟩, rfl⟩
  | .call hk hp ha hc =>
    have ha' := arguments_of_trace ha
    have hs := size_advance_lt (s := s) (by simp [hk])
    rw [expression_atom, hk]
    refine Progress.andThen_eq_ok.2 ⟨_, _, hs, Progress.ident_eq_ok.2 ⟨check_of_kind hk, rfl, rfl⟩, ?_⟩
    rw [behindName, if_pos hp, Reading.since_val]
    refine Reading.andThen_eq_ok.2 ⟨_, _, Reading.size_le_of_ok ha', ha', ?_⟩
    exact Reading.andThen_eq_ok.2 ⟨_, _, size_advance_le _, Reading.expect_eq_ok.2 ⟨hc, rfl, rfl⟩, rfl⟩

theorem operators_of_continues {l : Level} {lhs e : Expr} {s t : Parser}
    (h : Continues l lhs s e t) : (operators l lhs s).1 = (.ok e, t) := by
  match h with
  | .stop h => exact operators_stop h
  | .right h hg hx =>
    have hx' := expression_of_yields hx
    rw [operators_operator h, hg]
    exact Reading.andThen_eq_ok.2 ⟨_, _, Nat.le_of_lt (Progress.size_lt_of_ok hx'), hx', rfl⟩
  | .once h hg hx hn =>
    have hx' := expression_of_yields hx
    rw [operators_operator h, hg]
    refine Reading.andThen_eq_ok.2 ⟨_, _, Nat.le_of_lt (Progress.size_lt_of_ok hx'), hx', ?_⟩
    simp [hn]
  | .left h hg hx ho =>
    have hx' := expression_of_yields hx
    have ho' := operators_of_continues ho
    rw [operators_operator h, hg]
    exact Reading.andThen_eq_ok.2 ⟨_, _, Nat.le_of_lt (Progress.size_lt_of_ok hx'), hx', ho'⟩

theorem arguments_of_trace {s t : Parser} {es : List Expr} (h : Arguments s es t) :
    (arguments s).1 = (.ok es, t) := by
  match h with
  | .none hc =>
    rw [arguments, if_pos hc]
    rfl
  | .some hc he =>
    rw [arguments, if_neg (by simp [hc])]
    exact argumentList_of_trace he

theorem argumentList_of_trace {s t : Parser} {es : List Expr} (h : ArgumentList s es t) :
    (argumentList s).1 = (.ok es, t) := by
  match h with
  | .last he hc =>
    have he' := expression_of_yields he
    rw [argumentList]
    refine Progress.andThen_eq_ok.2 ⟨_, _, Progress.size_lt_of_ok he', he', ?_⟩
    simp [hc]
  | .more he hc hes =>
    have he' := expression_of_yields he
    have hes' := argumentList_of_trace hes
    rw [argumentList]
    refine Progress.andThen_eq_ok.2 ⟨_, _, Progress.size_lt_of_ok he', he', ?_⟩
    rw [if_pos hc, Reading.since_val]
    exact Reading.andThen_eq_ok.2 ⟨_, _, Nat.le_of_lt (Progress.size_lt_of_ok hes'), hes', rfl⟩

end

/-- **An expression is parsed exactly when the relation says so.** -/
theorem expression_eq_ok {l : Level} {s t : Parser} {e : Expr} :
    (expression l s).1 = (.ok e, t) ↔ Yields l s e t :=
  ⟨yields_of_expression l, expression_of_yields⟩

theorem Yields.ofAtom {s t : Parser} {e : Expr} (h : Yields .atom s e t)
    (hs : UnaryOp.ofToken? s.peek.kind = none)
    (ht : t.peek.kind = .semicolon ∨ t.peek.kind = .rightParen) : Yields .assignment s e t := by
  have hstop : ∀ l : Level, l.operator? t.peek.kind = none := by
    rcases ht with ht | ht <;> rw [ht] <;> rintro (_ | _) <;> rfl
  have hpower : Yields .power s e t := .layer rfl h (.stop (hstop _))
  have hsum : Yields .sum s e t := .layer rfl (.layer rfl (.unsigned hs hpower) (.stop (hstop _))) (.stop (hstop _))
  exact .layer rfl (.layer rfl (.layer rfl hsum (.stop (hstop _))) (.stop (hstop _))) (.stop (hstop _))

end Parser

end MicroC
