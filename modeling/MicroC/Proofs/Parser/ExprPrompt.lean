import MicroC.Proofs.Parser.Prompt

/-!
# Expressions are read promptly

* `IsExpr`, `Operators`, `BehindName`, `BehindArgument`: what is read of an expression, part by part.
* **`expression_prompt`**: an expression is read, or rejected at the first token that cannot be part of it.
-/

namespace MicroC.Parser

open Grammar

/-! ## Expressions -/

/-- The expressions of a layer. -/
def IsExpr (l : Level) (ts : List Token) : Prop := ∃ x, Derives l ts x

/-- What may stand in front of the operators of a layer. -/
def Operand (l : Level) (ts : List Token) : Prop :=
  match l.grouping with
  | .left => IsExpr l ts
  | _ => IsExpr l.tighter ts

/-- What makes an expression of every operand in front of it. -/
def Operators (l : Level) (us : List Token) : Prop := ∀ ts, Operand l ts → IsExpr l (ts ++ us)

/-- What makes an expression behind an operand and an operator. -/
def BehindOperator (l : Level) (op : BinaryOp) (us : List Token) : Prop :=
  ∀ ts (t : Token), Operand l ts → l.operator? t.kind = some op → IsExpr l (ts ++ t :: us)

/-- The arguments of a call. -/
def IsArguments (ts : List Token) : Prop := ts = [] ∨ ∃ xs, DerivesList ts xs

/-- What makes arguments behind an expression. -/
def BehindArgument (us : List Token) : Prop := ∀ ts x, Derives .assignment ts x → ∃ xs, DerivesList (ts ++ us) xs

/-- What makes an operand of every name in front of it. -/
def BehindName (us : List Token) : Prop := ∀ t : Token, t.kind = .identifier → IsExpr .atom (t :: us)

theorem IsExpr.operand {l : Level} (hl : l.isChain = true) {ts : List Token} (h : IsExpr l.tighter ts) :
    Operand l ts := by
  unfold Operand
  split
  · exact h.imp fun _ => .ofTighter hl
  · exact h

theorem Operand.isExpr {l : Level} (hl : l.isChain = true) {ts : List Token} (h : Operand l ts) : IsExpr l ts := by
  unfold Operand at h
  split at h
  · exact h
  · exact h.imp fun _ => .ofTighter hl

theorem operators_nil {l : Level} (hl : l.isChain = true) : Operators l [] := fun ts h => by
  rw [List.append_nil]
  exact h.isExpr hl

theorem behindName_nil : BehindName [] := fun _ ht => ⟨_, .var ht⟩

theorem behindArgument_nil : BehindArgument [] := fun ts x hx => by
  rw [List.append_nil]
  exact ⟨[x], .last hx⟩

theorem completable_expr (l : Level) : Completable (IsExpr l) := by
  refine ⟨[sample .identifier], List.forall_mem_singleton.2 (fits_sample (by decide)), ?_⟩
  have hatom : Derives .atom [sample .identifier] _ := .var rfl
  have hsum : Derives .sum _ _ := .ofMultiplicative (.ofUnary (.ofExponent (.ofAtom hatom)))
  cases l with
  | atom => exact ⟨_, hatom⟩
  | power => exact ⟨_, .ofAtom hatom⟩
  | sign => exact ⟨_, .ofExponent (.ofAtom hatom)⟩
  | product => exact ⟨_, .ofUnary (.ofExponent (.ofAtom hatom))⟩
  | sum => exact ⟨_, hsum⟩
  | comparison => exact ⟨_, .ofAdditive hsum⟩
  | equality => exact ⟨_, .ofComparison (.ofAdditive hsum)⟩
  | assignment => exact ⟨_, .ofEquality (.ofComparison (.ofAdditive hsum))⟩

theorem fits_peek {s : Parser} (hs : s.Regular) (hk : s.peek.kind ≠ .eof) (hint : s.peek.kind ≠ .intLiteral) :
    s.peek.Fits := ⟨hs.peek hk, fun h => absurd h hint⟩

/-- A literal with a value is read, and one without is rejected. -/
theorem literalOutcome_prompt {s : Parser} {node : Except ParseFault (Site → Expr)} (hk : s.peek.kind ≠ .eof)
    (hatom : ∀ t : Token, t.kind = s.peek.kind → IsExpr .atom [t]) (hok : ∀ f, node = .ok f → s.peek.Fits)
    (herror : ∀ e, node = .error e → e.isLate = true)
    (hp : ∀ t, t.peek = s.peek → (expression .atom t).1 = literalOutcome t node) :
    Prompt (IsExpr .atom) s (fun s => (expression .atom s).1) (fun s => (expression .atom s).1) := by
  cases node with
  | error fault => exact .rejectLate (completable_expr _) (herror fault rfl) hk hp hp
  | ok f =>
    have hread : ∀ t : Parser, t.peek = s.peek →
        (expression .atom t).1 = (Reading.node s.peek.span f : Reading t.advance Expr).1 := fun t ht => by
      rw [hp t ht, literalOutcome, ht]
      rfl
    have hnode : Prompt Nothing s.advance (fun t => (Reading.node s.peek.span f : Reading t Expr).1)
      (fun t => (Reading.node s.peek.span f : Reading t Expr).1) := .node _ _ _ _
    refine (hnode.advance hk (hok f rfl) hread hread).mono fun ts hts => ?_
    obtain ⟨t, rfl, ht⟩ := then_nothing hts
    exact hatom t ht

/-- What is read behind a sign. -/
def behindSign (op : UnaryOp) (sign : Token) : Step Expr := fun s =>
  ((expression .sign s).reading.andThen fun x _ _ => .node (sign.span.merge x.span) (Expr.unary · op sign.span x)).1

/-- What is read behind an operator of a layer. -/
def behindOperator (l : Level) (op : BinaryOp) (mark : Token) (lhs : Expr) : Step Expr := fun s =>
  match l.grouping with
  | .right => ((expression l s).reading.andThen fun rhs _ _ =>
    .node (lhs.span.merge rhs.span) (Expr.binary · op mark.span lhs rhs)).1
  | .once => ((expression l.tighter s).reading.andThen fun rhs t _ =>
    if (l.operator? t.peek.kind).isSome then .fail ⟨.nonAssociative, t.peek⟩ t.advance t.size_advance_le
    else .node (lhs.span.merge rhs.span) (Expr.binary · op mark.span lhs rhs)).1
  | .left => ((expression l.tighter s).reading.andThen fun rhs t _ =>
    operators l (t.binary lhs op mark.span rhs).1 (t.binary lhs op mark.span rhs).2).1

/-- What is read of a call behind its opening parenthesis. -/
def behindParen (name : Ident) (s : Parser) : Reading s Expr :=
  (arguments s).andThen fun args t _ => (Reading.expect t .rightParen).andThen fun close _ _ =>
    .node (name.span.merge close.span) (Expr.call · name args)

/-- What is read of an element of an array behind its opening bracket. -/
def behindBracket (name : Ident) (s : Parser) : Reading s Expr :=
  (expression .assignment s).reading.andThen fun i t _ => (Reading.expect t .rightBracket).andThen fun close _ _ =>
    .node (name.span.merge close.span) (Expr.index · name i)

/-- What is read behind the first of several arguments, or the last one. -/
def behindArgument (e : Expr) (s : Parser) : Reading s (List Expr) :=
  if s.check .comma then
    Reading.since ((argumentList s.advance).reading.andThen fun es _ _ => .pure (e :: es)) s.size_advance_le
  else .pure [e]

theorem operators_eq_behindOperator {l : Level} {op : BinaryOp} {s t : Parser} (hop : l.operator? s.peek.kind = some op)
    (ht : t.peek = s.peek) (lhs : Expr) : (operators l lhs t).1 = behindOperator l op s.peek lhs t.advance := by
  have hop : l.operator? t.peek.kind = some op := by rw [ht, hop]
  rw [operators_operator hop, ht]
  rfl

mutual

theorem expression_prompt (l : Level) (s : Parser) (hs : s.Regular) :
    Prompt (IsExpr l) s (fun s => (expression l s).1) (fun s => (expression l s).1) := by
  by_cases hl : l.isChain = true
  · have := rank_tighter_lt hl
    refine .congr (.mono (.progress hs (expression_prompt l.tighter s hs) (completable_nil (operators_nil hl))
      fun a a' t ht hsize => operators_prompt l hl a a' t ht) ?_) (fun t _ => expression_chain hl t)
      (fun t _ => expression_chain hl t)
    rintro _ ⟨ts, us, rfl, hts, hus⟩
    exact hus ts (hts.operand hl)
  · obtain hl' | hl' : l = .sign ∨ l = .atom := by
      cases l <;> simp_all [Level.isChain]
    · rw [hl']
      cases hop : UnaryOp.ofToken? s.peek.kind with
      | none =>
        have hunsigned : ∀ t : Parser, t.peek = s.peek → (expression .sign t).1 = (expression .power t).1 :=
          fun t ht => expression_unsigned (by rw [ht, hop])
        exact ((expression_prompt .power s hs).mono fun _ ⟨x, hx⟩ => ⟨x, .ofExponent hx⟩).congr hunsigned hunsigned
      | some op =>
        have hk := UnaryOp.ne_eof_of_ofToken? hop
        have hint : s.peek.kind ≠ .intLiteral := by
          rintro h
          rw [h] at hop
          cases hop
        have := size_advance_lt hk
        have hoperand : Prompt (IsExpr .sign) s.advance (behindSign op s.peek) (behindSign op s.peek) :=
          .ending hs.advance (expression_prompt .sign s.advance hs.advance) fun _ _ _ => .node _ _ _ _
        have hsigned : ∀ t : Parser, t.peek = s.peek → (expression .sign t).1 = behindSign op s.peek t.advance := by
          intro t ht
          have hop : UnaryOp.ofToken? t.peek.kind = some op := by rw [ht, hop]
          rw [expression_signed hop, behindSign, ht]
        refine (hoperand.advance hk (fits_peek hs hk hint) hsigned hsigned).mono ?_
        rintro _ ⟨_, ts, rfl, ⟨t, rfl, ht⟩, x, hx⟩
        exact ⟨_, .unary (ht.trans (signMark_of_ofToken? hop)) hx⟩
    · rw [hl']
      exact atom_prompt s hs
termination_by (s.size, l.rank + 1)
decreasing_by
  all_goals first
    | (apply Prod.Lex.left; omega)
    | (apply Prod.Lex.right; omega)
    | (apply Prod.Lex.right; rw [hl']; decide)

theorem atom_prompt (s : Parser) (hs : s.Regular) :
    Prompt (IsExpr .atom) s (fun s => (expression .atom s).1) (fun s => (expression .atom s).1) := by
  have hatom : ∀ t : Parser, t.peek = s.peek → _ := fun t ht => (expression_atom t).trans (by rw [ht])
  have hfault : ∀ {fault : ParseFault}, fault.isLate = false →
      (s.peek.kind = .eof → (ParseError.mk fault s.peek).atEnd = true) →
      (∀ t : Parser, t.peek = s.peek → (expression .atom t).1 = (.error ⟨fault, s.peek⟩, t)) →
      Prompt (IsExpr .atom) s (fun s => (expression .atom s).1) (fun s => (expression .atom s).1) :=
    fun hlate hend hp => .reject (completable_expr _) hlate hend (fun t ht => by rw [hp t ht, ht])
      (fun t ht => by rw [hp t ht, ht])
  cases hk : s.peek.kind <;> simp only [hk] at hatom
  case intLiteral =>
    have hregular := hs.peek (by rw [hk]; decide)
    refine literalOutcome_prompt (by rw [hk]; decide) (fun t ht => ⟨_, .int (ht.trans hk)⟩) (fun f hf => ?_)
      (fun e he => ?_) hatom
    · split at hf <;> cases hf
      next hv => exact ⟨hregular, fun _ => ((hregular.word?_eq_some hk).1 hv).1⟩
    · split at he <;> cases he
      rfl
  case floatLiteral =>
    refine literalOutcome_prompt (by rw [hk]; decide) (fun t ht => ⟨_, .float (ht.trans hk)⟩)
      (fun _ _ => fits_peek hs (by rw [hk]; decide) (by rw [hk]; decide)) (fun e he => ?_) hatom
    split at he <;> cases he
    rfl
  case stringLiteral =>
    exact literalOutcome_prompt (by rw [hk]; decide) (fun t ht => ⟨_, .string (ht.trans hk)⟩)
      (fun _ _ => fits_peek hs (by rw [hk]; decide) (by rw [hk]; decide)) (fun _ he => by cases he) hatom
  case leftParen =>
    have := size_advance_lt (s := s) (by rw [hk]; decide)
    have hinside := Prompt.within hs.advance (expression_prompt .assignment s.advance hs.advance)
      (completable_one (by decide)) fun e e' t ht hsize => .closing ht .rightParen fun _ _ _ => .pure e e'
    have hparen := fits_peek hs (by rw [hk]; decide) (by rw [hk]; decide)
    refine (hinside.advance (by rw [hk]; decide) hparen hatom hatom).mono ?_
    rintro _ ⟨_, _, rfl, ⟨l, rfl, hl⟩, ts, _, rfl, ⟨x, hx⟩, r, rfl, hr⟩
    exact ⟨x, .paren (hl.trans hk) hx hr⟩
  case identifier =>
    refine (Prompt.progress hs (.ident hs) (completable_nil behindName_nil)
      fun name name' t ht hsize => behindName_prompt name name' t ht).mono ?_ |>.congr hatom hatom
    rintro _ ⟨_, us, rfl, ⟨t, rfl, ht⟩, hus⟩
    exact hus t ht
  case eof => exact hfault rfl (fun _ => by rw [ParseError.atEnd, hk]; rfl) hatom
  all_goals exact hfault rfl (fun h => by rw [hk] at h; cases h) hatom
termination_by (s.size, 0)
decreasing_by
  all_goals (apply Prod.Lex.left; omega)

theorem behindName_prompt (name name' : Ident) (s : Parser) (hs : s.Regular) :
    Prompt BehindName s (fun s => (behindName name s).1) (fun s => (behindName name' s).1) := by
  refine .branchOn (fun hc => ?_) fun _ => .branchOn (fun hc => ?_) fun _ => ?_
  · have := size_advance_lt_of_check hc (by decide)
    have hcall : Prompt _ s.advance (fun t => (behindParen name t).1) (fun t => (behindParen name' t).1) :=
      .reading hs.advance (arguments_prompt s.advance hs.advance) (completable_one (by decide))
        fun _ _ t ht _ => .closing ht .rightParen fun _ _ _ => .node _ _ _ _
    refine (hcall.past hs hc).mono ?_
    rintro _ ⟨_, _, rfl, ⟨l, rfl, hl⟩, _, _, rfl, rfl | ⟨xs, hxs⟩, r, rfl, hr⟩ t ht
    · exact ⟨_, .callNone ht hl hr⟩
    · exact ⟨_, .call ht hl hxs hr⟩
  · have := size_advance_lt_of_check hc (by decide)
    have hindex : Prompt _ s.advance (fun t => (behindBracket name t).1) (fun t => (behindBracket name' t).1) :=
      .within hs.advance (expression_prompt .assignment s.advance hs.advance) (completable_one (by decide))
        fun _ _ t ht _ => .closing ht .rightBracket fun _ _ _ => .node _ _ _ _
    refine (hindex.past hs hc).mono ?_
    rintro _ ⟨_, _, rfl, ⟨l, rfl, hl⟩, _, _, rfl, ⟨x, hx⟩, r, rfl, hr⟩ t ht
    exact ⟨_, .index ht hl hx hr⟩
  · refine (Prompt.node name.span name'.span _ _).mono ?_
    rintro _ rfl
    exact behindName_nil
termination_by (s.size, 0)
decreasing_by
  all_goals
    apply Prod.Lex.left
    omega

theorem arguments_prompt (s : Parser) (hs : s.Regular) :
    Prompt IsArguments s (fun s => (arguments s).1) (fun s => (arguments s).1) := by
  refine .congr (.branchOn (fun _ => ?_) fun _ => ?_) (fun t _ => by rw [arguments]) (fun t _ => by rw [arguments])
  · exact (Prompt.pure [] []).mono fun _ => .inl
  · exact (argumentList_prompt s hs).mono fun _ => .inr
termination_by (s.size, 10)
decreasing_by
  apply Prod.Lex.right
  omega

theorem argumentList_prompt (s : Parser) (hs : s.Regular) :
    Prompt (fun ts => ∃ xs, DerivesList ts xs) s (fun s => (argumentList s).1) (fun s => (argumentList s).1) := by
  have hmore : ∀ (e e' : Expr) (t : Parser), t.Regular → t.size < s.size →
      Prompt BehindArgument t (fun t => (behindArgument e t).1) (fun t => (behindArgument e' t).1) := by
    intro e e' t ht hsize
    refine (Prompt.listed (L := fun ts => ∃ xs, DerivesList ts xs) ht (r := argumentList) e e' fun hc => ?_).mono ?_
    · have := size_advance_lt_of_check hc (by decide)
      exact argumentList_prompt t.advance ht.advance
    · rintro _ (rfl | ⟨_, us, rfl, ⟨c, rfl, hc⟩, xs, hxs⟩)
      · exact behindArgument_nil
      · exact fun ts x hx => ⟨_, .more hx hc hxs⟩
  refine .congr (.mono (.progress hs (expression_prompt .assignment s hs) (completable_nil behindArgument_nil) hmore) ?_)
    (fun t _ => by rw [argumentList]; rfl) (fun t _ => by rw [argumentList]; rfl)
  rintro _ ⟨_, us, rfl, ⟨x, hx⟩, hus⟩
  exact hus _ x hx
termination_by (s.size, 9)
decreasing_by
  all_goals first
    | (apply Prod.Lex.left; omega)
    | (apply Prod.Lex.right; decide)

theorem operators_prompt (l : Level) (hl : l.isChain = true) (lhs lhs' : Expr) (s : Parser) (hs : s.Regular) :
    Prompt (Operators l) s (fun s => (operators l lhs s).1) (fun s => (operators l lhs' s).1) := by
  cases hop : l.operator? s.peek.kind with
  | none =>
    have hstop : ∀ (x : Expr) (t : Parser), t.peek = s.peek → (operators l x t).1 = (.ok x, t) := fun x t ht =>
      operators_stop (by rw [ht, hop])
    exact .done (operators_nil hl) (fun t ht => ⟨_, t, hstop lhs t ht, rfl, rfl⟩)
      (fun t ht => ⟨_, t, hstop lhs' t ht, rfl⟩)
  | some op =>
    have hk := Level.ne_eof_of_operator? hop
    have hint : s.peek.kind ≠ .intLiteral := by
      rintro h
      rw [h] at hop
      cases hop
    have := size_advance_lt hk
    refine ((behindOperator_prompt l hl op s.peek lhs lhs' s.advance hs.advance).advance hk (fits_peek hs hk hint)
      (fun t ht => operators_eq_behindOperator hop ht lhs) (fun t ht => operators_eq_behindOperator hop ht lhs')).mono ?_
    rintro _ ⟨_, us, rfl, ⟨t, rfl, ht⟩, hus⟩ ts hts
    exact hus ts t hts (by rw [ht, hop])
termination_by (s.size, 0)
decreasing_by
  all_goals (apply Prod.Lex.left; omega)

theorem behindOperator_prompt (l : Level) (hl : l.isChain = true) (op : BinaryOp) (mark : Token) (lhs lhs' : Expr)
    (s : Parser) (hs : s.Regular) :
    Prompt (BehindOperator l op) s (behindOperator l op mark lhs) (behindOperator l op mark lhs') := by
  have := rank_tighter_lt hl
  have : l.rank ≤ 7 := by cases l <;> decide
  unfold behindOperator
  cases hg : l.grouping with
  | right =>
    refine .mono (.ending hs (expression_prompt l s hs) fun _ _ _ => .node _ _ _ _) ?_
    rintro us ⟨y, hy⟩ ts t hts ht
    rw [Operand, hg] at hts
    obtain ⟨x, hx⟩ := hts
    exact ⟨_, .right hg ht hx hy⟩
  | once =>
    refine .mono (.ending hs (expression_prompt l.tighter s hs) fun rhs rhs' t => ?_) ?_
    · -- A second operator is rejected, and only then.
      by_cases hsome : (l.operator? t.peek.kind).isSome = true
      · have hk : t.peek.kind ≠ .eof := Level.ne_eof_of_operator? (Option.eq_some_of_isSome hsome)
        have hlate : ParseFault.nonAssociative.isLate = true := rfl
        exact .rejectLate completable_nothing hlate hk (fun u hu => by rw [if_pos (by rwa [hu])]; rfl)
          (fun u hu => by rw [if_pos (by rwa [hu])]; rfl)
      · exact .congr (.node (lhs.span.merge rhs.span) (lhs'.span.merge rhs'.span) _ _)
          (fun u hu => by rw [if_neg (by rwa [hu])]) (fun u hu => by rw [if_neg (by rwa [hu])])
    · rintro us ⟨y, hy⟩ ts t hts ht
      rw [Operand, hg] at hts
      obtain ⟨x, hx⟩ := hts
      exact ⟨_, .once hg ht hx hy⟩
  | left =>
    refine .mono (.reading hs (expression_prompt l.tighter s hs) (completable_nil (operators_nil hl))
      fun rhs rhs' t ht hsize => ?_) ?_
    · have hbinary : Prompt Nothing t (fun t => (.ok (t.binary lhs op mark.span rhs).1, (t.binary lhs op mark.span rhs).2))
          (fun t => (.ok (t.binary lhs' op mark.span rhs').1, (t.binary lhs' op mark.span rhs').2)) :=
        .done rfl (fun _ _ => ⟨_, _, rfl, rfl, rfl⟩) (fun _ _ => ⟨_, _, rfl, rfl⟩)
      refine .mono (hbinary.seq (f := fun x u => (operators l x u).1) (g := fun x u => (operators l x u).1) ht
        (completable_nil (operators_nil hl)) fun x x' u hu hregular => ?_) fun _ => nothing_then
      have : u.size = t.size := by
        cases hu
        rfl
      exact operators_prompt l hl x x' u hregular
    · rintro _ ⟨us, vs, rfl, ⟨y, hy⟩, hvs⟩ ts t hts ht
      rw [Operand, hg] at hts
      obtain ⟨x, hx⟩ := hts
      have hmore : Operand l (ts ++ t :: us) := by
        rw [Operand, hg]
        exact ⟨_, .left hg ht hx hy⟩
      have := hvs _ hmore
      rwa [List.append_assoc] at this
termination_by (s.size, 9)
decreasing_by
  all_goals first
    | (apply Prod.Lex.left; omega)
    | (apply Prod.Lex.right' <;> omega)

end

end MicroC.Parser
