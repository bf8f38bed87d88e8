import MicroC.Proofs.Parser.Sound

/-!
# Derived expressions are parsed

What the grammar derives, a parser reads whenever the token behind it cannot be part of it. A layer of
operators that group to the left is derived from its end and read from its start: `ReadsChain` follows
the reading up to the last operand.

* `lead`: the kind of the first token of a list.
* `Ends`: a token cannot go on an expression of a layer.
* `Reads`: from every state with its tokens ahead an expression is read, with one lemma for each way of
  deriving it.
* **`reads_of_derives`**: a derived expression is read.
-/

namespace MicroC

/-- The kind of the first token, and the end of file if there is none. -/
def lead : List Token → TokenKind
  | [] => .eof
  | t :: _ => t.kind

@[simp] theorem lead_nil : lead [] = .eof := rfl

@[simp] theorem lead_cons (t : Token) (ts : List Token) : lead (t :: ts) = t.kind := rfl

/-- A token as a scan reports it, with a value in range if it is an integer. -/
structure Token.Fits (t : Token) : Prop where
  regular : t.Regular
  inRange : t.kind = .intLiteral →
    Decimal.value t.lexeme.toList ≤ Int64.maxValue.toInt.toNat

theorem Token.Fits.word? {t : Token} (h : t.Fits) (hk : t.kind = .intLiteral) :
    ∃ v, word? t.lexeme = some v ∧ v.toInt = Decimal.value t.lexeme.toList := by
  have hr := h.inRange hk
  have hv : (Int64.ofInt (Decimal.value t.lexeme.toList)).toInt = Decimal.value t.lexeme.toList := by
    have hmax : Int64.maxValue.toInt = 9223372036854775807 := by decide
    rw [hmax] at hr
    refine Int64.toInt_ofInt_of_le ?_ ?_ <;> omega
  exact ⟨_, (h.regular.word?_eq_some hk).2 ⟨hr, hv⟩, hv⟩

namespace Parser

variable {s : Parser} {t : Token} {ts us : List Token}

theorem kind_peek (s : Parser) : s.peek.kind = lead s.ahead := by
  unfold peek peekAt
  cases s.ahead <;> rfl

theorem check_eq (s : Parser) (k : TokenKind) : s.check k = (lead s.ahead == k) := by
  rw [check, kind_peek]

theorem peek_of_ahead (h : s.ahead = t :: ts) : s.peek = t := by
  rw [peek, peekAt, h]
  rfl

theorem ahead_advance (h : s.ahead = t :: ts) (ht : t.kind ≠ .eof) : s.advance.ahead = ts := by
  rw [advance, h]
  exact congrArg ahead (if_neg ht)

theorem check_of_ahead {k : TokenKind} (h : s.ahead = t :: ts) (hk : t.kind = k) :
    s.check k = true := by
  rw [check_eq, h]
  exact beq_iff_eq.2 hk

theorem startsDeclaration_of_ahead (h : s.ahead = t :: ts) :
    s.startsDeclaration = (t.kind == .identifier && lead ts == .identifier) := by
  rw [startsDeclaration, check_eq, h, peekAt, h]
  cases ts <;> rfl

end Parser

namespace Grammar

/-- A token of this kind cannot go on an expression of layer `l`. -/
structure Ends (l : Level) (k : TokenKind) : Prop where
  notCall : k ≠ .leftParen
  notIndex : k ≠ .leftBracket
  loose : ∀ op, BinaryOp.ofToken? k = some op → l.rank < op.level.rank

theorem Ends.operator? {l l' : Level} {k : TokenKind} (h : Ends l k) (hl : l'.rank ≤ l.rank) :
    l'.operator? k = none := by
  rw [Level.operator?, Option.filter_eq_none_iff]
  intro op hop hlev
  have hr := h.loose op hop
  rw [eq_of_beq hlev] at hr
  omega

theorem Ends.mono {l l' : Level} {k : TokenKind} (h : Ends l k) (hl : l'.rank ≤ l.rank) :
    Ends l' k :=
  ⟨h.notCall, h.notIndex, fun op hop => Nat.lt_of_le_of_lt hl (h.loose op hop)⟩

theorem ends_mark {l : Level} {op : BinaryOp} (h : l.rank < op.level.rank) : Ends l (mark op) := by
  refine ⟨?_, ?_, fun op' h' => ?_⟩
  · cases op <;> decide
  · cases op <;> decide
  · have : op' = op := by cases op <;> cases h' <;> rfl
    rwa [this]

theorem operator?_of_mark {l : Level} {k : TokenKind} {op : BinaryOp} (hk : k = mark op)
    (hl : op.level = l) : l.operator? k = some op := by
  rw [hk, ← hl]
  cases op <;> rfl

theorem ends_of_ofToken? {l : Level} {k : TokenKind} (h : BinaryOp.ofToken? k = none)
    (hp : k ≠ .leftParen) (hb : k ≠ .leftBracket) : Ends l k :=
  ⟨hp, hb, fun op hop => by simp [h] at hop⟩

/-- A token closes an expression that is no sign of an operator and no bracket that opens. -/
theorem ends_closing {l : Level} {k : TokenKind}
    (h : k = .rightParen ∨ k = .rightBracket ∨ k = .comma ∨ k = .semicolon) : Ends l k := by
  obtain rfl | rfl | rfl | rfl := h <;> exact ends_of_ofToken? rfl (by decide) (by decide)

/-! ## How expressions start -/

/-- The tokens with which an expression starts. -/
def startsTerm (k : TokenKind) : Bool :=
  k.isLiteral || k == .leftParen || k == .identifier || k == .plus || k == .minus

theorem ne_of_startsTerm {k k' : TokenKind} (h : startsTerm k = true) (h' : startsTerm k' = false) :
    k ≠ k' := by
  rintro rfl
  exact absurd h (by simp [h'])

theorem Derives.start {l : Level} {ts : List Token} {x : Term} (h : Derives l ts x) :
    ∃ t us, ts = t :: us ∧ startsTerm t.kind = true ∧
      (l = .power ∨ l = .atom → UnaryOp.ofToken? t.kind = none) := by
  match h with
  | .ofEquality hx | .ofComparison hx | .ofAdditive hx | .ofMultiplicative hx | .ofUnary hx =>
    obtain ⟨t, us, hts, ht, -⟩ := hx.start
    exact ⟨t, us, hts, ht, nofun⟩
  | .assign hx _ _ | .equality hx _ _ _ | .comparison hx _ _ _ | .additive hx _ _ _
  | .multiplicative hx _ _ _ =>
    obtain ⟨t, us, rfl, ht, -⟩ := hx.start
    exact ⟨t, _, rfl, ht, nofun⟩
  | @Derives.unary _ t op _ hk _ =>
    refine ⟨t, _, rfl, ?_, nofun⟩
    rw [hk]
    cases op <;> rfl
  | .ofExponent hx =>
    obtain ⟨t, us, hts, ht, -⟩ := hx.start
    exact ⟨t, us, hts, ht, nofun⟩
  | .ofAtom hx =>
    obtain ⟨t, us, hts, ht, hu⟩ := hx.start
    exact ⟨t, us, hts, ht, fun _ => hu (.inr rfl)⟩
  | .exponent hx _ _ =>
    obtain ⟨t, us, rfl, ht, hu⟩ := hx.start
    exact ⟨t, _, rfl, ht, fun _ => hu (.inr rfl)⟩
  | .int hk | .float hk | .string hk | .paren hk _ _ | .var hk | .index hk _ _ _
  | .callNone hk _ _ | .call hk _ _ _ =>
    exact ⟨_, _, rfl, by rw [hk]; rfl, fun _ => by rw [hk]; rfl⟩

theorem DerivesList.start {ts : List Token} {xs : List Term} (h : DerivesList ts xs) :
    ∃ t us, ts = t :: us ∧ startsTerm t.kind = true := by
  cases h with
  | last hx =>
    obtain ⟨t, us, hts, ht, -⟩ := hx.start
    exact ⟨t, us, hts, ht⟩
  | more hx _ _ =>
    obtain ⟨t, us, rfl, ht, -⟩ := hx.start
    exact ⟨t, _, rfl, ht⟩

/-- No expression starts with two names. -/
theorem Derives.not_two_names {l : Level} {ts : List Token} {x : Term} (h : Derives l ts x)
    {rest : List Token} (hr : lead rest ≠ .identifier) {t : Token} {us : List Token}
    (hts : ts ++ rest = t :: us) (ht : t.kind = .identifier) : lead us ≠ .identifier := by
  match h with
  | .ofEquality hx | .ofComparison hx | .ofAdditive hx | .ofMultiplicative hx | .ofUnary hx
  | .ofExponent hx | .ofAtom hx => exact hx.not_two_names hr hts ht
  | .assign hx hk _ | .exponent hx hk _ =>
    rw [List.append_assoc] at hts
    refine hx.not_two_names ?_ hts ht
    rw [List.cons_append, lead_cons, hk]
    decide
  | @Derives.equality _ _ _ op _ _ hx hk _ _ | @Derives.comparison _ _ _ op _ _ hx hk _ _
  | @Derives.additive _ _ _ op _ _ hx hk _ _ | @Derives.multiplicative _ _ _ op _ _ hx hk _ _ =>
    rw [List.append_assoc] at hts
    refine hx.not_two_names ?_ hts ht
    rw [List.cons_append, lead_cons, hk]
    cases op <;> decide
  | @Derives.unary _ _ op _ hk _ =>
    obtain ⟨rfl, -⟩ := List.cons.inj hts
    rw [hk] at ht
    cases op <;> exact absurd ht (by decide)
  | .int hk | .float hk | .string hk | .paren hk _ _ =>
    obtain ⟨rfl, -⟩ := List.cons.inj hts
    exact absurd (hk.symm.trans ht) (by decide)
  | .var hk =>
    obtain ⟨rfl, rfl⟩ := List.cons.inj hts
    exact hr
  | .index _ hl _ _ | .callNone _ hl _ | .call _ hl _ _ =>
    obtain ⟨-, rfl⟩ := List.cons.inj hts
    exact fun hn => absurd (hl.symm.trans hn) (by decide)

end Grammar

/-! ## Expressions -/

namespace Parser

open Grammar

/-- From every state with these tokens ahead this tree is read, unless the token behind goes on with it. -/
def Reads (l : Level) (ts : List Token) (x : Term) : Prop :=
  (∀ t ∈ ts, t.Fits) → ∀ (s : Parser) (rest : List Token), s.ahead = ts ++ rest →
    Ends l (lead rest) → ∃ e t, Yields l s e t ∧ t.ahead = rest ∧ e.term = x

/-- The same for a layer of operators, when the token behind may be another one of them: a first operand
is read, and whatever goes on behind the tree goes on behind that operand. -/
def ReadsChain (l : Level) (ts : List Token) (x : Term) : Prop :=
  (∀ t ∈ ts, t.Fits) → ∀ (s : Parser) (rest : List Token), s.ahead = ts ++ rest →
    Ends l.tighter (lead rest) → ∃ lhs u y t, Yields l.tighter s lhs u ∧ t.ahead = rest ∧ y.term = x ∧
      ∀ e v, Continues l y t e v → Continues l lhs u e v

/-- From every state with these tokens and a closing parenthesis ahead these arguments are read. -/
def ReadsList (ts : List Token) (xs : List Term) : Prop :=
  (∀ t ∈ ts, t.Fits) → ∀ (s : Parser) (rest : List Token), s.ahead = ts ++ rest →
    lead rest = .rightParen → ∃ es t, ArgumentList s es t ∧ t.ahead = rest ∧ Expr.terms es = xs

variable {l : Level} {ts us : List Token} {t : Token} {op : BinaryOp} {x y : Term}

theorem ends_of_operator? (hl : l.isChain = true) (ht : l.operator? t.kind = some op) :
    Ends l.tighter t.kind := by
  obtain ⟨hk, rfl⟩ := mark_of_operator? ht
  rw [hk]
  exact ends_mark (rank_tighter_lt hl)

theorem isChain_of_operator? (ht : l.operator? t.kind = some op) : l.isChain = true := by
  obtain ⟨-, rfl⟩ := mark_of_operator? ht
  cases op <;> rfl

theorem ReadsChain.ofTighter (h : Reads l.tighter ts x) : ReadsChain l ts x := by
  intro hf s rest hs hr
  obtain ⟨e, t, he, ht, hx⟩ := h hf s rest hs hr
  exact ⟨e, t, e, t, he, ht, hx, fun _ _ ho => ho⟩

theorem ReadsChain.reads (hl : l.isChain = true) (h : ReadsChain l ts x) : Reads l ts x := by
  intro hf s rest hs hr
  obtain ⟨lhs, u, y, t, hy, ht, hx, ho⟩ :=
    h hf s rest hs (hr.mono (Nat.le_of_lt (rank_tighter_lt hl)))
  refine ⟨y, t, .layer hl hy (ho y t (.stop ?_)), ht, hx⟩
  rw [kind_peek, ht]
  exact hr.operator? (Nat.le_refl _)

theorem Reads.ofTighter (hl : l.isChain = true) (h : Reads l.tighter ts x) : Reads l ts x :=
  (ReadsChain.ofTighter h).reads hl

theorem ReadsChain.left (hg : l.grouping = .left) (ht : l.operator? t.kind = some op)
    (hx : ReadsChain l ts x) (hy : Reads l.tighter us y) :
    ReadsChain l (ts ++ t :: us) (.binary op x y) := by
  intro hf s rest hs hr
  obtain ⟨hfx, hfy⟩ := List.forall_mem_append.1 hf
  have hl := isChain_of_operator? ht
  have hs' : s.ahead = ts ++ (t :: us ++ rest) := by rw [hs, List.append_assoc]
  obtain ⟨lhs, u, a, v, hlhs, hv, ha, ho⟩ := hx hfx s _ hs' (ends_of_operator? hl ht)
  have hadv : v.advance.ahead = us ++ rest := ahead_advance hv (Level.ne_eof_of_operator? ht)
  obtain ⟨b, w, hb, hw, hby⟩ := hy (List.forall_mem_cons.1 hfy).2 v.advance rest hadv hr
  have hop : l.operator? v.peek.kind = some op := by rwa [peek_of_ahead hv]
  refine ⟨lhs, u, (w.binary a op v.peek.span b).1, (w.binary a op v.peek.span b).2, hlhs, hw, ?_,
    fun e z hz => ho e z (.left hop hg hb hz)⟩
  rw [← ha, ← hby]
  rfl

theorem Reads.right (hg : l.grouping = .right) (ht : l.operator? t.kind = some op)
    (hx : Reads l.tighter ts x) (hy : Reads l us y) : Reads l (ts ++ t :: us) (.binary op x y) := by
  intro hf s rest hs hr
  obtain ⟨hfx, hfy⟩ := List.forall_mem_append.1 hf
  have hl := isChain_of_operator? ht
  have hs' : s.ahead = ts ++ (t :: us ++ rest) := by rw [hs, List.append_assoc]
  obtain ⟨a, v, ha, hv, hax⟩ := hx hfx s _ hs' (ends_of_operator? hl ht)
  have hadv : v.advance.ahead = us ++ rest := ahead_advance hv (Level.ne_eof_of_operator? ht)
  obtain ⟨b, w, hb, hw, hby⟩ := hy (List.forall_mem_cons.1 hfy).2 v.advance rest hadv hr
  have hop : l.operator? v.peek.kind = some op := by rwa [peek_of_ahead hv]
  refine ⟨_, _, .layer hl ha (.right hop hg hb), hw, ?_⟩
  rw [Expr.term, hax, hby]

theorem Reads.once (hg : l.grouping = .once) (ht : l.operator? t.kind = some op)
    (hx : Reads l.tighter ts x) (hy : Reads l.tighter us y) :
    Reads l (ts ++ t :: us) (.binary op x y) := by
  intro hf s rest hs hr
  obtain ⟨hfx, hfy⟩ := List.forall_mem_append.1 hf
  have hl := isChain_of_operator? ht
  have hs' : s.ahead = ts ++ (t :: us ++ rest) := by rw [hs, List.append_assoc]
  obtain ⟨a, v, ha, hv, hax⟩ := hx hfx s _ hs' (ends_of_operator? hl ht)
  have hadv : v.advance.ahead = us ++ rest := ahead_advance hv (Level.ne_eof_of_operator? ht)
  obtain ⟨b, w, hb, hw, hby⟩ :=
    hy (List.forall_mem_cons.1 hfy).2 v.advance rest hadv (hr.mono (Nat.le_of_lt (rank_tighter_lt hl)))
  have hop : l.operator? v.peek.kind = some op := by rwa [peek_of_ahead hv]
  have hend : l.operator? w.peek.kind = none := by
    rw [kind_peek, hw]
    exact hr.operator? (Nat.le_refl _)
  refine ⟨_, _, .layer hl ha (.once hop hg hb hend), hw, ?_⟩
  rw [Expr.term, hax, hby]

theorem ahead_advance_two {s : Parser} {a b : Token} {ts : List Token} (hs : s.ahead = a :: b :: ts)
    (ha : a.kind ≠ .eof) (hb : b.kind ≠ .eof) :
    s.peek = a ∧ s.advance.peek = b ∧ s.advance.advance.ahead = ts := by
  have h := ahead_advance hs ha
  exact ⟨peek_of_ahead hs, peek_of_ahead h, ahead_advance h hb⟩

theorem Reads.unsigned (hx : Reads .power ts x)
    (hstart : ∃ t us, ts = t :: us ∧ UnaryOp.ofToken? t.kind = none) : Reads .sign ts x := by
  intro hf s rest hs hr
  obtain ⟨e, t, he, ht, hex⟩ := hx hf s rest hs (hr.mono (by decide))
  obtain ⟨a, us, hts, ha⟩ := hstart
  rw [hts] at hs
  exact ⟨e, t, .unsigned (by rwa [peek_of_ahead hs]) he, ht, hex⟩

theorem Reads.signed {op : UnaryOp} (ha : t.kind = signMark op) (hx : Reads .sign ts x) :
    Reads .sign (t :: ts) (.unary op x) := by
  intro hf s rest hs hr
  have hop : UnaryOp.ofToken? t.kind = some op := by
    rw [ha]
    cases op <;> rfl
  have hadv := ahead_advance hs (UnaryOp.ne_eof_of_ofToken? hop)
  obtain ⟨e, u, he, hu, hex⟩ := hx (List.forall_mem_cons.1 hf).2 s.advance rest hadv hr
  refine ⟨_, _, .signed (by rwa [peek_of_ahead hs]) he, hu, ?_⟩
  rw [Expr.term, hex]

theorem reads_int (hk : t.kind = .intLiteral) : Reads .atom [t] (.int (Decimal.value t.lexeme.toList)) := by
  intro hf s rest hs _
  obtain ⟨v, hv, hval⟩ := (hf t List.mem_cons_self).word? hk
  have hp := peek_of_ahead hs
  refine ⟨_, _, .int (by rw [hp, hk]) (by rw [hp, hv]), ahead_advance hs (by simp [hk]), ?_⟩
  rw [Expr.term, hval]

theorem reads_float (hk : t.kind = .floatLiteral) : Reads .atom [t] (.float (Binary64.ofDecimal? t.lexeme)) := by
  intro hf s rest hs _
  obtain ⟨v, hv⟩ := Option.isSome_iff_exists.1 ((hf t List.mem_cons_self).regular.float hk)
  have hp := peek_of_ahead hs
  refine ⟨_, _, .float (by rw [hp, hk]) (by rw [hp, hv]), ahead_advance hs (by simp [hk]), ?_⟩
  rw [Expr.term, hv]

theorem reads_string (hk : t.kind = .stringLiteral) : Reads .atom [t] (.string (quoted t.lexeme)) := by
  intro hf s rest hs _
  have hp := peek_of_ahead hs
  refine ⟨_, _, .string (by rw [hp, hk]), ahead_advance hs (by simp [hk]), ?_⟩
  rw [Expr.term, hp, (hf t List.mem_cons_self).regular.unquote_eq hk]

theorem reads_var (hk : t.kind = .identifier) : Reads .atom [t] (.var t.lexeme) := by
  intro hf s rest hs hr
  have hp := peek_of_ahead hs
  have hadv : s.advance.ahead = rest := ahead_advance hs (by simp [hk])
  refine ⟨_, _, .var (by rw [hp, hk]) ?_ ?_, hadv, ?_⟩
  · rw [check_eq, hadv]
    exact beq_eq_false_iff_ne.2 hr.notCall
  · rw [check_eq, hadv]
    exact beq_eq_false_iff_ne.2 hr.notIndex
  · rw [Expr.term, hp]

theorem Reads.closed (h : Reads .assignment ts x) (hf : ∀ t ∈ ts, t.Fits) {s : Parser} {r : Token}
    {k : TokenKind} {rest : List Token} (hs : s.ahead = ts ++ r :: rest) (hr : r.kind = k)
    (hk : k = .rightParen ∨ k = .rightBracket ∨ k = .comma ∨ k = .semicolon) :
    ∃ e t, Yields .assignment s e t ∧ t.check k = true ∧ t.advance.ahead = rest ∧ e.term = x := by
  obtain ⟨e, t, he, ht, hx⟩ := h hf s _ hs (by rw [lead_cons, hr]; exact ends_closing hk)
  refine ⟨e, t, he, check_of_ahead ht hr, ahead_advance ht ?_, hx⟩
  rw [hr]
  obtain rfl | rfl | rfl | rfl := hk <;> decide

theorem Reads.paren {a r : Token} (hl : a.kind = .leftParen) (hx : Reads .assignment ts x)
    (hr : r.kind = .rightParen) : Reads .atom (a :: ts ++ [r]) x := by
  intro hf s rest hs _
  obtain ⟨-, hfx⟩ := List.forall_mem_cons.1 (List.forall_mem_append.1 hf).1
  have hs' : s.ahead = a :: (ts ++ r :: rest) := by rw [hs]; simp
  obtain ⟨e, t, he, ht, hadv, hex⟩ := hx.closed hfx (ahead_advance hs' (by simp [hl])) hr (.inl rfl)
  exact ⟨e, t.advance, .paren (by rw [peek_of_ahead hs', hl]) he ht, hadv, hex⟩

theorem Reads.index {a b r : Token} (hk : a.kind = .identifier) (hl : b.kind = .leftBracket)
    (hx : Reads .assignment ts x) (hr : r.kind = .rightBracket) :
    Reads .atom (a :: b :: ts ++ [r]) (.index a.lexeme x) := by
  intro hf s rest hs _
  obtain ⟨-, -, hfx⟩ : _ ∧ _ ∧ ∀ t ∈ ts, t.Fits := by simpa using (List.forall_mem_append.1 hf).1
  have hs' : s.ahead = a :: b :: (ts ++ r :: rest) := by rw [hs]; simp
  obtain ⟨hp, hp', hadv⟩ := ahead_advance_two hs' (by simp [hk]) (by simp [hl])
  obtain ⟨e, t, he, ht, hrest, hex⟩ := hx.closed hfx hadv hr (by simp)
  refine ⟨_, _, .index (by rw [hp, hk]) ?_ he ht, hrest, ?_⟩
  · rw [check, hp', hl]
    rfl
  · rw [Expr.term, hp, hex]

theorem reads_callNone {a b r : Token} (hk : a.kind = .identifier) (hl : b.kind = .leftParen)
    (hr : r.kind = .rightParen) : Reads .atom [a, b, r] (.call a.lexeme []) := by
  intro hf s rest hs _
  obtain ⟨hp, hp', hadv⟩ := ahead_advance_two hs (by simp [hk]) (by simp [hl])
  have hclose := check_of_ahead hadv hr
  refine ⟨_, _, .call (by rw [hp, hk]) ?_ (.none hclose) hclose, ahead_advance hadv (by simp [hr]), ?_⟩
  · rw [check, hp', hl]
    rfl
  · rw [Expr.term, hp]
    rfl

theorem ReadsList.call {a b r : Token} {xs : List Term} (hk : a.kind = .identifier) (hl : b.kind = .leftParen)
    (hxs : ReadsList ts xs) (hstart : ∃ t us, ts = t :: us ∧ startsTerm t.kind = true) (hr : r.kind = .rightParen) :
    Reads .atom (a :: b :: ts ++ [r]) (.call a.lexeme xs) := by
  intro hf s rest hs _
  obtain ⟨-, -, hfx⟩ : _ ∧ _ ∧ ∀ t ∈ ts, t.Fits := by simpa using (List.forall_mem_append.1 hf).1
  have hs' : s.ahead = a :: b :: (ts ++ r :: rest) := by rw [hs]; simp
  obtain ⟨hp, hp', hadv⟩ := ahead_advance_two hs' (by simp [hk]) (by simp [hl])
  obtain ⟨es, t, hes, ht, hex⟩ := hxs hfx _ _ hadv hr
  obtain ⟨d, vs, rfl, hd⟩ := hstart
  refine ⟨_, _, .call (by rw [hp, hk]) ?_ (.some ?_ hes) (check_of_ahead ht hr), ahead_advance ht (by simp [hr]), ?_⟩
  · rw [check, hp', hl]
    rfl
  · rw [check_eq, hadv]
    exact beq_eq_false_iff_ne.2 (ne_of_startsTerm hd (by decide))
  · rw [Expr.term, hp, hex]

theorem Reads.last (hx : Reads .assignment ts x) : ReadsList ts [x] := by
  intro hf s rest hs hr
  obtain ⟨e, t, he, ht, hex⟩ := hx hf s rest hs (hr ▸ ends_closing (.inl rfl))
  refine ⟨[e], t, .last he ?_, ht, by rw [Expr.terms, hex]; rfl⟩
  rw [check_eq, ht, hr]
  rfl

theorem Reads.more {c : Token} {xs : List Term} (hx : Reads .assignment ts x) (hc : c.kind = .comma)
    (hxs : ReadsList us xs) : ReadsList (ts ++ c :: us) (x :: xs) := by
  intro hf s rest hs hr
  obtain ⟨hfx, hfy⟩ := List.forall_mem_append.1 hf
  have hs' : s.ahead = ts ++ c :: (us ++ rest) := by rw [hs]; simp
  obtain ⟨e, t, he, ht, hadv, hex⟩ := hx.closed hfx hs' hc (by simp)
  obtain ⟨es, u, hes, hu, hexs⟩ := hxs (List.forall_mem_cons.1 hfy).2 t.advance rest hadv hr
  exact ⟨e :: es, u, .more he ht hes, hu, by rw [Expr.terms, hex, hexs]⟩

mutual

/-- **A derived expression is read.** -/
theorem reads_of_derives {l : Level} {ts : List Token} {x : Term} (h : Derives l ts x) :
    Reads l ts x ∧ (l.grouping = .left → l.isChain = true → ReadsChain l ts x) := by
  match h with
  | .ofEquality hx | .ofComparison hx | .ofAdditive hx | .ofAtom hx =>
    exact ⟨.ofTighter rfl (reads_of_derives hx).1, nofun⟩
  | .ofMultiplicative hx =>
    have hc : ReadsChain .sum ts x := .ofTighter (reads_of_derives hx).1
    exact ⟨hc.reads rfl, fun _ _ => hc⟩
  | .ofUnary hx =>
    have hc : ReadsChain .product ts x := .ofTighter (reads_of_derives hx).1
    exact ⟨hc.reads rfl, fun _ _ => hc⟩
  | .assign hx ht hy | .exponent hx ht hy =>
    exact ⟨.right rfl (operator?_of_mark ht rfl) (reads_of_derives hx).1 (reads_of_derives hy).1, nofun⟩
  | @Derives.equality _ _ _ op _ _ hx ht hop hy =>
    have hlev : op.level = .equality := by obtain rfl | rfl := hop <;> rfl
    exact ⟨.once rfl (operator?_of_mark ht hlev) (reads_of_derives hx).1 (reads_of_derives hy).1, nofun⟩
  | @Derives.comparison _ _ _ op _ _ hx ht hop hy =>
    have hlev : op.level = .comparison := by obtain rfl | rfl | rfl | rfl := hop <;> rfl
    exact ⟨.once rfl (operator?_of_mark ht hlev) (reads_of_derives hx).1 (reads_of_derives hy).1, nofun⟩
  | @Derives.additive _ _ _ op _ _ hx ht hop hy =>
    have hlev : op.level = .sum := by obtain rfl | rfl := hop <;> rfl
    have hc := ReadsChain.left rfl (operator?_of_mark ht hlev) ((reads_of_derives hx).2 rfl rfl)
      (reads_of_derives hy).1
    exact ⟨hc.reads rfl, fun _ _ => hc⟩
  | @Derives.multiplicative _ _ _ op _ _ hx ht hop hy =>
    have hlev : op.level = .product := by obtain rfl | rfl | rfl := hop <;> rfl
    have hc := ReadsChain.left rfl (operator?_of_mark ht hlev) ((reads_of_derives hx).2 rfl rfl)
      (reads_of_derives hy).1
    exact ⟨hc.reads rfl, fun _ _ => hc⟩
  | .ofExponent hx =>
    obtain ⟨a, us, hts, -, hu⟩ := hx.start
    exact ⟨.unsigned (reads_of_derives hx).1 ⟨a, us, hts, hu (.inl rfl)⟩, nofun⟩
  | .unary ht hx => exact ⟨.signed ht (reads_of_derives hx).1, nofun⟩
  | .int hk => exact ⟨reads_int hk, nofun⟩
  | .float hk => exact ⟨reads_float hk, nofun⟩
  | .string hk => exact ⟨reads_string hk, nofun⟩
  | .paren hl hx hr => exact ⟨.paren hl (reads_of_derives hx).1 hr, nofun⟩
  | .var hk => exact ⟨reads_var hk, nofun⟩
  | .index hk hl hx hr => exact ⟨.index hk hl (reads_of_derives hx).1 hr, nofun⟩
  | .callNone hk hl hr => exact ⟨reads_callNone hk hl hr, nofun⟩
  | .call hk hl hxs hr => exact ⟨(readsList_of_derivesList hxs).call hk hl hxs.start hr, nofun⟩

theorem readsList_of_derivesList {ts : List Token} {xs : List Term} (h : DerivesList ts xs) : ReadsList ts xs := by
  match h with
  | .last hx => exact (reads_of_derives hx).1.last
  | .more hx hc hxs => exact (reads_of_derives hx).1.more hc (readsList_of_derivesList hxs)

end

end Parser

end MicroC
