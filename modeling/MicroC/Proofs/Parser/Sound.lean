import MicroC.Proofs.Parser.Grammar
import MicroC.Proofs.Parser.ProgramTrace
import MicroC.Proofs.Token.Lexeme

/-!
# Parsed trees are derived

What a parser reads is derivable in the grammar, and the tree it builds is the tree of that derivation.
Every `else` belongs to the nearest `if`.

* `Parser.Regular`: all tokens ahead are as a scan reports them.
* `Parser.Spans`: the tokens read between two states, whose integers are in range.
* **`derives_of_yields`**, **`statement_derives`**, **`routines_of_yieldsFuncs`**.
-/

namespace MicroC

namespace Token.Regular

variable {t : Token}

theorem unquote_eq (h : t.Regular) (hk : t.kind = .stringLiteral) :
    Parser.unquote t.lexeme = Grammar.quoted t.lexeme := by
  obtain ⟨cs, hcs⟩ := h.string hk
  simp [Parser.unquote, Grammar.quoted, hcs]

theorem int?_eq (h : t.Regular) (hk : t.kind = .intLiteral) :
    Decimal.int? t.lexeme.toList = some (Decimal.value t.lexeme.toList : Int) := by
  obtain ⟨hne, hall⟩ := h.int hk
  have hn : Decimal.nat? t.lexeme.toList = some (Decimal.value t.lexeme.toList) := by
    rw [Decimal.nat?, if_pos ⟨hne, hall⟩]
  have hd : ∀ c ∈ t.lexeme.toList, c.isDigit = true := fun c hc => List.all_eq_true.1 hall c hc
  unfold Decimal.int?
  split
  · next heq => exact absurd (hd '-' (by simp [heq])) (by decide)
  · next heq => exact absurd (hd '+' (by simp [heq])) (by decide)
  · rw [hn]
    rfl

/-- An integer token is read as a word exactly when its value is in range. -/
theorem word?_eq_some (h : t.Regular) (hk : t.kind = .intLiteral) {v : Int64} :
    word? t.lexeme = some v ↔
      Decimal.value t.lexeme.toList ≤ Int64.maxValue.toInt.toNat ∧
        v.toInt = Decimal.value t.lexeme.toList := by
  rw [word?, h.int?_eq hk, Option.bind_some, Decimal.word?]
  have hmax : Int64.maxValue.toInt = 9223372036854775807 := by decide
  have hmin : Int64.minValue.toInt = -9223372036854775808 := by decide
  rw [hmax, hmin]
  constructor
  · intro hv
    split at hv
    · next hr =>
      cases hv
      refine ⟨by omega, Int64.toInt_ofInt_of_le ?_ ?_⟩ <;> omega
    · simp at hv
  · rintro ⟨hr, hv⟩
    rw [if_pos (by omega), ← hv, Int64.ofInt_toInt]

end Token.Regular

namespace Parser

open Grammar

/-- All tokens ahead are as a scan reports them. -/
def Regular (s : Parser) : Prop := ∀ t ∈ s.ahead, t.Regular

theorem ahead_of_peek {s : Parser} (h : s.peek.kind ≠ .eof) :
    s.ahead = s.peek :: s.advance.ahead := by
  unfold peek peekAt at h ⊢
  unfold advance
  cases hs : s.ahead with
  | nil => simp [hs, endToken] at h
  | cons t ts => simp_all

theorem Regular.peek {s : Parser} (hs : s.Regular) (h : s.peek.kind ≠ .eof) : s.peek.Regular :=
  hs _ (by rw [ahead_of_peek h]; exact List.mem_cons_self)

theorem mem_ahead_of_advance {s : Parser} {t : Token} (h : t ∈ s.advance.ahead) : t ∈ s.ahead := by
  unfold Parser.advance at h
  split at h
  · exact h
  · next heq =>
    split at h
    · exact h
    · rw [heq]
      exact List.mem_cons_of_mem _ h

theorem Regular.advance {s : Parser} (hs : s.Regular) : s.advance.Regular :=
  fun t ht => hs t (mem_ahead_of_advance ht)

/-- From `s` to `t` these tokens are read, and their integers are in range. -/
structure Spans (s : Parser) (ts : List Token) (t : Parser) : Prop where
  ahead : s.ahead = ts ++ t.ahead
  inRange : InRange ts

theorem Regular.of_spans {s t : Parser} {ts : List Token} (hs : s.Regular) (h : s.Spans ts t) :
    t.Regular :=
  fun x hx => hs x (by rw [h.ahead]; exact List.mem_append_right ts hx)

namespace Spans

variable {s t u : Parser} {ts us : List Token} {k : TokenKind}

theorem refl (s : Parser) : s.Spans [] s := ⟨rfl, nofun⟩

theorem trans (h : s.Spans ts t) (h' : t.Spans us u) : s.Spans (ts ++ us) u := by
  refine ⟨by rw [h.ahead, h'.ahead, List.append_assoc], fun x hx => ?_⟩
  obtain hx | hx := List.mem_append.1 hx
  · exact h.inRange x hx
  · exact h'.inRange x hx

theorem step (hk : s.peek.kind = k) (h : s.advance.Spans ts t) (hne : k ≠ .eof := by decide)
    (hi : k ≠ .intLiteral := by decide) : s.Spans (s.peek :: ts) t := by
  refine ⟨?_, fun x hx hxi => ?_⟩
  · rw [ahead_of_peek (by rwa [hk]), h.ahead]
    rfl
  · obtain rfl | hx := List.mem_cons.1 hx
    · exact absurd (hk.symm.trans hxi) hi
    · exact h.inRange x hx hxi

theorem fresh {span : Span} (h : s.Spans ts t) : s.Spans ts (t.fresh span).2 :=
  ⟨h.ahead, h.inRange⟩

theorem ofFresh {span : Span} (h : (s.fresh span).2.Spans ts t) : s.Spans ts t :=
  ⟨h.ahead, h.inRange⟩

theorem one (hk : s.peek.kind = k) (hne : k ≠ .eof := by decide)
    (hi : k ≠ .intLiteral := by decide) : s.Spans [s.peek] s.advance :=
  step hk (refl _) hne hi

theorem operator {l : Level} {op : BinaryOp} (hop : l.operator? s.peek.kind = some op)
    (h : s.advance.Spans ts t) : s.Spans (s.peek :: ts) t := by
  refine step rfl h (Level.ne_eof_of_operator? hop) ?_
  intro hk
  rw [hk] at hop
  simp [Level.operator?, BinaryOp.ofToken?] at hop

theorem int (hs : s.Regular) (hk : s.peek.kind = .intLiteral) {v : Int64}
    (hv : word? s.peek.lexeme = some v) : s.Spans [s.peek] s.advance := by
  have hne : s.peek.kind ≠ .eof := by simp [hk]
  refine ⟨ahead_of_peek hne, fun x hx _ => ?_⟩
  rw [List.mem_singleton.1 hx]
  exact (((hs.peek hne).word?_eq_some hk).1 hv).1

end Spans

end Parser

/-! ## Operators -/

namespace Grammar

theorem mark_of_operator? {l : Level} {k : TokenKind} {op : BinaryOp}
    (h : l.operator? k = some op) : k = mark op ∧ op.level = l := by
  rw [Level.operator?, Option.filter_eq_some_iff] at h
  refine ⟨?_, by simpa using h.2⟩
  cases k <;> simp [BinaryOp.ofToken?] at h <;> simp [← h.1, mark]

theorem signMark_of_ofToken? {k : TokenKind} {op : UnaryOp} (h : UnaryOp.ofToken? k = some op) :
    k = signMark op := by
  cases k <;> simp [UnaryOp.ofToken?] at h <;> simp [← h, signMark]

/-- A tighter expression is an expression of the layer. -/
theorem Derives.ofTighter {l : Level} (hl : l.isChain = true) {ts : List Token} {x : Term}
    (h : Derives l.tighter ts x) : Derives l ts x := by
  cases l with
  | assignment => exact .ofEquality h
  | equality => exact .ofComparison h
  | comparison => exact .ofAdditive h
  | sum => exact .ofMultiplicative h
  | product => exact .ofUnary h
  | power => exact .ofAtom h
  | sign => exact absurd hl (by decide)
  | atom => exact absurd hl (by decide)

theorem Derives.right {l : Level} (hg : l.grouping = .right) {t : Token} {op : BinaryOp}
    (ht : l.operator? t.kind = some op) {ts us : List Token} {x y : Term}
    (hx : Derives l.tighter ts x) (hy : Derives l us y) :
    Derives l (ts ++ t :: us) (.binary op x y) := by
  obtain ⟨hk, rfl⟩ := mark_of_operator? ht
  cases op <;> first | exact absurd hg (by decide) | skip
  · exact .assign hx hk hy
  · exact .exponent hx hk hy

theorem Derives.once {l : Level} (hg : l.grouping = .once) {t : Token} {op : BinaryOp}
    (ht : l.operator? t.kind = some op) {ts us : List Token} {x y : Term}
    (hx : Derives l.tighter ts x) (hy : Derives l.tighter us y) :
    Derives l (ts ++ t :: us) (.binary op x y) := by
  obtain ⟨hk, rfl⟩ := mark_of_operator? ht
  cases op <;> first
    | exact absurd hg (by decide)
    | exact .equality hx hk (by simp) hy
    | exact .comparison hx hk (by simp) hy

theorem Derives.left {l : Level} (hg : l.grouping = .left) {t : Token} {op : BinaryOp}
    (ht : l.operator? t.kind = some op) {ts us : List Token} {x y : Term}
    (hx : Derives l ts x) (hy : Derives l.tighter us y) :
    Derives l (ts ++ t :: us) (.binary op x y) := by
  obtain ⟨hk, rfl⟩ := mark_of_operator? ht
  cases op <;> first
    | exact absurd hg (by decide)
    | exact .additive hx hk (by simp) hy
    | exact .multiplicative hx hk (by simp) hy

end Grammar

/-! ## Expressions -/

namespace Parser

open Grammar

mutual

/-- **A parsed expression is derived.** -/
theorem derives_of_yields {l : Level} {s t : Parser} {e : Expr} (h : Yields l s e t)
    (hs : s.Regular) : ∃ ts, s.Spans ts t ∧ Derives l ts e.term := by
  match h with
  | .layer hl hx ho =>
    obtain ⟨ts, hts, hd⟩ := derives_of_yields hx hs
    obtain ⟨us, hus, hc⟩ := derives_of_continues ho (hs.of_spans hts)
    refine ⟨ts ++ us, hts.trans hus, ?_⟩
    by_cases hg : l.grouping = .left
    · exact hc.1 hg (.ofTighter hl hd)
    · exact hc.2 hg hl hd
  | @Yields.signed _ _ op _ hop hx =>
    obtain ⟨ts, hts, hd⟩ := derives_of_yields hx hs.advance
    have hk := signMark_of_ofToken? hop
    exact ⟨s.peek :: ts, .fresh (.step hk hts (by cases op <;> decide) (by cases op <;> decide)),
      .unary hk hd⟩
  | .unsigned hop hx =>
    obtain ⟨ts, hts, hd⟩ := derives_of_yields hx hs
    exact ⟨ts, hts, .ofExponent hd⟩
  | .int hk hv =>
    refine ⟨[s.peek], .fresh (.int hs hk hv), ?_⟩
    rw [Expr.term, (((hs.peek (by simp [hk])).word?_eq_some hk).1 hv).2]
    exact .int hk
  | .float hk hv =>
    refine ⟨[s.peek], .fresh (.one hk), ?_⟩
    rw [Expr.term, ← hv]
    exact .float hk
  | .string hk =>
    refine ⟨[s.peek], .fresh (.one hk), ?_⟩
    rw [Expr.term, (hs.peek (by simp [hk])).unquote_eq hk]
    exact .string hk
  | .paren hk he hc =>
    obtain ⟨ts, hts, hd⟩ := derives_of_yields he hs.advance
    exact ⟨_, .step hk (hts.trans (.one (eq_of_beq hc))), .paren hk hd (eq_of_beq hc)⟩
  | .var hk hp hb => exact ⟨[s.peek], .fresh (.one hk), .var hk⟩
  | .index hk hb hi hc =>
    obtain ⟨ts, hts, hd⟩ := derives_of_yields hi hs.advance.advance
    exact ⟨_, .fresh (.step hk (.step (eq_of_beq hb) (hts.trans (.one (eq_of_beq hc))))),
      .index hk (eq_of_beq hb) hd (eq_of_beq hc)⟩
  | .call hk hp ha hc =>
    obtain ⟨ts, hts, hd⟩ := derivesList_of_arguments ha hs.advance.advance
    refine ⟨_, .fresh (.step hk (.step (eq_of_beq hp) (hts.trans (.one (eq_of_beq hc))))), ?_⟩
    rw [Expr.term]
    obtain ⟨rfl, hnil⟩ | hd := hd
    · rw [hnil]
      exact .callNone hk (eq_of_beq hp) (eq_of_beq hc)
    · exact .call hk (eq_of_beq hp) hd (eq_of_beq hc)

theorem derives_of_continues {l : Level} {lhs e : Expr} {s t : Parser}
    (h : Continues l lhs s e t) (hs : s.Regular) :
    ∃ us, s.Spans us t ∧
      (l.grouping = .left → ∀ {ts}, Derives l ts lhs.term → Derives l (ts ++ us) e.term) ∧
      (l.grouping ≠ .left → l.isChain = true → ∀ {ts}, Derives l.tighter ts lhs.term →
        Derives l (ts ++ us) e.term) := by
  match h with
  | .stop hop =>
    refine ⟨[], .refl _, fun _ ts hd => by rwa [List.append_nil], fun _ hl ts hd => ?_⟩
    rw [List.append_nil]
    exact .ofTighter hl hd
  | .right hop hg hx =>
    obtain ⟨us, hus, hd⟩ := derives_of_yields hx hs.advance
    refine ⟨s.peek :: us, .fresh (.operator hop hus), fun hl => ?_, fun _ _ ts hts => ?_⟩
    · rw [hg] at hl
      exact absurd hl (by decide)
    · exact .right hg hop hts hd
  | .once hop hg hx hn =>
    obtain ⟨us, hus, hd⟩ := derives_of_yields hx hs.advance
    refine ⟨s.peek :: us, .fresh (.operator hop hus), fun hl => ?_, fun _ _ ts hts => ?_⟩
    · rw [hg] at hl
      exact absurd hl (by decide)
    · exact .once hg hop hts hd
  | .left (t := u) hop hg hx ho =>
    obtain ⟨us, hus, hd⟩ := derives_of_yields hx hs.advance
    have hu := hs.advance.of_spans hus
    obtain ⟨vs, hvs, hc⟩ := derives_of_continues ho hu
    refine ⟨s.peek :: us ++ vs, (Spans.operator hop hus).trans ⟨hvs.ahead, hvs.inRange⟩,
      fun _ ts hts => ?_, fun hl => absurd hg hl⟩
    have := hc.1 hg (Derives.left hg hop hts hd)
    rwa [List.append_assoc] at this

theorem derivesList_of_arguments {s t : Parser} {es : List Expr} (h : Arguments s es t)
    (hs : s.Regular) :
    ∃ ts, s.Spans ts t ∧ (ts = [] ∧ Expr.terms es = [] ∨ DerivesList ts (Expr.terms es)) := by
  match h with
  | .none hc => exact ⟨[], .refl _, .inl ⟨rfl, rfl⟩⟩
  | .some hc he =>
    obtain ⟨ts, hts, hd⟩ := derivesList_of_argumentList he hs
    exact ⟨ts, hts, .inr hd⟩

theorem derivesList_of_argumentList {s t : Parser} {es : List Expr} (h : ArgumentList s es t)
    (hs : s.Regular) : ∃ ts, s.Spans ts t ∧ DerivesList ts (Expr.terms es) := by
  match h with
  | .last he hc =>
    obtain ⟨ts, hts, hd⟩ := derives_of_yields he hs
    exact ⟨ts, hts, .last hd⟩
  | .more he hc hes =>
    obtain ⟨ts, hts, hd⟩ := derives_of_yields he hs
    obtain ⟨us, hus, hds⟩ := derivesList_of_argumentList hes (hs.of_spans hts).advance
    exact ⟨_, hts.trans (.step (eq_of_beq hc) hus), .more hd (eq_of_beq hc) hds⟩

end

/-! ## Statements -/

theorem simple_of_yieldsSimple {s t : Parser} {x : Stmt} (h : YieldsSimple s x t)
    (hs : s.Regular) : ∃ ts, s.Spans ts t ∧ Simple ts x.phrase := by
  cases h with
  | empty hc => exact ⟨_, .fresh (.one (eq_of_beq hc)), .empty (eq_of_beq hc)⟩
  | expr hc hd he hq =>
    obtain ⟨ts, hts, hx⟩ := derives_of_yields he hs
    exact ⟨_, .fresh (hts.trans (.one (eq_of_beq hq))), .expr hx (eq_of_beq hq)⟩
  | decl hd hq =>
    obtain ⟨hk, hn⟩ := checks_of_startsDeclaration hd
    exact ⟨_, .fresh (.step (eq_of_beq hk) (.step (eq_of_beq hn) (.one (eq_of_beq hq)))),
      .decl (eq_of_beq hk) (eq_of_beq hn) (eq_of_beq hq)⟩
  | init hd hq he hc =>
    obtain ⟨hk, hn⟩ := checks_of_startsDeclaration hd
    obtain ⟨ts, hts, hx⟩ := derives_of_yields he hs.advance.advance.advance
    exact ⟨_, .fresh (.step (eq_of_beq hk) (.step (eq_of_beq hn) (.step (eq_of_beq hq)
      (hts.trans (.one (eq_of_beq hc)))))),
      .init (eq_of_beq hk) (eq_of_beq hn) (eq_of_beq hq) hx (eq_of_beq hc)⟩
  | array hd hb ha hi hv hu hc hq =>
    subst ha hu
    obtain ⟨hk, hn⟩ := checks_of_startsDeclaration hd
    have hreg := hs.advance.advance.advance
    have hki := eq_of_beq hi
    have hv' := ((hreg.peek (by simp [hki])).word?_eq_some hki).1 hv
    have hspan := (Spans.fresh (.int hreg hki hv)).trans
      (.step (eq_of_beq hc) (.one (eq_of_beq hq)))
    refine ⟨_, .fresh (.step (eq_of_beq hk) (.step (eq_of_beq hn) (.step (eq_of_beq hb) hspan))), ?_⟩
    rw [Stmt.phrase, hv'.2]
    exact .array (eq_of_beq hk) (eq_of_beq hn) (eq_of_beq hb) hki (eq_of_beq hc) (eq_of_beq hq)

mutual

/-- **A parsed statement is derived.** If it ends in an `if` without `else`, no `else` is ahead. -/
theorem statement_derives {s t : Parser} {x : Stmt} (h : YieldsStmt s x t) (hs : s.Regular) :
    ∃ o ts, s.Spans ts t ∧ Statement true o ts x.phrase ∧ (o = true → t.check .elseKw = false) := by
  match h with
  | .simple hk hx =>
    obtain ⟨ts, hts, hd⟩ := simple_of_yieldsSimple hx hs
    exact ⟨false, ts, hts, .simple hd, nofun⟩
  | .ret hk hq =>
    exact ⟨false, _, .fresh (.step (eq_of_beq hk) (.one (eq_of_beq hq))),
      .ret (eq_of_beq hk) (eq_of_beq hq), nofun⟩
  | .retValue hk hn he hq =>
    obtain ⟨ts, hts, hd⟩ := derives_of_yields he hs.advance
    exact ⟨false, _, .fresh (.step (eq_of_beq hk) (hts.trans (.one (eq_of_beq hq)))),
      .retValue (eq_of_beq hk) hd (eq_of_beq hq), nofun⟩
  | .ifThen hk ho hc hp hx hn =>
    obtain ⟨ts, hts, hd⟩ := derives_of_yields hc hs.advance.advance
    obtain ⟨o, us, hus, hd', -⟩ := statement_derives hx (hs.advance.advance.of_spans hts).advance
    exact ⟨true, _, .fresh ((Spans.step (eq_of_beq hk) (.step (eq_of_beq ho) hts)).trans
      (.step (eq_of_beq hp) hus)),
      .ifThen (eq_of_beq hk) (eq_of_beq ho) hd (eq_of_beq hp) hd', fun _ => hn⟩
  | .ifElse hk ho hc hp hx he hy =>
    obtain ⟨ts, hts, hd⟩ := derives_of_yields hc hs.advance.advance
    have hu := (hs.advance.advance.of_spans hts).advance
    obtain ⟨o, us, hus, hd', hel⟩ := statement_derives hx hu
    obtain ⟨o', vs, hvs, hd'', hel'⟩ := statement_derives hy (hu.of_spans hus).advance
    have hopen : o = false := by
      cases o with
      | false => rfl
      | true => exact absurd he (by simp [hel rfl])
    exact ⟨o', _, .fresh (((Spans.step (eq_of_beq hk) (.step (eq_of_beq ho) hts)).trans
      (.step (eq_of_beq hp) hus)).trans (.step (eq_of_beq he) hvs)),
      .ifElse (eq_of_beq hk) (eq_of_beq ho) hd (eq_of_beq hp) hd' (fun _ => hopen) (eq_of_beq he)
        hd'', hel'⟩
  | .loop hk ho hc hp hx =>
    obtain ⟨ts, hts, hd⟩ := derives_of_yields hc hs.advance.advance
    obtain ⟨o, us, hus, hd', hel⟩ := statement_derives hx (hs.advance.advance.of_spans hts).advance
    exact ⟨o, _, .fresh ((Spans.step (eq_of_beq hk) (.step (eq_of_beq ho) hts)).trans
      (.step (eq_of_beq hp) hus)),
      .loop (eq_of_beq hk) (eq_of_beq ho) hd (eq_of_beq hp) hd', hel⟩
  | .forLoop hk ho hi hc hq hn hp hb =>
    obtain ⟨is, his, hd⟩ := simple_of_yieldsSimple hi hs.advance.advance
    have ht := hs.advance.advance.of_spans his
    obtain ⟨ts, hts, hd'⟩ := derives_of_yields hc ht
    have hu := (ht.of_spans hts).advance
    obtain ⟨us, hus, hd''⟩ := derives_of_yields hn hu
    obtain ⟨o, vs, hvs, hb', hel⟩ := statement_derives hb (hu.of_spans hus).advance
    have hspan := (((Spans.step (eq_of_beq hk) (.step (eq_of_beq ho) his)).trans hts).trans
      (.step (eq_of_beq hq) hus)).trans (.step (eq_of_beq hp) hvs)
    exact ⟨o, _, ⟨hspan.ahead, hspan.inRange⟩,
      .forLoop (eq_of_beq hk) (eq_of_beq ho) hd hd' (eq_of_beq hq) hd'' (eq_of_beq hp) hb', hel⟩
  | .block hb =>
    obtain ⟨ts, l, r, hts, hl, hd, hr⟩ := block_derives hb hs
    exact ⟨false, l :: ts ++ [r], hts, .block hl hd hr, nofun⟩

theorem block_derives {s t : Parser} {b : Site × List Stmt} (h : YieldsBlock s b t)
    (hs : s.Regular) :
    ∃ ts l r, s.Spans (l :: ts ++ [r]) t ∧ l.kind = .leftBrace ∧
      Statements true ts (Stmt.phrases b.2) ∧ r.kind = .rightBrace := by
  match h with
  | .mk hb hxs hc =>
    obtain ⟨ts, hts, hd⟩ := statements_derive hxs hs.advance
    exact ⟨ts, _, _, .fresh (.step (eq_of_beq hb) (hts.trans (.one (eq_of_beq hc)))),
      eq_of_beq hb, hd, eq_of_beq hc⟩

theorem statements_derive {s t : Parser} {xs : List Stmt} (h : YieldsStmts s xs t)
    (hs : s.Regular) : ∃ ts, s.Spans ts t ∧ Statements true ts (Stmt.phrases xs) := by
  match h with
  | .nil hc => exact ⟨[], .refl _, .nil⟩
  | .cons hc hx hxs =>
    obtain ⟨o, ts, hts, hd, -⟩ := statement_derives hx hs
    obtain ⟨us, hus, hds⟩ := statements_derive hxs (hs.of_spans hts)
    exact ⟨ts ++ us, hts.trans hus, .cons hd hds⟩

end

/-! ## Programs -/

theorem params_derive {s t : Parser} {ps : List Binder} (h : YieldsParamList s ps t) :
    ∃ ts, s.Spans ts t ∧ Params ts (ps.map Binder.param) := by
  induction h with
  | last hp hc =>
    obtain ⟨hk, hn⟩ := hp
    exact ⟨_, .fresh (.step (eq_of_beq hk) (.one (eq_of_beq hn))), .last (eq_of_beq hk) (eq_of_beq hn)⟩
  | more hp hc hps ih =>
    obtain ⟨ts, hts, hd⟩ := ih
    obtain ⟨hk, hn⟩ := hp
    exact ⟨_, .step (eq_of_beq hk) (.step (eq_of_beq hn) (.ofFresh (.step (eq_of_beq hc) hts))),
      .more (eq_of_beq hk) (eq_of_beq hn) (eq_of_beq hc) hd⟩

/-- **Parsed functions are derived.** -/
theorem routines_of_yieldsFuncs {s t : Parser} {fs : List Func} (h : YieldsFuncs s fs t)
    (hs : s.Regular) : ∃ ts, s.Spans ts t ∧ Routines true ts (fs.map Func.routine) := by
  induction h with
  | nil hc => exact ⟨[], .refl _, .nil⟩
  | @cons s t u f fs hc hf hfs ih =>
    cases hf with | @mk v w ps b hk hn ho hps hp hb =>
    have hps' : ∃ ts, s.advance.advance.advance.Spans ts v ∧
        (ts = [] ∧ ps.map Binder.param = [] ∨ Params ts (ps.map Binder.param)) := by
      cases hps with
      | none => exact ⟨[], .refl _, .inl ⟨rfl, rfl⟩⟩
      | some _ hps =>
        obtain ⟨ts, hts, hd⟩ := params_derive hps
        exact ⟨ts, hts, .inr hd⟩
    obtain ⟨qs, hqs, hq⟩ := hps'
    have hv := (hs.advance.advance.advance.of_spans hqs).advance
    obtain ⟨ts, l, r, hts, hl, hd, hr⟩ := block_derives hb hv
    obtain ⟨us, hus, hds⟩ := ih (hv.of_spans hts.fresh)
    have hspan := Spans.step (eq_of_beq hk) (.step (eq_of_beq hn) (.step (eq_of_beq ho)
      (hqs.trans (.step (eq_of_beq hp) (hts.trans (.ofFresh hus))))))
    refine ⟨_, hspan, ?_⟩
    have hlist : s.peek :: s.advance.peek :: s.advance.advance.peek :: (qs ++ v.peek ::
        (l :: ts ++ [r] ++ us)) = s.peek :: s.advance.peek :: s.advance.advance.peek :: qs ++
          v.peek :: l :: ts ++ r :: us := by simp
    rw [hlist]
    exact .cons (eq_of_beq hk) (eq_of_beq hn) (eq_of_beq ho) hq (eq_of_beq hp) hl hd hr hds

end Parser

end MicroC
