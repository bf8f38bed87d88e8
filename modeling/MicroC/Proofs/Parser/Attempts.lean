import MicroC.Proofs.Parser.Cursor
import MicroC.Proofs.Parser.Prompt

/-!
# Attempts that end

An attempt with enough nested calls ends as the step of the parser from the same place does. On its way it reads one
token after the other, none of them an end of file, and it asks for no token that the buffer does not have.

* `Cursor.At`: a cursor and a parser at the same place.
* `Cursor.Passes`: the way from one cursor to another.
* `Attempt.Ends`: how an attempt ends.
* `Attempt.Ends.reading`, `Attempt.Ends.progress`, `Attempt.Ends.eating`: the ways in which attempts are made.
-/

namespace MicroC

open MicroC.Parser

/-- Tokens with an end of file behind them. -/
def closed (tokens : List Token) : List Token := tokens ++ [(Parser.ofTokens tokens).endToken]

/-- The index of the first end of file. -/
def firstEnd (buffer : List Token) : Nat := buffer.findIdx (·.kind == .eof)

section Buffers

variable {tokens : List Token} {i : Nat}

theorem length_closed (tokens : List Token) : (closed tokens).length = tokens.length + 1 := by
  rw [closed, List.length_append, List.length_singleton]

theorem firstEnd_closed_le (tokens : List Token) : firstEnd (closed tokens) ≤ tokens.length := by
  have hlt : firstEnd (closed tokens) < (closed tokens).length :=
    List.findIdx_lt_length_of_exists ⟨_, List.mem_append_right _ (List.mem_singleton_self _), rfl⟩
  rw [length_closed] at hlt
  exact Nat.le_of_lt_succ hlt

theorem getElem?_closed (hi : i ≤ tokens.length) :
    (closed tokens)[i]? = some ((tokens.drop i).headD (Parser.ofTokens tokens).endToken) := by
  rcases Nat.lt_or_eq_of_le hi with hlt | rfl
  · rw [closed, List.getElem?_append_left hlt, List.drop_eq_getElem_cons hlt, List.getElem?_eq_getElem hlt]
    rfl
  · rw [closed, List.getElem?_append_right (Nat.le_refl _), List.drop_length, Nat.sub_self]
    rfl

/-- A token at the first end of file or in front of it, which is no end of file, is in front of it. -/
theorem lt_firstEnd {t : Token} (hi : i ≤ firstEnd (closed tokens)) (ht : (closed tokens)[i]? = some t)
    (hk : t.kind ≠ .eof) : i < firstEnd (closed tokens) := by
  refine Nat.lt_of_le_of_ne hi fun h => hk ?_
  obtain ⟨hlt, rfl⟩ := List.getElem?_eq_some_iff.1 ht
  subst h
  exact eq_of_beq (List.findIdx_getElem (w := hlt))

end Buffers

/-! ## Cursors and parsers -/

/-- A cursor over tokens and a parser are at the same place, which is not behind the first end of file. -/
structure Cursor.At (tokens : List Token) (c : Cursor) (s : Parser) : Prop where
  buffer : c.buffer = closed tokens
  position : c.position ≤ firstEnd (closed tokens)
  parser : s = ⟨tokens.drop c.position, (Parser.ofTokens tokens).stop, c.numbering⟩

/-- In front of tokens, before anything was read. -/
def Cursor.start (tokens : List Token) : Cursor := { buffer := closed tokens }

theorem Cursor.At.start (tokens : List Token) : (Cursor.start tokens).At tokens (.ofTokens tokens) :=
  ⟨rfl, Nat.zero_le _, rfl⟩

/-- From one cursor to another tokens of the same buffer were read, each of them once and in their order. -/
structure Cursor.Passes (c d : Cursor) : Prop where
  buffer : d.buffer = c.buffer
  position : c.position ≤ d.position
  passed : d.passed = c.passed ++ List.range' c.position (d.position - c.position)

theorem Cursor.Passes.refl (c : Cursor) : c.Passes c :=
  ⟨rfl, Nat.le_refl _, by rw [Nat.sub_self, List.range'_zero, List.append_nil]⟩

theorem Cursor.Passes.trans {c d e : Cursor} (h : c.Passes d) (h' : d.Passes e) : c.Passes e where
  buffer := h'.buffer.trans h.buffer
  position := Nat.le_trans h.position h'.position
  passed := by
    have hcd := h.position
    have hde := h'.position
    have hmid : d.position = c.position + 1 * (d.position - c.position) := by omega
    have hlen : e.position - c.position = (d.position - c.position) + (e.position - d.position) := by omega
    rw [h'.passed, h.passed, List.append_assoc, hlen, ← List.range'_append, ← hmid]

/-- Behind the token ahead. -/
def Cursor.next (c : Cursor) : Cursor := { c with position := c.position + 1, passed := c.passed ++ [c.position] }

theorem Cursor.passes_next (c : Cursor) : c.Passes c.next :=
  ⟨rfl, Nat.le_succ _, by rw [next, Nat.add_sub_cancel_left]; rfl⟩

namespace Cursor.At

variable {tokens : List Token} {c : Cursor} {s : Parser}

theorem position_le (h : c.At tokens s) : c.position ≤ tokens.length :=
  Nat.le_trans h.position (firstEnd_closed_le tokens)

theorem size_eq (h : c.At tokens s) : s.size = tokens.length - c.position := by
  rw [h.parser, size, List.length_drop]

theorem peek_eq (h : c.At tokens s) : c.buffer[c.position]? = some s.peek := by
  rw [h.buffer, getElem?_closed h.position_le, h.parser]
  cases hahead : tokens.drop c.position <;> simp [peek, peekAt, endToken]

theorem lt (h : c.At tokens s) (hk : s.peek.kind ≠ .eof) : c.position < firstEnd (closed tokens) :=
  lt_firstEnd h.position (h.buffer ▸ h.peek_eq) hk

theorem next (h : c.At tokens s) (hk : s.peek.kind ≠ .eof) : c.next.At tokens s.advance where
  buffer := h.buffer
  position := h.lt hk
  parser := by
    have hlt := Nat.lt_of_lt_of_le (h.lt hk) (firstEnd_closed_le tokens)
    have hdrop := List.drop_eq_getElem_cons hlt
    obtain rfl := h.parser
    rw [peek, peekAt, hdrop] at hk
    rw [advance, hdrop]
    exact if_neg hk

theorem fresh (h : c.At tokens s) (span : Span) :
    Cursor.At tokens { c with numbering := c.numbering.fresh.2 } (s.fresh span).2 :=
  ⟨h.buffer, h.position, by rw [h.parser]; rfl⟩

end Cursor.At

/-! ## Endings -/

namespace Attempt

variable {α β : Type} {tokens : List Token} {c d : Cursor} {s t : Parser}

/-- An attempt from `c` ends as a step of the parser does. Where it rejects a second operator, this is the token in
front of the token ahead. -/
def Ends (tokens : List Token) (x : Attempt α) (c : Cursor) (r : Except ParseError α × Parser) : Prop :=
  ∃ o d t, x c = some (o, d) ∧ r = (o, t) ∧ d.At tokens t ∧ c.Passes d ∧
    ∀ e, o = .error e → e.fault = .nonAssociative → 0 < d.position ∧ d.buffer[d.position - 1]? = some e.token

section Runs

variable {x : Attempt α} {f : α → Attempt β}

theorem bind_error {e : ParseError} (h : x c = some (.error e, d)) : (x >>= f) c = some (.error e, d) := by
  show Attempt.bind x f c = _
  rw [Attempt.bind, h]

theorem bind_ok {a : α} (h : x c = some (.ok a, d)) : (x >>= f) c = f a d := by
  show Attempt.bind x f c = _
  rw [Attempt.bind, h]

end Runs

namespace Ends

theorem pure (h : c.At tokens s) (a : α) : Ends tokens (Pure.pure a) c (.ok a, s) :=
  ⟨.ok a, c, s, rfl, rfl, h, .refl c, fun _ he => by cases he⟩

theorem fail (h : c.At tokens s) {fault : ParseFault} {token : Token} (hfault : fault ≠ .nonAssociative) :
    Ends tokens (Attempt.fail ⟨fault, token⟩ : Attempt α) c (.error ⟨fault, token⟩, s) := by
  refine ⟨.error ⟨fault, token⟩, c, s, rfl, rfl, h, .refl c, fun e he hlate => ?_⟩
  cases he
  exact absurd hlate hfault

theorem step {x : Attempt α} {f : α → Attempt β} {a : α} {r : Except ParseError β × Parser}
    (hx : x c = some (.ok a, d)) (hd : c.Passes d) (h : Ends tokens (f a) d r) : Ends tokens (x >>= f) c r := by
  obtain ⟨o, e, t, he, hr, ht, hpasses, hlate⟩ := h
  exact ⟨o, e, t, (bind_ok hx).trans he, hr, ht, hd.trans hpasses, hlate⟩

theorem bind {x : Attempt α} {g : α → Attempt β} {r : Except ParseError α × Parser}
    {r' : Except ParseError β × Parser} (h : Ends tokens x c r)
    (herror : ∀ e t, r = (.error e, t) → r' = (.error e, t))
    (hok : ∀ a d t, r = (.ok a, t) → d.At tokens t → Ends tokens (g a) d r') : Ends tokens (x >>= g) c r' := by
  obtain ⟨o, d, t, hx, hr, ht, hpasses, hlate⟩ := h
  cases o with
  | error e =>
    refine ⟨.error e, d, t, bind_error hx, herror e t hr, ht, hpasses, fun e' he' => hlate e' ?_⟩
    cases he'
    rfl
  | ok a => exact (hok a d t hr ht).step hx hpasses

theorem lt_of_ok {x : Attempt α} {a : α} {r : Progress s α} (h : c.At tokens s) (hx : Ends tokens x c r.1)
    (ha : x c = some (.ok a, d)) : c.position < d.position := by
  obtain ⟨_, _, t, hx, hr, hd, -⟩ := hx
  cases hx.symm.trans ha
  have hlt : t.size < s.size := by simpa only [hr] using r.2.2 a (by rw [hr])
  have hsize := h.size_eq
  have hsize' := hd.size_eq
  omega

theorem reading {x : Attempt α} {g : α → Attempt β} {r : Reading s α}
    {f : α → (t : Parser) → t.size ≤ s.size → Reading t β} (h : Ends tokens x c r.1)
    (hg : ∀ a d t (ht : t.size ≤ s.size), d.At tokens t → Ends tokens (g a) d (f a t ht).1) :
    Ends tokens (x >>= g) c (r.andThen f).1 := by
  obtain ⟨⟨o, t⟩, hle⟩ := r
  refine h.bind (fun e u hr => ?_) fun a d u hr hd => ?_
  · cases hr
    rfl
  · cases hr
    exact hg a d t hle hd

theorem progress {x : Attempt α} {g : α → Attempt β} {r : Progress s α}
    {f : α → (t : Parser) → t.size < s.size → Reading t β} (h : Ends tokens x c r.1)
    (hg : ∀ a d t (ht : t.size < s.size), d.At tokens t → Ends tokens (g a) d (f a t ht).1) :
    Ends tokens (x >>= g) c (r.andThen f).1 := by
  obtain ⟨⟨o, t⟩, hlt⟩ := r
  refine h.bind (fun e u hr => ?_) fun a d u hr hd => ?_
  · cases hr
    rfl
  · cases hr
    exact hg a d t (hlt.2 a rfl) hd

theorem map {x : Attempt α} {r : Progress s α} (h : Ends tokens x c r.1) (f : α → β) :
    Ends tokens (x >>= fun a => Pure.pure (f a)) c (r.map f).1 :=
  h.progress fun a _ _ _ hd => .pure hd (f a)

theorem numbering {f : Site → Attempt β} {r : Except ParseError β × Parser} (h : c.At tokens s) (span : Span)
    (hf : ∀ d, d.At tokens (s.fresh span).2 → Ends tokens (f (s.fresh span).1) d r) :
    Ends tokens (fresh span >>= f) c r := by
  have hpasses : c.Passes { c with numbering := c.numbering.fresh.2 } :=
    ⟨rfl, Nat.le_refl _, (Cursor.Passes.refl c).passed⟩
  have hx : fresh span c = some (.ok (s.fresh span).1, { c with numbering := c.numbering.fresh.2 }) := by
    rw [h.parser]
    rfl
  exact (hf _ (h.fresh span)).step hx hpasses

theorem node (h : c.At tokens s) (span : Span) (f : Site → α) :
    Ends tokens (Attempt.node span f) c (Reading.node span f : Reading s α).1 :=
  .numbering h span fun _ hd => .pure hd _

theorem making {g : Site → α} {f : α → Attempt β} {r : Except ParseError β × Parser} (h : c.At tokens s) (span : Span)
    (hf : ∀ d, d.At tokens (s.fresh span).2 → Ends tokens (f (g (s.fresh span).1)) d r) :
    Ends tokens (Attempt.node span g >>= f) c r := by
  obtain ⟨_, d, _, hx, hr, ht, hpasses, -⟩ := node h span g
  cases hr
  exact (hf d ht).step hx hpasses

end Ends

/-! ## Tokens -/

theorem tokenAt_eq {i : Nat} {a : Token} (h : c.buffer[i]? = some a) : tokenAt i c = some (.ok a, c) := by
  rw [tokenAt, h]
  rfl

theorem peek_eq (h : c.At tokens s) : peek c = some (.ok s.peek, c) := by
  have hindex : min (c.position + 0) (c.buffer.length - 1) = c.position := by
    rw [h.buffer, length_closed, Nat.add_sub_cancel]
    exact Nat.min_eq_left h.position_le
  rw [peek, peekAt, hindex, tokenAt_eq h.peek_eq]

theorem peekAt_one (hk : s.peek.kind ≠ .eof) : s.peekAt 1 = s.advance.peek := by
  have hend : s.endToken = s.advance.endToken := by rw [endToken, endToken, stop_advance]
  rw [Parser.peek, Parser.peekAt, Parser.peekAt, ahead_of_peek hk, hend]
  rfl

theorem peekAt_one_eq (h : c.At tokens s) (hk : s.peek.kind ≠ .eof) : peekAt 1 c = some (.ok (s.peekAt 1), c) := by
  have hnext := h.next hk
  have hindex : min (c.position + 1) (c.buffer.length - 1) = c.position + 1 := by
    rw [h.buffer, length_closed, Nat.add_sub_cancel]
    exact Nat.min_eq_left hnext.position_le
  have hbehind : c.buffer[c.position + 1]? = some s.advance.peek := hnext.peek_eq
  rw [peekAt, hindex, tokenAt_eq hbehind, peekAt_one hk]

theorem advance_eq (h : c.At tokens s) (hk : s.peek.kind ≠ .eof) : advance c = some (.ok s.peek, c.next) := by
  refine (bind_ok (peek_eq h)).trans ?_
  rw [if_pos hk]
  rfl

theorem check_eq_some (h : c.At tokens s) (k : TokenKind) : check k c = some (.ok (s.check k), c) :=
  bind_ok (peek_eq h)

theorem kind_of_check {k : TokenKind} (hk : k ≠ .eof) (hc : s.check k = true) : s.peek.kind ≠ .eof := by
  rwa [eq_of_beq hc]

theorem expect_eq {k : TokenKind} (h : c.At tokens s) (hc : s.check k = true) (hk : k ≠ .eof) :
    expect k c = some (.ok s.peek, c.next) := by
  refine (bind_ok (check_eq_some h k)).trans ?_
  rw [if_pos hc]
  exact advance_eq h (kind_of_check hk hc)

theorem previous_eq {i : Nat} {a : Token} (hposition : c.position = i + 1) (h : c.buffer[i]? = some a) :
    previous c = some (.ok a, c) := by
  rw [previous, hposition]
  exact tokenAt_eq h

namespace Ends

theorem peeking {f : Token → Attempt β} {r : Except ParseError β × Parser} (h : c.At tokens s)
    (hf : Ends tokens (f s.peek) c r) : Ends tokens (peek >>= f) c r :=
  hf.step (peek_eq h) (.refl c)

theorem checking {k : TokenKind} {f : Bool → Attempt β} {r : Except ParseError β × Parser} (h : c.At tokens s)
    (hf : Ends tokens (f (s.check k)) c r) : Ends tokens (check k >>= f) c r :=
  hf.step (check_eq_some h k) (.refl c)

theorem advancing {f : Token → Attempt β} {r : Except ParseError β × Parser} (h : c.At tokens s)
    (hk : s.peek.kind ≠ .eof) (hf : Ends tokens (f s.peek) c.next r) : Ends tokens (advance >>= f) c r :=
  hf.step (advance_eq h hk) c.passes_next

theorem eating {k : TokenKind} {f : Option Token → Attempt β} {r : Except ParseError β × Parser} (h : c.At tokens s)
    (hyes : s.check k = true → c.next.At tokens s.advance → Ends tokens (f (some s.peek)) c.next r)
    (hno : s.check k = false → Ends tokens (f none) c r) (hk : k ≠ .eof := by decide) :
    Ends tokens (eat k >>= f) c r := by
  cases hc : s.check k with
  | true =>
    have hread := kind_of_check hk hc
    refine (hyes hc (h.next hread)).step ((bind_ok (check_eq_some h k)).trans ?_) c.passes_next
    rw [if_pos hc]
    exact bind_ok (advance_eq h hread)
  | false =>
    refine (hno hc).step ((bind_ok (check_eq_some h k)).trans ?_) (.refl c)
    rw [if_neg (ne_true_of_eq_false hc)]
    rfl

theorem expecting {k : TokenKind} {f : Token → Attempt β} {r : Except ParseError β × Parser} (h : c.At tokens s)
    (hc : s.check k = true) (hk : k ≠ .eof) (hf : Ends tokens (f s.peek) c.next r) :
    Ends tokens (Attempt.expect k >>= f) c r :=
  hf.step (expect_eq h hc hk) c.passes_next

theorem reads {k : TokenKind} (h : c.At tokens s) (hc : s.check k = true) (hk : k ≠ .eof := by decide) :
    Ends tokens Attempt.advance c (s.expect k) := by
  have hread := kind_of_check hk hc
  refine ⟨_, c.next, _, advance_eq h hread, ?_, h.next hread, c.passes_next, fun _ he => by cases he⟩
  rw [Parser.expect, if_pos hc]

theorem expect (h : c.At tokens s) (k : TokenKind) (hk : k ≠ .eof := by decide) :
    Ends tokens (Attempt.expect k) c (s.expect k) := by
  refine .checking h ?_
  cases hc : s.check k with
  | true => exact .reads h hc hk
  | false =>
    rw [Parser.expect, if_neg (ne_true_of_eq_false hc)]
    exact .peeking h (.fail h fun hfault => by cases hfault)

theorem unlessAhead (h : c.At tokens s) {k : TokenKind} (a : α) {x : Attempt α} {r : Progress s α}
    (hx : Ends tokens x c r.1) :
    Ends tokens (Attempt.unlessAhead k a x) c (if s.check k then Reading.pure a else r.reading).1 := by
  refine .checking h ?_
  cases s.check k with
  | true => exact .pure h a
  | false => exact hx

theorem ident (h : c.At tokens s) : Ends tokens Attempt.ident c (Progress.ident s).1 :=
  .map (r := Progress.expect s .identifier) (.expect h .identifier) fun t => (⟨t.lexeme, t.span⟩ : Ident)

end Ends

end Attempt

end MicroC
