import MicroC.Parser.Program

/-!
# Outcomes that are values

When a step of a parser succeeds, part by part: `andThen` succeeds when both parts do, `expect` when the
token ahead has the kind.
-/

namespace MicroC

namespace Reading

variable {s t : Parser} {α β : Type}

theorem andThen_eq_ok {r : Reading s α} {f : α → (t : Parser) → t.size ≤ s.size → Reading t β}
    {b : β} {u : Parser} :
    (r.andThen f).1 = (.ok b, u) ↔
      ∃ a t, ∃ h : t.size ≤ s.size, r.1 = (.ok a, t) ∧ (f a t h).1 = (.ok b, u) := by
  obtain ⟨⟨o, t⟩, ht⟩ := r
  cases o with
  | error e => simp [andThen]
  | ok a =>
    constructor
    · intro h
      exact ⟨a, t, ht, rfl, h⟩
    · rintro ⟨a', t', h', heq, hf⟩
      cases heq
      exact hf

theorem expect_eq_ok {k : TokenKind} {a : Token} {u : Parser} :
    (expect s k).1 = (.ok a, u) ↔ s.check k = true ∧ a = s.peek ∧ u = s.advance := by
  simp only [expect, Parser.expect]
  split
  · next h => simp [h, eq_comm]
  · next h => simp [h]

theorem size_le_of_ok {r : Reading s α} {a : α} {u : Parser} (h : r.1 = (.ok a, u)) :
    u.size ≤ s.size := by
  have := r.2
  rwa [h] at this

@[simp] theorem node_val (span : Span) (f : Site → α) :
    (node span f : Reading s α).1 = (.ok (f (s.fresh span).1), (s.fresh span).2) := rfl

@[simp] theorem pure_val (a : α) : (pure a : Reading s α).1 = (.ok a, s) := rfl

@[simp] theorem stop_val (e : ParseError) : (stop e : Reading s α).1 = (.error e, s) := rfl

@[simp] theorem ok_val (a : α) (h : t.size ≤ s.size) :
    (ok a t h : Reading s α).1 = (.ok a, t) := rfl

@[simp] theorem fail_val (e : ParseError) (h : t.size ≤ s.size) :
    (fail e t h : Reading s α).1 = (.error e, t) := rfl

@[simp] theorem since_val (r : Reading t α) (h : t.size ≤ s.size) : (r.since h).1 = r.1 := rfl

end Reading

namespace Progress

variable {s t : Parser} {α β : Type}

theorem andThen_eq_ok {p : Progress s α} {f : α → (t : Parser) → t.size < s.size → Reading t β}
    {b : β} {u : Parser} :
    (p.andThen f).1 = (.ok b, u) ↔
      ∃ a t, ∃ h : t.size < s.size, p.1 = (.ok a, t) ∧ (f a t h).1 = (.ok b, u) := by
  obtain ⟨⟨o, t⟩, ht⟩ := p
  cases o with
  | error e => simp [andThen]
  | ok a =>
    constructor
    · intro h
      exact ⟨a, t, ht.2 a rfl, rfl, h⟩
    · rintro ⟨a', t', h', heq, hf⟩
      cases heq
      exact hf

@[simp] theorem reading_val (p : Progress s α) : p.reading.1 = p.1 := rfl

@[simp] theorem since_val (r : Reading t α) (h : t.size < s.size) : (since r h).1 = r.1 := rfl

@[simp] theorem stop_val (e : ParseError) : (stop e : Progress s α).1 = (.error e, s) := rfl

@[simp] theorem fail_val (e : ParseError) (h : t.size ≤ s.size) :
    (fail e t h : Progress s α).1 = (.error e, t) := rfl

theorem map_eq_ok {p : Progress s α} {f : α → β} {b : β} {u : Parser} :
    (p.map f).1 = (.ok b, u) ↔ ∃ a, p.1 = (.ok a, u) ∧ f a = b := by
  rw [map, andThen_eq_ok]
  constructor
  · rintro ⟨a, t, h, hp, hf⟩
    cases hf
    exact ⟨a, hp, rfl⟩
  · rintro ⟨a, hp, rfl⟩
    exact ⟨a, u, by have := p.2.2 a (by rw [hp]); rwa [hp] at this, hp, rfl⟩

theorem expect_eq_ok {k : TokenKind} {hk : k ≠ .eof} {a : Token} {u : Parser} :
    (expect s k hk).1 = (.ok a, u) ↔ s.check k = true ∧ a = s.peek ∧ u = s.advance :=
  Reading.expect_eq_ok

theorem ident_eq_ok {n : Ident} {u : Parser} :
    (ident s).1 = (.ok n, u) ↔
      s.check .identifier = true ∧ n = ⟨s.peek.lexeme, s.peek.span⟩ ∧ u = s.advance := by
  rw [ident, map_eq_ok]
  simp only [expect_eq_ok]
  constructor
  · rintro ⟨a, ⟨hc, rfl, rfl⟩, rfl⟩
    exact ⟨hc, rfl, rfl⟩
  · rintro ⟨hc, rfl, rfl⟩
    exact ⟨s.peek, ⟨hc, rfl, rfl⟩, rfl⟩

theorem size_lt_of_ok {p : Progress s α} {a : α} {u : Parser} (h : p.1 = (.ok a, u)) :
    u.size < s.size := by
  have := p.2.2 a (by rw [h])
  rwa [h] at this

end Progress

end MicroC
