import MicroC.Decimal.Binary64
import MicroC.Decimal.Integer
import MicroC.Proofs.Token.Tiling

/-!
# Texts of tokens

What a scan reports is a token whose text fits its kind: integers are digits, numbers with a point are
numerals, strings have their quotes and names start with a letter.

* `Token.Regular`: the text of a token fits its kind.
* `SameText`: tokens that differ at most in their places.
* **`regular_of_mem_tokens`**: every token of a scan is regular.
-/

namespace MicroC

/-- A token whose text fits its kind. -/
structure Token.Regular (t : Token) : Prop where
  ne_eof : t.kind ≠ .eof
  int : t.kind = .intLiteral → t.lexeme.toList ≠ [] ∧ t.lexeme.toList.all Char.isDigit = true
  float : t.kind = .floatLiteral → (Binary64.ofDecimal? t.lexeme).isSome = true
  string : t.kind = .stringLiteral → ∃ cs, t.lexeme.toList = '"' :: cs ++ ['"']
  name : t.kind = .identifier → ∃ c cs, t.lexeme.toList = c :: cs ∧ c.isAlpha = true ∧
    ∀ d ∈ c :: cs, Piece.continuesName d = true

/-- A numeral with a point and at least one digit denotes a number. -/
theorem ofDecimal?_point {as bs : List Char} (ha : ∀ c ∈ as, c.isDigit = true)
    (hb : ∀ c ∈ bs, c.isDigit = true) (hne : as ≠ [] ∨ bs ≠ []) :
    (Binary64.ofDecimal? (String.ofList (as ++ '.' :: bs))).isSome = true := by
  have hdot : Char.isDigit '.' = false := by decide
  have htake : (as ++ '.' :: bs).takeWhile Char.isDigit = as := by
    rw [List.takeWhile_append_of_pos ha, List.takeWhile_cons_of_neg (by simp [hdot]), List.append_nil]
  have hdrop : (as ++ '.' :: bs).dropWhile Char.isDigit = '.' :: bs := by
    rw [List.dropWhile_append_of_pos ha, List.dropWhile_cons_of_neg (by simp [hdot])]
  have hunsigned : (Binary64.unsigned? false (as ++ '.' :: bs)).isSome = true := by
    have htake' : bs.takeWhile Char.isDigit = bs := by
      rw [← List.append_nil bs, List.takeWhile_append_of_pos hb]
      rfl
    have hdrop' : bs.dropWhile Char.isDigit = [] := by
      rw [← List.append_nil bs, List.dropWhile_append_of_pos hb]
      rfl
    have hempty : ¬ (as = [] ∧ bs = []) := fun h => hne.elim (· h.1) (· h.2)
    simp [Binary64.unsigned?, htake, hdrop, htake', hdrop', hempty, Binary64.exponent?]
  have hmag : (Binary64.magnitude? false (as ++ '.' :: bs)).isSome = true := by
    simp only [Binary64.magnitude?]
    split
    · rfl
    split
    · rfl
    · exact hunsigned
  rw [Binary64.ofDecimal?, String.toList_ofList]
  cases as with
  | nil => exact hmag
  | cons c cs =>
    have hc := ha c List.mem_cons_self
    split
    · next heq => exact absurd hc (by rw [(List.cons.inj heq).1]; decide)
    · next heq => exact absurd hc (by rw [(List.cons.inj heq).1]; decide)
    · exact hmag

open Piece

/-- A text that spells a token fits its kind. -/
theorem Spells.regular {k : TokenKind} {cs : List Char} (h : Spells k cs) (span : Span) :
    Token.Regular ⟨k, String.ofList cs, span⟩ := by
  cases h with
  | @word c cs hc hcs =>
    have hname : continuesName c = true := by simp [continuesName, Char.isAlphanum, hc]
    have hkind : ∀ k, wordKind (c :: cs) = k → k.isLiteral = false ∧ k ≠ .eof := by
      rintro k rfl
      unfold wordKind TokenKind.keyword?
      split <;> exact ⟨rfl, by decide⟩
    refine ⟨(hkind _ rfl).2, fun h => ?_, fun h => ?_, fun h => ?_, fun _ => ?_⟩
    · exact absurd (hkind _ h).1 (by decide)
    · exact absurd (hkind _ h).1 (by decide)
    · exact absurd (hkind _ h).1 (by decide)
    · exact ⟨c, cs, String.toList_ofList, hc, List.forall_mem_cons.2 ⟨hname, hcs⟩⟩
  | int hds =>
    refine ⟨by rintro ⟨⟩, fun _ => ?_, by rintro ⟨⟩, by rintro ⟨⟩, by rintro ⟨⟩⟩
    rw [String.toList_ofList]
    exact ⟨List.cons_ne_nil _ _, List.all_eq_true.2 hds⟩
  | float hds hes hne => refine ⟨?_, ?_, fun _ => ofDecimal?_point hds hes hne, ?_, ?_⟩ <;> rintro ⟨⟩
  | @string cs _ => refine ⟨?_, ?_, ?_, fun _ => ⟨cs, String.toList_ofList⟩, ?_⟩ <;> rintro ⟨⟩
  | mark hmark =>
    have hplain : k ≠ .eof ∧ k.isLiteral = false ∧ k ≠ .identifier := by cases k <;> cases hmark <;> decide
    obtain ⟨heof, hliteral, hname⟩ := hplain
    refine ⟨heof, ?_, ?_, ?_, fun h => absurd h hname⟩ <;>
    · intro h
      rw [show k = _ from h] at hliteral
      cases hliteral

/-- **Every token of a scan has a text that fits its kind.** -/
theorem regular_of_mem_tokens {source : String} {t : Token} (h : t ∈ (scan source).tokens) :
    t.Regular := by
  obtain ⟨-, -, -, -, -, hspells, -⟩ := (tiled_scan source).token_at h
  have hregular := hspells.regular t.span
  rwa [String.ofList_toList] at hregular

/-! ## Tokens up to their places -/

namespace Grammar

/-- The kind and the lexeme of a token. -/
def text (t : Token) : TokenKind × String := (t.kind, t.lexeme)

/-- Tokens that differ at most in their places. -/
def SameText (ts us : List Token) : Prop := us.map text = ts.map text

instance (ts us : List Token) : Decidable (SameText ts us) := inferInstanceAs (Decidable (us.map text = ts.map text))

namespace SameText

variable {t : Token} {ts us vs : List Token}

theorem refl (ts : List Token) : SameText ts ts := rfl

theorem nil (h : SameText [] us) : us = [] := List.map_eq_nil_iff.1 h

theorem cons (h : SameText (t :: ts) us) :
    ∃ t' us', us = t' :: us' ∧ t'.kind = t.kind ∧ t'.lexeme = t.lexeme ∧ SameText ts us' := by
  obtain ⟨t', us', rfl, ht, hts⟩ := List.map_eq_cons_iff.1 h
  exact ⟨t', us', rfl, congrArg Prod.fst ht, congrArg Prod.snd ht, hts⟩

theorem append (h : SameText (ts ++ vs) us) : ∃ us₁ us₂, us = us₁ ++ us₂ ∧ SameText ts us₁ ∧ SameText vs us₂ := by
  rw [SameText, List.map_append] at h
  exact List.map_eq_append_iff.1 h

theorem mid (h : SameText (ts ++ t :: vs) us) : ∃ us₁ t' us₂, us = us₁ ++ t' :: us₂ ∧ SameText ts us₁ ∧
    t'.kind = t.kind ∧ t'.lexeme = t.lexeme ∧ SameText vs us₂ := by
  obtain ⟨us₁, ws, rfl, h₁, hws⟩ := h.append
  obtain ⟨t', us₂, rfl, hk, hl, h₂⟩ := hws.cons
  exact ⟨us₁, t', us₂, rfl, h₁, hk, hl, h₂⟩

theorem last (h : SameText (ts ++ [t]) us) :
    ∃ us₁ t', us = us₁ ++ [t'] ∧ SameText ts us₁ ∧ t'.kind = t.kind ∧ t'.lexeme = t.lexeme := by
  obtain ⟨us₁, t', us₂, rfl, h₁, hk, hl, h₂⟩ := h.mid
  obtain rfl := h₂.nil
  exact ⟨us₁, t', rfl, h₁, hk, hl⟩

theorem single (h : SameText [t] us) : ∃ t', us = [t'] ∧ t'.kind = t.kind ∧ t'.lexeme = t.lexeme := by
  obtain ⟨t', us', rfl, hk, hl, h⟩ := h.cons
  obtain rfl := h.nil
  exact ⟨t', rfl, hk, hl⟩

end SameText

end Grammar

end MicroC
