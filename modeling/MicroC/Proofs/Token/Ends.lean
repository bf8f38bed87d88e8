import MicroC.Proofs.Token.Recovery

/-!
# Where tokens end

Columns count characters, and the length of a span counts bytes. Adding the one to the other gives the place behind a
token as long as every character of it is one byte long. Only the text of a string may have longer characters, and
its end is then reported too far to the right, by exactly the bytes that it has over its characters.

* `Token.surplus`: the bytes of a token over its characters.
* `Span.Covers.stop`: the end of a span, told from the place behind its text.
* `Spells.surplus_eq_zero`: tokens other than strings have no surplus.
* `Tiled.inOrder`: tokens stand one behind the other.
* **`token_ends`**: where the tokens of a source end.
* `token_ends_wrong`: two tokens on one line, the first of which is said to end behind the start of the second.
-/

namespace MicroC

open Piece

/-! ## Bytes and characters -/

/-- How many bytes the text of a token has over its characters. -/
def Token.surplus (t : Token) : Nat := Placed.byteLength t.lexeme.toList - t.lexeme.toList.length

namespace Placed

theorem byteLength_eq_length {cs : List Char} : byteLength cs = cs.length ↔ ∀ c ∈ cs, c.utf8Size = 1 := by
  induction cs with
  | nil => simp [byteLength]
  | cons c cs ih =>
    have := c.utf8Size_pos
    have := length_le_byteLength cs
    rw [List.forall_mem_cons, ← ih, List.length_cons, byteLength]
    omega

end Placed

theorem Token.surplus_eq_zero {t : Token} : t.surplus = 0 ↔ ∀ c ∈ t.lexeme.toList, c.utf8Size = 1 := by
  have := Placed.length_le_byteLength t.lexeme.toList
  rw [← Placed.byteLength_eq_length, surplus]
  omega

theorem utf8Size_of_continuesName {c : Char} (h : continuesName c = true) : c.utf8Size = 1 := by
  rw [Char.utf8Size_eq_one_iff]
  rw [continuesName, Bool.or_eq_true, beq_iff_eq] at h
  obtain h | rfl := h
  · delta Char.isAlphanum Char.isAlpha Char.isUpper Char.isLower Char.isDigit at h
    grind
  · decide

/-- The characters of a token that is no string are one byte long. -/
theorem Spells.surplus_eq_zero {k : TokenKind} {cs : List Char} (h : Spells k cs) (hk : k ≠ .stringLiteral) :
    ∀ c ∈ cs, c.utf8Size = 1 := by
  have hdigit : ∀ c : Char, c.isDigit = true → c.utf8Size = 1 := fun c hc =>
    utf8Size_of_continuesName (by rw [continuesName, Char.isAlphanum, hc, Bool.or_true, Bool.true_or])
  cases h with
  | word hc hcs =>
    have hname := utf8Size_of_continuesName (by rw [continuesName, Char.isAlphanum, hc, Bool.true_or, Bool.true_or])
    exact List.forall_mem_cons.2 ⟨hname, fun d hd => utf8Size_of_continuesName (hcs d hd)⟩
  | int hds => exact fun d hd => hdigit d (hds d hd)
  | float hds hes =>
    intro c hc
    rcases List.mem_append.1 hc with hc | hc
    · exact hdigit c (hds c hc)
    · rcases List.mem_cons.1 hc with rfl | hc
      · decide
      · exact hdigit c (hes c hc)
  | string => exact absurd rfl hk
  | mark hmark =>
    have hall : cs.all (·.utf8Size == 1) = true := by cases k <;> cases hmark <;> decide
    exact fun c hc => eq_of_beq (List.all_eq_true.1 hall c hc)

/-! ## The place behind a text -/

namespace Position

theorem after_line (p : Position) {text : List Char} (h : '\n' ∉ text) :
    p.after text = ⟨p.line, p.col + text.length⟩ := by
  induction text generalizing p with
  | nil => rfl
  | cons c text ih =>
    obtain ⟨hc, htext⟩ := not_or.1 (mt List.mem_cons.2 h)
    rw [after_cons, ih _ htext, advance, if_neg (Ne.symm hc), List.length_cons, Nat.add_right_comm, Nat.add_assoc]

theorem after_later (p : Position) (text : List Char) :
    p.line < (p.after text).line ∨ p.line = (p.after text).line ∧ p.col ≤ (p.after text).col := by
  induction text generalizing p with
  | nil => exact .inr ⟨rfl, Nat.le_refl _⟩
  | cons c text ih =>
    have hrest := ih (p.advance c)
    rw [after_cons]
    unfold advance at hrest ⊢
    split <;> grind

end Position

/-- **The end of a span**: the place behind its text, moved by the bytes that the text has over its characters. -/
theorem Span.Covers.stop {s : Span} {before text : List Char} (h : s.Covers before text) (hline : '\n' ∉ text) :
    s.stop = ⟨(Position.start.after (before ++ text)).line,
      (Position.start.after (before ++ text)).col + (Placed.byteLength text - text.length)⟩ := by
  have hlength : s.len = text.length + (Placed.byteLength text - text.length) := by
    rw [h.len, ← Placed.byteLength_eq, Nat.add_sub_cancel' (Placed.length_le_byteLength text)]
  rw [Position.after_append, ← h.start, Position.after_line _ hline, Span.stop, hlength, ← Nat.add_assoc]
  rfl

/-! ## Tokens in their order -/

/-- Of two tokens the second stands behind the text of the first. -/
def Behind (t u : Token) : Prop :=
  ∃ before between, t.span.Covers before t.lexeme.toList ∧
    u.span.Covers (before ++ t.lexeme.toList ++ between) u.lexeme.toList ∧ '\n' ∉ t.lexeme.toList

theorem Tiled.inOrder {before cs : List Char} {ts : List Token} {es : List LexError} (h : Tiled before cs ts es) :
    ts.Pairwise Behind := by
  induction h with
  | done => exact .nil
  | blank _ _ ih | comment _ _ _ ih | fault _ _ _ _ ih => exact ih
  | token hspan hline _ _ h ih =>
    refine .cons (fun u hu => ?_) ih
    obtain ⟨skipped, rest, -, hcovers, -⟩ := h.token_at hu
    exact ⟨_, skipped, hspan, hcovers, hline⟩

/-- On one line a token ends in front of those that follow, apart from its surplus. -/
theorem Behind.stop_le {t u : Token} (h : Behind t u) (hline : t.span.line = u.span.line) :
    t.span.stop.col ≤ u.span.col + t.surplus := by
  obtain ⟨before, between, ht, hu, hlexeme⟩ := h
  have hstop := ht.stop hlexeme
  have hstart := hu.start
  rw [Position.after_append] at hstart
  have hlater := (Position.start.after (before ++ t.lexeme.toList)).after_later between
  rw [← hstart] at hlater
  have hsame : (Position.start.after (before ++ t.lexeme.toList)).line = u.span.line :=
    (congrArg Position.line hstop).symm.trans hline
  have hcol : (Position.start.after (before ++ t.lexeme.toList)).col ≤ u.span.col := by
    rcases hlater with hlater | ⟨-, hcol⟩
    · exact absurd hlater (Nat.not_lt.2 (Nat.le_of_eq hsame.symm))
    · exact hcol
  rw [hstop]
  exact Nat.add_le_add_right hcol _

/-! ## The ends of the tokens of a source -/

/-- **Where tokens end.** Every token of a source is a part of it and starts where that part does. Its end is on the
line and in the column behind its last character, moved to the right by the bytes that its text has over its
characters. So the end is right exactly for the tokens all of whose characters are one byte long, which all but strings
are. Of two tokens on one line the first ends in front of the second, if it has no such surplus, and else it is said to
reach over the start of the second by the surplus at most. Ends fit in 32 bits for sources of fewer than `2 ^ 32 - 1`
bytes. -/
theorem token_ends (source : String) :
    (∀ t ∈ (scan source).tokens, ∃ before after, source.toList = before ++ t.lexeme.toList ++ after ∧
      t.span.start = Position.start.after before ∧
      t.span.stop = ⟨(Position.start.after (before ++ t.lexeme.toList)).line,
        (Position.start.after (before ++ t.lexeme.toList)).col + t.surplus⟩ ∧
      (t.span.stop = Position.start.after (before ++ t.lexeme.toList) ↔ ∀ c ∈ t.lexeme.toList, c.utf8Size = 1) ∧
      (t.kind ≠ .stringLiteral → ∀ c ∈ t.lexeme.toList, c.utf8Size = 1)) ∧
    (scan source).tokens.Pairwise fun t u => t.span.line = u.span.line →
      t.span.stop.col ≤ u.span.col + t.surplus ∧
      ((∀ c ∈ t.lexeme.toList, c.utf8Size = 1) → t.span.stop.col ≤ u.span.col) := by
  refine ⟨fun t ht => ?_, (tiled_scan source).inOrder.imp fun hbehind hline => ?_⟩
  · obtain ⟨before, after, heq, hcovers, hline, hspells, -⟩ := (tiled_scan source).token_at ht
    rw [List.nil_append] at hcovers
    have hstop : t.span.stop = ⟨_, _ + t.surplus⟩ := hcovers.stop hline
    have hright : t.span.stop = Position.start.after (before ++ t.lexeme.toList) ↔ t.surplus = 0 := by
      rw [hstop]
      refine ⟨fun h => Nat.add_eq_left.1 (congrArg Position.col h), fun h => ?_⟩
      rw [h, Nat.add_zero]
    exact ⟨before, after, heq, hcovers.start, hstop, hright.trans Token.surplus_eq_zero, hspells.surplus_eq_zero⟩
  · have hle := hbehind.stop_le hline
    refine ⟨hle, fun hbytes => ?_⟩
    rwa [Token.surplus_eq_zero.2 hbytes, Nat.add_zero] at hle

/-- A string of one character that takes two bytes, and a name right behind it. -/
theorem scan_accent : scan "\"é\"x" = ⟨[⟨.stringLiteral, "\"é\"", ⟨1, 1, 4⟩⟩, ⟨.identifier, "x", ⟨1, 4, 1⟩⟩], []⟩ := by
  decide +kernel

/-- The string ends where the name starts, in column four, and is said to end in column five. -/
theorem token_ends_wrong : ∃ source, ∃ t ∈ (scan source).tokens, ∃ u ∈ (scan source).tokens,
    source.toList = t.lexeme.toList ++ u.lexeme.toList ∧ t.span.line = u.span.line ∧
      t.span.stop ≠ Position.start.after t.lexeme.toList ∧ ¬ t.span.stop.col ≤ u.span.col := by
  refine ⟨"\"é\"x", ⟨.stringLiteral, "\"é\"", ⟨1, 1, 4⟩⟩, ?_, ⟨.identifier, "x", ⟨1, 4, 1⟩⟩, ?_, ?_, rfl, ?_, ?_⟩
  · rw [scan_accent]
    exact List.mem_cons_self
  · rw [scan_accent]
    exact List.mem_cons_of_mem _ List.mem_cons_self
  all_goals decide +kernel

/-- The name is placed right on both sides. -/
theorem token_ends_accent : (⟨.identifier, "x", ⟨1, 4, 1⟩⟩ : Token) ∈ (scan "\"é\"x").tokens ∧
    ∃ before after, "\"é\"x".toList = before ++ ['x'] ++ after ∧ (⟨1, 4⟩ : Position) = Position.start.after before ∧
      (⟨1, 5⟩ : Position) = Position.start.after (before ++ ['x']) := by
  have hmem : (⟨.identifier, "x", ⟨1, 4, 1⟩⟩ : Token) ∈ (scan "\"é\"x").tokens := by
    rw [scan_accent]
    exact List.mem_cons_of_mem _ List.mem_cons_self
  obtain ⟨before, after, heq, hstart, -, hright, hbytes⟩ := (token_ends "\"é\"x").1 _ hmem
  exact ⟨hmem, before, after, heq, hstart, hright.2 (hbytes (by decide))⟩

end MicroC
