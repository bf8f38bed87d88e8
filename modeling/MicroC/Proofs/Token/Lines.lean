import MicroC.Proofs.Token.Tiling

/-!
# Positions and the lines of a source

A scan counts newlines and the characters since the last of them. A user is shown a line that was cut out of the
source, without the newline or the carriage return and newline at its end. For a character that ends no line the two
agree: it stands in the line and in the column that the scan counted.

* `cutLines_at`: the line in which a text ends.
* `dropLineEnd_append`: what is dropped from a line is its end.
* `placed_at`: where a piece of a text stands.
* `Placed.Points`: the line and the column of a piece lead to its first character.
* **`points_of_mem_placed`**: they do for every token and every fault of a source.
-/

namespace MicroC

open Piece

/-! ## Lines -/

theorem takeWhile_append_newline (cs : List Char) :
    (cs ++ ['\n']).takeWhile (· != '\n') = cs.takeWhile (· != '\n') := by
  induction cs with
  | nil => rfl
  | cons c cs ih => rw [List.cons_append, List.takeWhile_cons, List.takeWhile_cons, ih]

/-- In front of a character that is no newline a line goes on. -/
theorem takeWhile_append_inside {b : Char} {cs : List Char} (hb : b ≠ '\n') :
    (cs ++ [b]).takeWhile (· != '\n') =
      cs.takeWhile (· != '\n') ++ if cs.count '\n' = 0 then [b] else [] := by
  induction cs with
  | nil => simp [hb]
  | cons c cs ih =>
    by_cases hc : c = '\n'
    · subst hc
      simp
    · simp [hc, ih, List.count_cons_of_ne hc]

/-- **The line in which a text ends**: its number is the number of newlines, and it starts behind the last of them. -/
theorem cutLines_at (before after : List Char) {c : Char} (hc : c ≠ '\n') : ∃ tail,
    (cutLines (before ++ c :: after))[before.count '\n']? =
      some ((before.reverse.takeWhile (· != '\n')).reverse ++ c :: tail) := by
  induction before with
  | nil =>
    rw [List.nil_append, cutLines, if_neg hc]
    split <;> exact ⟨_, rfl⟩
  | cons b before ih =>
    obtain ⟨tail, ih⟩ := ih
    refine ⟨tail, ?_⟩
    rw [List.cons_append, cutLines, List.reverse_cons]
    by_cases hb : b = '\n'
    · subst hb
      rw [if_pos rfl, List.count_cons_self, List.getElem?_cons_succ, takeWhile_append_newline, ih]
    · rw [if_neg hb, List.count_cons_of_ne hb, takeWhile_append_inside hb, List.count_reverse]
      cases hlines : cutLines (before ++ c :: after) with
      | nil => rw [hlines] at ih; cases ih
      | cons l ls =>
        rw [hlines] at ih
        -- Only the first line grows at its front.
        cases hcount : before.count '\n' with
        | zero =>
          rw [hcount] at ih
          cases ih
          simp
        | succ n =>
          rw [hcount] at ih
          simpa using ih

theorem dropLineEnd_append (l : List Char) :
    ∃ ending, l = dropLineEnd l ++ ending ∧ ∀ c ∈ ending, c = '\n' ∨ c = '\r' := by
  unfold dropLineEnd
  split
  · next r h => exact ⟨['\r', '\n'], by rw [← List.reverse_reverse l, h]; simp, by simp⟩
  · next r _ h => exact ⟨['\n'], by rw [← List.reverse_reverse l, h]; simp, by simp⟩
  · exact ⟨[], (List.append_nil l).symm, nofun⟩

/-- A character that is in no line end stays where it is. -/
theorem dropLineEnd_at (front tail : List Char) {c : Char} (hn : c ≠ '\n') (hr : c ≠ '\r') :
    ∃ tail', dropLineEnd (front ++ c :: tail) = front ++ c :: tail' := by
  obtain ⟨ending, heq, hending⟩ := dropLineEnd_append (front ++ c :: tail)
  have hc : c ∉ ending := fun h => (hending c h).elim hn hr
  obtain ⟨as, hfront, has⟩ | ⟨bs, -, hbs⟩ := List.append_eq_append_iff.1 heq
  · cases as with
    | nil => exact absurd (by rw [← List.nil_append ending, ← has]; exact List.mem_cons_self) hc
    | cons d as =>
      obtain ⟨rfl, -⟩ := List.cons.inj (has.trans List.cons_append)
      exact ⟨as, hfront⟩
  · exact absurd (by rw [hbs]; exact List.mem_append_right _ List.mem_cons_self) hc

/-- **A character that ends no line stands in the line and in the column of its position.** -/
theorem sourceLine?_at {source : String} {before after : List Char} {c : Char}
    (h : source.toList = before ++ c :: after) (hn : c ≠ '\n') (hr : c ≠ '\r') :
    ∃ line, sourceLine? source (Position.start.after before).line = some line ∧
      0 < (Position.start.after before).col ∧ (Position.start.after before).col ≤ line.length ∧
      line.toList[(Position.start.after before).col - 1]? = some c := by
  obtain ⟨tail, hcut⟩ := cutLines_at before after hn
  obtain ⟨tail', hdrop⟩ := dropLineEnd_at (before.reverse.takeWhile (· != '\n')).reverse tail hn hr
  have hline : sourceLine? source (1 + before.count '\n') =
      some (String.ofList ((before.reverse.takeWhile (· != '\n')).reverse ++ c :: tail')) := by
    rw [sourceLine?, if_neg (by omega), sourceLines, h, List.getElem?_map, Nat.add_sub_cancel_left, hcut,
      Option.map_some, hdrop]
  rw [Position.after_start]
  refine ⟨_, hline, Nat.lt_add_right _ Nat.one_pos, ?_, ?_⟩
  · rw [← String.length_toList, String.toList_ofList, List.length_append, List.length_reverse, List.length_cons]
    dsimp only
    omega
  · rw [String.toList_ofList, Nat.add_sub_cancel_left, ← List.length_reverse,
      List.getElem?_append_right (Nat.le_refl _), Nat.sub_self]
    rfl

/-! ## Pieces in their places -/

theorem placed_at {before cs : List Char} {x : Placed} (h : x ∈ place (Position.start.after before) (pieces cs)) :
    ∃ skipped rest c ds, cs = skipped ++ x.piece.text ++ rest ∧ x.position = Position.start.after (before ++ skipped) ∧
      x.piece = (cut c ds).1 := by
  fun_induction pieces cs generalizing before with
  | case1 => cases h
  | case2 c cs ih =>
    rw [place] at h
    rcases List.mem_cons.1 h with rfl | h
    · exact ⟨[], _, c, cs, (cut_append c cs).symm, by rw [List.append_nil], rfl⟩
    · rw [← Position.after_append] at h
      obtain ⟨skipped, rest, d, ds, heq, hposition, hpiece⟩ := ih h
      refine ⟨(cut c cs).1.text ++ skipped, rest, d, ds, ?_, by rw [hposition, List.append_assoc], hpiece⟩
      rw [← cut_append c cs, List.append_assoc, List.append_assoc, ← List.append_assoc skipped, ← heq]

namespace Placed

/-- A token or a fault. -/
def IsLexeme (x : Placed) : Prop := x.token?.isSome = true ∨ x.error?.isSome = true

/-- The line and the column of a piece lead to its first character: the source has that line, and the line has that
character in that column. -/
def Points (source : String) (x : Placed) : Prop :=
  ∃ line, sourceLine? source x.position.line = some line ∧ 0 < x.position.col ∧ x.position.col ≤ line.length ∧
    line.toList[x.position.col - 1]? = x.piece.text.head?

/-- A token or a fault starts with a character that is no blank. -/
theorem IsLexeme.head {x : Placed} (h : x.IsLexeme) {c : Char} {cs : List Char} (hx : x.piece = (cut c cs).1) :
    ∃ ds, x.piece.text = c :: ds ∧ isBlank c = false := by
  have happend := cut_append c cs
  obtain ⟨d, ds, hds⟩ := List.exists_cons_of_ne_nil (cut_text_ne_nil c cs)
  rw [hds] at happend
  obtain ⟨rfl, -⟩ := List.cons.inj (List.cons_append.symm.trans happend)
  refine ⟨ds, by rw [hx, hds], Bool.eq_false_iff.2 fun hblank => ?_⟩
  rw [cut_blank hblank] at hx
  unfold IsLexeme token? error? at h
  rw [hx] at h
  rcases h with h | h <;> cases h

end Placed

/-- **The places of tokens and faults lead to their first characters.** -/
theorem points_of_mem_placed {source : String} {x : Placed} (hx : x ∈ placed source) (h : x.IsLexeme) :
    x.Points source := by
  obtain ⟨before, rest, c, cs, heq, hposition, hpiece⟩ := @placed_at [] source.toList x hx
  obtain ⟨ds, htext, hblank⟩ := h.head hpiece
  have hn : c ≠ '\n' := by rintro rfl; cases hblank
  have hr : c ≠ '\r' := by rintro rfl; cases hblank
  rw [htext, List.append_assoc] at heq
  obtain ⟨line, hline⟩ := sourceLine?_at heq hn hr
  refine ⟨line, ?_⟩
  rwa [hposition, List.nil_append, htext]

/-! ## Tokens and faults of a scan -/

theorem placed_of_mem_tokens {source : String} {t : Token} (h : t ∈ (scan source).tokens) :
    ∃ x ∈ placed source, x.token? = some t ∧ x.position = t.span.start := by
  obtain ⟨x, hx, ht⟩ := List.mem_filterMap.1 h
  refine ⟨x, hx, ht, ?_⟩
  unfold Placed.token? at ht
  split at ht
  · cases ht
    rfl
  · cases ht

theorem placed_of_mem_errors {source : String} {e : LexError} (h : e ∈ (scan source).errors) :
    ∃ x ∈ placed source, x.error? = some e ∧ x.position = e.span.start := by
  obtain ⟨x, hx, he⟩ := List.mem_filterMap.1 h
  refine ⟨x, hx, he, ?_⟩
  unfold Placed.error? at he
  split at he
  · cases he
    rfl
  · cases he

end MicroC
