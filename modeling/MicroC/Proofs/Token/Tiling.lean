import MicroC.Proofs.Token.Scanning
import MicroC.Proofs.Token.Spelling

/-!
# What a scan makes of a source

Blanks, comments, tokens and faulty lexemes cover a source from its first character to its last, one behind the
other. Where a token or a fault stands can be read off the text in front of it.

* `Span.Covers`: a span says where a text stands and how long it is.
* `Tiled`: tokens and faults cover a text, with blanks and comments between them.
* `tiled_scan`: what a scan finds covers the source.
* **`scan_covers_source`**: the tokens and the faults of a scan, in their places.
* `TextLexer.standing_le`, `Span.Covers.le`: how large the counters become.
-/

namespace MicroC

open Piece

/-! ## Places -/

/-- A span of a text that stands behind another: the line ends in front of it, the characters since the last of
them, and its bytes. -/
structure Span.Covers (s : Span) (before text : List Char) : Prop where
  line : s.line = 1 + before.count '\n'
  col : s.col = 1 + (before.reverse.takeWhile (· != '\n')).length
  len : s.len = (String.ofList text).utf8ByteSize

theorem Position.after_reverse (cs : List Char) :
    Position.start.after cs.reverse = ⟨1 + cs.count '\n', 1 + (cs.takeWhile (· != '\n')).length⟩ := by
  induction cs with
  | nil => rfl
  | cons c cs ih =>
    rw [List.reverse_cons, after_append, ih, after_cons, after_nil, advance]
    by_cases hc : c = '\n'
    · subst hc
      rw [if_pos rfl, List.count_cons_self, List.takeWhile_cons_of_neg (by decide)]
      rfl
    · rw [if_neg hc, List.count_cons_of_ne hc, List.takeWhile_cons_of_pos (p := (· != '\n')) (bne_iff_ne.2 hc)]
      rfl

theorem Position.after_start (cs : List Char) :
    Position.start.after cs = ⟨1 + cs.count '\n', 1 + (cs.reverse.takeWhile (· != '\n')).length⟩ := by
  have h := after_reverse cs.reverse
  rwa [List.reverse_reverse, List.count_reverse] at h

theorem Placed.byteLength_eq (cs : List Char) : byteLength cs = (String.ofList cs).utf8ByteSize := by
  induction cs with
  | nil => rfl
  | cons c cs ih => rw [byteLength, ih, String.ofList_cons, String.utf8ByteSize_append, String.utf8ByteSize_singleton]

theorem Placed.covers (p : Piece) (before : List Char) :
    (Placed.mk p (Position.start.after before)).span.Covers before p.text := by
  rw [Position.after_start]
  exact ⟨rfl, rfl, byteLength_eq p.text⟩

/-! ## Pieces -/

namespace Piece

variable {k : TokenKind} {c : Char} {cs rest : List Char}

theorem cut_blank (hc : isBlank c = true) : cut c cs = (⟨.blank, [c]⟩, cs) := if_pos hc

theorem cut_comment (hcs : '\n' ∉ cs) (hrest : Stops (· != '\n') rest) :
    cut '/' ('/' :: cs ++ rest) = (⟨.comment, '/' :: '/' :: cs⟩, rest) := by
  have hall : ∀ d ∈ '/' :: cs, (d != '\n') = true := by
    refine List.forall_mem_cons.2 ⟨by decide, fun d hd => ?_⟩
    rw [bne_iff_ne]
    rintro rfl
    exact hcs hd
  show ((⟨.comment, '/' :: ('/' :: cs ++ rest).takeWhile (· != '\n')⟩ : Piece), _) = _
  rw [hrest.takeWhile hall, hrest.dropWhile hall]

/-- A token or a fault, which is on one line. -/
structure Lexical (p : Piece) : Prop where
  kind : (∃ k, p.kind = .token k) ∨ ∃ f, p.kind = .fault f
  line : '\n' ∉ p.text

theorem newline_not_mem_takeWhile {p : Char → Bool} (hp : p '\n' = false) : '\n' ∉ cs.takeWhile p := fun h => by
  rw [List.all_eq_true.1 List.all_takeWhile _ h] at hp
  cases hp

theorem lexical_string (cs : List Char) : (string cs).1.Lexical := by
  have hbody : '\n' ∉ cs.takeWhile insideString := newline_not_mem_takeWhile (by decide)
  unfold string
  split
  · exact ⟨.inl ⟨_, rfl⟩, by simp [hbody]⟩
  · exact ⟨.inr ⟨_, rfl⟩, by simp [hbody]⟩

theorem lexical_number (cs : List Char) : (number cs).1.Lexical := by
  have hdigits : ∀ ds : List Char, '\n' ∉ ds.takeWhile Char.isDigit := fun _ => newline_not_mem_takeWhile (by decide)
  have hinside : ∀ ds : List Char, '\n' ∉ ds.takeWhile insideNumber := fun _ => newline_not_mem_takeWhile (by decide)
  unfold number
  split
  · split
    · exact ⟨.inr ⟨_, rfl⟩, by simp [hdigits, hinside]⟩
    · exact ⟨.inl ⟨_, rfl⟩, by simp [hdigits]⟩
  · exact ⟨.inl ⟨_, rfl⟩, hdigits _⟩

theorem lexical_word (cs : List Char) : (word cs).1.Lexical :=
  ⟨.inl ⟨_, rfl⟩, newline_not_mem_takeWhile (by decide)⟩

theorem lexical_mark (hc : c ≠ '\n') (cs : List Char) : (mark c cs).1.Lexical := by
  have hsingle : (∃ k, mark.single c = .token k) ∨ ∃ f, mark.single c = .fault f := by
    unfold mark.single
    split <;> simp
  unfold mark
  split
  any_goals exact ⟨.inl ⟨_, rfl⟩, by simp⟩
  exact ⟨hsingle, by simpa using hc.symm⟩

/-- A piece is a blank, a comment, or on one line a token or a fault. -/
theorem cut_cases (c : Char) (cs : List Char) :
    isBlank c = true ∨
      (∃ body rest, c :: cs = '/' :: '/' :: body ++ rest ∧ '\n' ∉ body ∧ Stops (· != '\n') rest) ∨
      (cut c cs).1.Lexical := by
  unfold cut
  split
  · next hc => exact .inl hc
  split
  · next hc =>
    subst hc
    unfold slash
    split
    · next ds =>
      refine .inr (.inl ⟨ds.takeWhile (· != '\n'), ds.dropWhile (· != '\n'), ?_, ?_, .of_dropWhile ds⟩)
      · simp [List.takeWhile_append_dropWhile]
      · exact newline_not_mem_takeWhile (by decide)
    · exact .inr (.inr ⟨.inl ⟨_, rfl⟩, by simp⟩)
  split
  · exact .inr (.inr (lexical_string cs))
  split
  · exact .inr (.inr (lexical_number _))
  split
  · exact .inr (.inr (lexical_word _))
  · next hc _ _ _ _ =>
    refine .inr (.inr (lexical_mark ?_ cs))
    rintro rfl
    exact hc (by decide)

end Piece

/-! ## Coverings -/

/-- Tokens and faults cover the text behind `before`, in this order, with blanks and comments between them. -/
inductive Tiled : List Char → List Char → List Token → List LexError → Prop
  | done {before : List Char} : Tiled before [] [] []
  | blank {before cs : List Char} {c : Char} {ts : List Token} {es : List LexError} (hc : isBlank c = true)
      (h : Tiled (before ++ [c]) cs ts es) : Tiled before (c :: cs) ts es
  /-- A comment runs up to a line end or to the end of the text. -/
  | comment {before body cs : List Char} {ts : List Token} {es : List LexError} (hbody : '\n' ∉ body)
      (hcs : Stops (· != '\n') cs) (h : Tiled (before ++ '/' :: '/' :: body) cs ts es) :
      Tiled before ('/' :: '/' :: body ++ cs) ts es
  /-- A token is spelled as its kind is, and what follows does not go on with it. -/
  | token {before cs : List Char} {t : Token} {ts : List Token} {es : List LexError}
      (hspan : t.span.Covers before t.lexeme.toList) (hline : '\n' ∉ t.lexeme.toList)
      (hspells : Spells t.kind t.lexeme.toList) (hcs : Stops t.kind.goesOn cs)
      (h : Tiled (before ++ t.lexeme.toList) cs ts es) : Tiled before (t.lexeme.toList ++ cs) (t :: ts) es
  | fault {before text cs : List Char} {e : LexError} {ts : List Token} {es : List LexError}
      (hspan : e.span.Covers before text) (hne : text ≠ []) (hline : '\n' ∉ text)
      (h : Tiled (before ++ text) cs ts es) : Tiled before (text ++ cs) ts (e :: es)

/-- A token made of a text. -/
theorem Tiled.ofText {before text cs : List Char} {k : TokenKind} {span : Span} {ts : List Token} {es : List LexError}
    (hspan : span.Covers before text) (hline : '\n' ∉ text) (hspells : Spells k text) (hcs : Stops k.goesOn cs)
    (h : Tiled (before ++ text) cs ts es) : Tiled before (text ++ cs) (⟨k, String.ofList text, span⟩ :: ts) es := by
  obtain ⟨lexeme, rfl⟩ : ∃ lexeme : String, text = lexeme.toList := ⟨String.ofList text, String.toList_ofList.symm⟩
  rw [String.ofList_toList]
  exact .token (t := ⟨k, lexeme, span⟩) hspan hline hspells hcs h

theorem tiled_place (before cs : List Char) :
    Tiled before cs ((place (Position.start.after before) (pieces cs)).filterMap Placed.token?)
      ((place (Position.start.after before) (pieces cs)).filterMap Placed.error?) := by
  fun_induction pieces cs generalizing before with
  | case1 => exact .done
  | case2 c cs ih =>
    have ih := ih (before ++ (cut c cs).1.text)
    rw [Position.after_append] at ih
    rw [place]
    rcases cut_cases c cs with hc | ⟨body, rest, heq, hbody, hrest⟩ | hlexical
    · rw [cut_blank hc] at ih ⊢
      exact .blank hc ih
    · obtain ⟨rfl, rfl⟩ := List.cons.inj (heq.trans List.cons_append)
      rw [cut_comment hbody hrest] at ih ⊢
      exact .comment hbody hrest ih
    · have hcovers := Placed.covers (cut c cs).1 before
      have hne := cut_text_ne_nil c cs
      have happend := cut_append c cs
      cases hcut : cut c cs with
      | mk p rest =>
      obtain ⟨kind, text⟩ := p
      rw [hcut] at ih hlexical hcovers hne happend
      rw [← happend]
      obtain ⟨k, rfl⟩ | ⟨f, rfl⟩ := hlexical.kind
      · obtain ⟨-, hspells, hstops⟩ := cut_eq_token_iff.1 hcut
        exact .ofText hcovers hlexical.line hspells hstops ih
      · exact .fault hcovers hne hlexical.line ih

theorem tiled_scan (source : String) : Tiled [] source.toList (scan source).tokens (scan source).errors :=
  tiled_place [] source.toList

/-! ## Places of tokens and faults -/

namespace Tiled

variable {before cs : List Char} {ts : List Token} {es : List LexError}

/-- Where a token of a covering stands, and what follows it. -/
theorem token_at (h : Tiled before cs ts es) {t : Token} (ht : t ∈ ts) :
    ∃ skipped rest, cs = skipped ++ t.lexeme.toList ++ rest ∧ t.span.Covers (before ++ skipped) t.lexeme.toList ∧
      '\n' ∉ t.lexeme.toList ∧ Spells t.kind t.lexeme.toList ∧ Stops t.kind.goesOn rest := by
  induction h with
  | done => cases ht
  | @blank before cs c ts es hc h ih =>
    obtain ⟨skipped, rest, rfl, hcovers, hall⟩ := ih ht
    exact ⟨c :: skipped, rest, rfl, by simpa using hcovers, hall⟩
  | @comment before body cs ts es hbody hcs h ih =>
    obtain ⟨skipped, rest, rfl, hcovers, hall⟩ := ih ht
    exact ⟨'/' :: '/' :: body ++ skipped, rest, by simp, by simpa using hcovers, hall⟩
  | @token before cs t' ts es hspan hline hspells hcs h ih =>
    obtain rfl | ht := List.mem_cons.1 ht
    · exact ⟨[], cs, rfl, by simpa using hspan, hline, hspells, hcs⟩
    · obtain ⟨skipped, rest, rfl, hcovers, hall⟩ := ih ht
      exact ⟨t'.lexeme.toList ++ skipped, rest, by simp, by simpa using hcovers, hall⟩
  | @fault before text cs e ts es hspan hne hline h ih =>
    obtain ⟨skipped, rest, rfl, hcovers, hall⟩ := ih ht
    exact ⟨text ++ skipped, rest, by simp, by simpa using hcovers, hall⟩

/-- Where a fault of a covering stands. -/
theorem fault_at (h : Tiled before cs ts es) {e : LexError} (he : e ∈ es) :
    ∃ skipped text rest, cs = skipped ++ text ++ rest ∧ e.span.Covers (before ++ skipped) text ∧ '\n' ∉ text := by
  induction h with
  | done => cases he
  | @blank before cs c ts es hc h ih =>
    obtain ⟨skipped, text, rest, rfl, hcovers, hline⟩ := ih he
    exact ⟨c :: skipped, text, rest, rfl, by simpa using hcovers, hline⟩
  | @comment before body cs ts es hbody hcs h ih =>
    obtain ⟨skipped, text, rest, rfl, hcovers, hline⟩ := ih he
    exact ⟨'/' :: '/' :: body ++ skipped, text, rest, by simp, by simpa using hcovers, hline⟩
  | @token before cs t ts es hspan hline hspells hcs h ih =>
    obtain ⟨skipped, text, rest, rfl, hcovers, hline⟩ := ih he
    exact ⟨t.lexeme.toList ++ skipped, text, rest, by simp, by simpa using hcovers, hline⟩
  | @fault before text' cs e' ts es hspan hne hline h ih =>
    obtain rfl | he := List.mem_cons.1 he
    · exact ⟨[], text', cs, rfl, by simpa using hspan, hline⟩
    · obtain ⟨skipped, text, rest, rfl, hcovers, hline⟩ := ih he
      exact ⟨text' ++ skipped, text, rest, by simp, by simpa using hcovers, hline⟩

end Tiled

/-- **A scan loses nothing and places everything.** Scanning with a cursor has an outcome, which is that of the scan.
The tokens and the faults cover the source in their order, with nothing but blanks and comments between them. Each of
them is on one line, and its span says where in the source its text stands and how long it is. For a source of fewer
than `2 ^ 32 - 1` bytes all counters fit in 32 bits. -/
theorem scan_covers_source (source : String) :
    ∃ found, TextLexer.scan source = some found ∧ scan source = found ∧
      Tiled [] source.toList found.tokens found.errors ∧
      (∀ t ∈ found.tokens, ∃ before after, source.toList = before ++ t.lexeme.toList ++ after ∧
        t.span.Covers before t.lexeme.toList ∧ '\n' ∉ t.lexeme.toList) ∧
      ∀ e ∈ found.errors, ∃ before text after, source.toList = before ++ text ++ after ∧
        e.span.Covers before text ∧ '\n' ∉ text := by
  refine ⟨_, TextLexer.scan_eq source, rfl, tiled_scan source, fun t ht => ?_,
    fun e he => (tiled_scan source).fault_at he⟩
  obtain ⟨before, after, heq, hcovers, hline, -⟩ := (tiled_scan source).token_at ht
  exact ⟨before, after, heq, hcovers, hline⟩

/-! ## Counters of 32 bits -/

/-- Reading a text makes no counter larger than the bytes of the text do. -/
theorem Position.after_start_le (cs : List Char) :
    (Position.start.after cs).line ≤ Placed.byteLength cs + 1 ∧
      (Position.start.after cs).col ≤ Placed.byteLength cs + 1 := by
  have hlength := Placed.length_le_byteLength cs
  have hlines : cs.count '\n' ≤ cs.length := List.count_le_length
  have hcols : (cs.reverse.takeWhile (· != '\n')).length ≤ cs.length :=
    cs.length_reverse ▸ (List.takeWhile_prefix _).length_le
  rw [Position.after_start]
  dsimp only
  omega

/-- The counters of a scan with a cursor are at most one larger than the number of bytes of its source. So they stay
below `2 ^ 32` for a source of fewer than `2 ^ 32 - 1` bytes, and counting with 32 bits comes to the same. -/
theorem TextLexer.standing_le (before after : List Char) (es : List LexError) :
    let c := (standing before after es).cursor
    c.offset ≤ Placed.byteLength c.source ∧ c.line ≤ Placed.byteLength c.source + 1 ∧
      c.column ≤ Placed.byteLength c.source + 1 := by
  obtain ⟨hline, hcol⟩ := Position.after_start_le before
  dsimp only [standing]
  rw [Placed.byteLength_append]
  omega

/-- The same goes for the spans of what is found, and for their ends. -/
theorem Span.Covers.le {s : Span} {before text after : List Char} (h : s.Covers before text) :
    s.line ≤ Placed.byteLength (before ++ text ++ after) + 1 ∧
      s.col + s.len ≤ Placed.byteLength (before ++ text ++ after) + 1 := by
  obtain ⟨hline, hcol⟩ := Position.after_start_le before
  rw [Position.after_start] at hline hcol
  rw [Placed.byteLength_append, Placed.byteLength_append, h.line, h.col, h.len, ← Placed.byteLength_eq]
  dsimp only at hline hcol
  omega

theorem length_pieces_le (cs : List Char) : (pieces cs).length ≤ cs.length := by
  fun_induction pieces cs with
  | case1 => exact Nat.le_refl 0
  | case2 c cs ih =>
    have := Piece.length_cut_lt c cs
    simp only [List.length_cons] at this ⊢
    omega

theorem length_place (p : Position) (xs : List Piece) : (place p xs).length = xs.length := by
  induction xs generalizing p with
  | nil => rfl
  | cons x xs ih => rw [place, List.length_cons, ih, List.length_cons]

theorem length_tokens_le (source : String) : (scan source).tokens.length ≤ source.length := by
  calc (scan source).tokens.length ≤ (placed source).length := List.length_filterMap_le _ _
    _ = (pieces source.toList).length := length_place _ _
    _ ≤ source.toList.length := length_pieces_le _
    _ = source.length := String.length_toList

end MicroC
