import MicroC.Proofs.Token.Lexeme

/-!
# Scanning tokens again

Which tokens a text has is a matter of the tokens alone, as long as something is between them. So the texts of the
tokens of a source can be spread out with any blanks and comments, down to each of them alone, and are
scanned to the same tokens.

* `scan_of_tiled`: tokens that cover a source are all that a scan of it finds.
* `Separator`, `SpreadOut`: the texts of tokens with blanks and comments between them.
* `Span.Covers.before_unique`: a span stands at one place of a source.
* **`scan_again`**: tokens spread out, tokens alone, and tokens with one more character.
-/

namespace MicroC

open Piece Grammar

/-! ## Coverings without faults -/

theorem Span.Covers.unique {s s' : Span} {before text : List Char} (h : s.Covers before text)
    (h' : s'.Covers before text) : s = s' := by
  obtain ⟨line, col, len⟩ := s
  obtain ⟨line', col', len'⟩ := s'
  obtain ⟨rfl, rfl, rfl⟩ := h
  obtain ⟨rfl, rfl, rfl⟩ := h'
  rfl

/-- **Tokens that cover a text without faults are what is found in it.** -/
theorem place_of_tiled {before cs : List Char} {ts : List Token} {es : List LexError} (h : Tiled before cs ts es)
    (hes : es = []) :
    (place (Position.start.after before) (pieces cs)).filterMap Placed.token? = ts ∧
      (place (Position.start.after before) (pieces cs)).filterMap Placed.error? = [] := by
  induction h with
  | done =>
    rw [pieces, place]
    exact ⟨rfl, rfl⟩
  | @blank before cs c ts es hc h ih =>
    rw [pieces, cut_blank hc, place, ← Position.after_append]
    exact ih hes
  | @comment before body cs ts es hbody hcs h ih =>
    rw [List.cons_append, pieces, cut_comment hbody hcs, place, ← Position.after_append]
    exact ih hes
  | @token before cs t ts es hspan hline hspells hcs h ih =>
    obtain ⟨k, lexeme, span⟩ := t
    obtain ⟨c, ds, hds⟩ := List.exists_cons_of_ne_nil hspells.ne_nil
    have hcut : cut c (ds ++ cs) = (⟨.token k, lexeme.toList⟩, cs) :=
      cut_of_spells hspells hcs (by rw [hds, List.cons_append])
    obtain ⟨ihtokens, iherrors⟩ := ih hes
    rw [hds, List.cons_append, pieces, hcut, place, ← Position.after_append]
    have hplaced : span = (Placed.mk ⟨.token k, lexeme.toList⟩ (Position.start.after before)).span :=
      hspan.unique (Placed.covers _ before)
    have htoken : (Placed.mk ⟨.token k, lexeme.toList⟩ (Position.start.after before)).token? = some ⟨k, lexeme, span⟩ := by
      rw [Placed.token?, ← hplaced, String.ofList_toList]
    exact ⟨by rw [List.filterMap_cons_some htoken, ihtokens], iherrors⟩
  | fault => cases hes

theorem scan_of_tiled {source : String} {ts : List Token} (h : Tiled [] source.toList ts []) :
    scan source = ⟨ts, []⟩ := by
  obtain ⟨htokens, herrors⟩ := place_of_tiled h rfl
  rw [scan, placed, Scan.mk.injEq]
  exact ⟨htokens, herrors⟩

/-! ## Tokens with something between them -/

/-- Blanks, and comments with the line ends behind them. -/
inductive Spacing : List Char → Prop
  | nil : Spacing []
  | blank {c : Char} {cs : List Char} (hc : isBlank c = true) (h : Spacing cs) : Spacing (c :: cs)
  | comment {body cs : List Char} (hbody : '\n' ∉ body) (h : Spacing cs) : Spacing ('/' :: '/' :: body ++ '\n' :: cs)

/-- Spacing that starts with a blank, so that no token can go on with it. -/
inductive Separator : List Char → Prop
  | mk {c : Char} {cs : List Char} (hc : isBlank c = true) (h : Spacing cs) : Separator (c :: cs)

/-- A text that has the texts of tokens one behind the other, with separators between them. -/
inductive SpreadOut : List Token → List Char → Prop
  | none : SpreadOut [] []
  | one (t : Token) : SpreadOut [t] t.lexeme.toList
  | cons {t t' : Token} {ts : List Token} {sep cs : List Char} (hsep : Separator sep) (h : SpreadOut (t' :: ts) cs) :
      SpreadOut (t :: t' :: ts) (t.lexeme.toList ++ sep ++ cs)

theorem TokenKind.goesOn_blank (k : TokenKind) {c : Char} (hc : isBlank c = true) : k.goesOn c = false := by
  simp only [isBlank, Bool.or_eq_true, beq_iff_eq] at hc
  rcases hc with ((rfl | rfl) | rfl) | rfl <;> cases k <;> rfl

theorem Tiled.spacing {before sep cs : List Char} {ts : List Token} {es : List LexError} (hsep : Spacing sep)
    (h : Tiled (before ++ sep) cs ts es) : Tiled before (sep ++ cs) ts es := by
  induction hsep generalizing before with
  | nil => rwa [List.append_nil] at h
  | blank hc _ ih => exact .blank hc (ih (by rwa [List.append_assoc, List.singleton_append]))
  | @comment body sep hbody _ ih =>
    rw [List.append_assoc]
    refine .comment hbody (Stops.cons.2 (by decide)) (.blank (by decide) (ih ?_))
    simpa using h

theorem exists_covers (before text : List Char) : ∃ s : Span, s.Covers before text :=
  ⟨⟨_, _, _⟩, rfl, rfl, rfl⟩

/-- **Tokens that are spread out cover the text** at the places where they then are. -/
theorem tiled_of_spreadOut {ts : List Token} {cs : List Char} (h : SpreadOut ts cs)
    (hts : ∀ t ∈ ts, '\n' ∉ t.lexeme.toList ∧ Spells t.kind t.lexeme.toList) (before : List Char) :
    ∃ us, SameText ts us ∧ Tiled before cs us [] := by
  induction h generalizing before with
  | none => exact ⟨[], .refl _, .done⟩
  | one t =>
    obtain ⟨hline, hspells⟩ := hts t List.mem_cons_self
    obtain ⟨s, hs⟩ := exists_covers before t.lexeme.toList
    have htiled := Tiled.token (t := ⟨t.kind, t.lexeme, s⟩) hs hline hspells .nil .done
    rw [List.append_nil] at htiled
    exact ⟨[⟨t.kind, t.lexeme, s⟩], rfl, htiled⟩
  | @cons t t' ts sep cs hsep h ih =>
    obtain ⟨ht, hts⟩ := List.forall_mem_cons.1 hts
    obtain ⟨s, hs⟩ := exists_covers before t.lexeme.toList
    obtain ⟨us, hsame, htiled⟩ := ih hts (before ++ t.lexeme.toList ++ sep)
    cases hsep with
    | @mk c sep hc hsep =>
    rw [List.append_assoc]
    refine ⟨⟨t.kind, t.lexeme, s⟩ :: us, ?_, ?_⟩
    · exact congrArg ((t.kind, t.lexeme) :: ·) hsame
    · exact .token (t := ⟨t.kind, t.lexeme, s⟩) hs ht.1 ht.2 (Stops.cons.2 (t.kind.goesOn_blank hc))
        (.spacing (.blank hc hsep) htiled)

/-! ## Places -/

/-- A text that leads from a position back to it is empty. -/
theorem eq_nil_of_after {before cs : List Char} (h : Position.start.after before = Position.start.after (before ++ cs)) :
    cs = [] := by
  rw [Position.after_start, Position.after_start, Position.mk.injEq, List.count_append, List.reverse_append] at h
  obtain ⟨hline, hcol⟩ := h
  have hnone : '\n' ∉ cs := List.count_eq_zero.1 (by omega)
  have hall : ∀ c ∈ cs.reverse, (c != '\n') = true := by
    intro c hc
    rw [bne_iff_ne]
    rintro rfl
    exact hnone (List.mem_reverse.1 hc)
  rw [List.takeWhile_append_of_pos hall, List.length_append, List.length_reverse] at hcol
  exact List.length_eq_zero_iff.1 (by omega)

/-- **A span stands at one place of a text.** -/
theorem Span.Covers.before_unique {s : Span} {before before' text text' rest rest' : List Char}
    (h : s.Covers before text) (h' : s.Covers before' text') (heq : before ++ rest = before' ++ rest') :
    before = before' := by
  have hafter : Position.start.after before = Position.start.after before' := by
    rw [Position.after_start, Position.after_start, ← h.line, ← h.col, h'.line, h'.col]
  obtain ⟨ds, rfl, -⟩ | ⟨ds, rfl, -⟩ := List.append_eq_append_iff.1 heq
  · rw [eq_nil_of_after hafter, List.append_nil]
  · rw [eq_nil_of_after hafter.symm, List.append_nil]

/-! ## Scanning again -/

/-- Every token of a scan is on one line and spelled as its kind is. -/
theorem spells_of_mem_tokens {source : String} {t : Token} (ht : t ∈ (scan source).tokens) :
    '\n' ∉ t.lexeme.toList ∧ Spells t.kind t.lexeme.toList := by
  obtain ⟨_, _, _, _, hline, hspells, _⟩ := (tiled_scan source).token_at ht
  exact ⟨hline, hspells⟩

theorem scan_spreadOut {source text : String} {ts : List Token} (hts : ∀ t ∈ ts, t ∈ (scan source).tokens)
    (h : SpreadOut ts text.toList) : (scan text).errors = [] ∧ SameText ts (scan text).tokens := by
  obtain ⟨us, hsame, htiled⟩ := tiled_of_spreadOut h (fun t ht => spells_of_mem_tokens (hts t ht)) []
  rw [scan_of_tiled htiled]
  exact ⟨rfl, hsame⟩

/-- What follows a token in a source does not go on with it. -/
theorem stops_of_mem_tokens {source : String} {t : Token} (ht : t ∈ (scan source).tokens) {before after : List Char}
    (heq : source.toList = before ++ t.lexeme.toList ++ after) (hspan : t.span.Covers before t.lexeme.toList) :
    Stops t.kind.goesOn after := by
  obtain ⟨before', after', heq', hspan', -, -, hstops⟩ := (tiled_scan source).token_at ht
  have hboth : before ++ (t.lexeme.toList ++ after) = before' ++ (t.lexeme.toList ++ after') := by
    rw [← List.append_assoc, ← List.append_assoc, ← heq, ← heq']
  obtain rfl : before = before' := hspan.before_unique hspan' hboth
  rwa [List.append_cancel_left (List.append_cancel_left hboth)]

/-- **Tokens do not depend on what stands around them.** The tokens of a source, spread out with any separators, are
scanned to the same kinds and texts, without faults. Every token of any scan is found again in its text alone, and no
token of any scan has its text with the character that follows it in the source. -/
theorem scan_again :
    (∀ source text, SpreadOut (scan source).tokens text.toList →
      (scan text).errors = [] ∧ SameText (scan source).tokens (scan text).tokens) ∧
    (∀ source, ∀ t ∈ (scan source).tokens,
      (scan t.lexeme).errors = [] ∧ SameText [t] (scan t.lexeme).tokens) ∧
    ∀ source, ∀ t ∈ (scan source).tokens, ∀ before e after,
      source.toList = before ++ t.lexeme.toList ++ e :: after → t.span.Covers before t.lexeme.toList →
      ∀ source', ∀ t' ∈ (scan source').tokens, t'.lexeme ≠ t.lexeme.push e := by
  refine ⟨fun source text h => scan_spreadOut (fun t ht => ht) h, fun source t ht => ?_, ?_⟩
  · exact scan_spreadOut (List.forall_mem_singleton.2 ht) (.one t)
  · intro source t ht before e after heq hspan source' t' ht' hlexeme
    have hstops : t.kind.goesOn e = false := Stops.cons.1 (stops_of_mem_tokens ht heq hspan)
    have hspells : Spells t'.kind t'.lexeme.toList := (spells_of_mem_tokens ht').2
    rw [hlexeme, String.toList_push] at hspells
    exact (spells_of_mem_tokens ht).2.not_append hstops hspells

theorem scan_again_floats :
    SpreadOut (scan "ifx<=7./.5").tokens "ifx <=\n7. // a\n\t/\r// b\n .5".toList ∧
    SameText (scan "ifx<=7./.5").tokens (scan "ifx <=\n7. // a\n\t/\r// b\n .5").tokens ∧
    SameText [⟨.floatLiteral, "7.", ⟨1, 6, 2⟩⟩] (scan "7.").tokens ∧
    ∀ source, ∀ t ∈ (scan source).tokens, t.lexeme ≠ "7./" := by
  have hscan : scan "ifx<=7./.5" = ⟨[⟨.identifier, "ifx", ⟨1, 1, 3⟩⟩, ⟨.lessEquals, "<=", ⟨1, 4, 2⟩⟩,
      ⟨.floatLiteral, "7.", ⟨1, 6, 2⟩⟩, ⟨.slash, "/", ⟨1, 8, 1⟩⟩, ⟨.floatLiteral, ".5", ⟨1, 9, 2⟩⟩], []⟩ := by
    decide +kernel
  have hspread : SpreadOut (scan "ifx<=7./.5").tokens "ifx <=\n7. // a\n\t/\r// b\n .5".toList := by
    have ha : '\n' ∉ [' ', 'a'] := by decide
    have hb : '\n' ∉ [' ', 'b'] := by decide
    rw [hscan]
    exact .cons (.mk (c := ' ') rfl .nil) <| .cons (.mk (c := '\n') rfl .nil) <|
      .cons (.mk (c := ' ') rfl (.comment ha (.blank (c := '\t') rfl .nil))) <|
      .cons (.mk (c := '\r') rfl (.comment hb (.blank (c := ' ') rfl .nil))) <| .one _
  have hpoint : ⟨.floatLiteral, "7.", ⟨1, 6, 2⟩⟩ ∈ (scan "ifx<=7./.5").tokens := by
    rw [hscan]
    decide
  obtain ⟨hagain, halone, hlongest⟩ := scan_again
  exact ⟨hspread, (hagain _ _ hspread).2, (halone _ _ hpoint).2,
    hlongest _ _ hpoint ['i', 'f', 'x', '<', '='] '/' ['.', '5'] rfl ⟨rfl, rfl, rfl⟩⟩

end MicroC
