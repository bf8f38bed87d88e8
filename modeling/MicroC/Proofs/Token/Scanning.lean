import MicroC.Proofs.Token.Cursor

/-!
# The cursor finds the pieces

Reading a piece at a cursor leaves the cursor behind the piece, with the counters as they are for the text in front of
it. So a scan with a cursor has an outcome, and finds what cutting the source into pieces finds.

* `TextLexer.standing`: a scan that has read one text and has another one ahead.
* `Scanning.lexeme_standing`: reading the lexeme ahead.
* `TextLexer.Shows`, `TextLexer.Shows.next`: taking tokens one at a time.
* **`TextLexer.scan_eq`**: scanning with a cursor is scanning.
-/

namespace MicroC

open Piece Placed

theorem Placed.byteLength_append (cs ds : List Char) : byteLength (cs ++ ds) = byteLength cs + byteLength ds := by
  induction cs with
  | nil => simp [byteLength]
  | cons c cs ih => rw [List.cons_append, byteLength, byteLength, ih, Nat.add_assoc]

theorem Placed.byteLength_singleton (c : Char) : byteLength [c] = c.utf8Size := rfl

theorem Placed.length_le_byteLength (cs : List Char) : cs.length ≤ byteLength cs := by
  induction cs with
  | nil => exact Nat.le_refl 0
  | cons c cs ih =>
    have := c.utf8Size_pos
    rw [List.length_cons, byteLength]
    omega

/-- Every character has a byte. -/
theorem Placed.exists_byteLength_cons (c : Char) (cs : List Char) : ∃ n, byteLength (c :: cs) = n + 1 := by
  have := c.utf8Size_pos
  refine Nat.exists_eq_succ_of_ne_zero ?_
  rw [byteLength]
  omega

/-! ## Slices -/

theorem dropBytes_byteLength (cs ds : List Char) : dropBytes (byteLength cs) (cs ++ ds) = some ds := by
  induction cs with
  | nil => cases ds <;> rfl
  | cons c cs ih =>
    obtain ⟨n, hn⟩ := exists_byteLength_cons c cs
    rw [hn, List.cons_append, dropBytes, ← hn, byteLength, if_pos (Nat.le_add_right _ _), Nat.add_sub_cancel_left, ih]

theorem takeBytes_byteLength (cs ds : List Char) : takeBytes (byteLength cs) (cs ++ ds) = some cs := by
  induction cs with
  | nil => cases ds <;> rfl
  | cons c cs ih =>
    obtain ⟨n, hn⟩ := exists_byteLength_cons c cs
    rw [hn, List.cons_append, takeBytes, ← hn, byteLength, if_pos (Nat.le_add_right _ _), Nat.add_sub_cancel_left, ih]
    rfl

theorem sliceBytes_byteLength (before text after : List Char) :
    sliceBytes (byteLength before) (byteLength (before ++ text)) (before ++ text ++ after) = some text := by
  rw [byteLength_append, sliceBytes, if_pos (Nat.le_add_right _ _), List.append_assoc, dropBytes_byteLength,
    Nat.add_sub_cancel_left]
  exact takeBytes_byteLength text after

/-! ## Operations -/

/-- A scan that has read one text and has another one ahead. -/
def TextLexer.standing (before after : List Char) (es : List LexError) : TextLexer where
  cursor := ⟨before ++ after, after, byteLength before, (Position.start.after before).line,
    (Position.start.after before).col⟩
  errors := es

/-- The start of a lexeme behind a text. -/
def LexemeStart.behind (before : List Char) : LexemeStart :=
  ⟨(Position.start.after before).line, (Position.start.after before).col, byteLength before⟩

open TextLexer

section Operations

variable (before : List Char) {text after : List Char} (es : List LexError) {c : Char}

theorem TextCursor.advance_standing :
    (standing before (c :: after) es).cursor.advance = (some c, (standing (before ++ [c]) after es).cursor) := by
  simp only [advance, standing, Position.after_append, byteLength_append, byteLength_singleton, Position.after_cons,
    Position.after_nil, Position.advance, List.append_assoc, List.singleton_append]
  split <;> rfl

theorem TextCursor.peek_standing : (standing before after es).cursor.peek = after.head? := rfl

theorem TextCursor.skipWhile_standing (f : Char → Bool) : (standing before after es).cursor.skipWhile f =
    (standing (before ++ after.takeWhile f) (after.dropWhile f) es).cursor := by
  induction after generalizing before with
  | nil =>
    rw [skipWhile, if_neg (by simp [check, peek, standing])]
    simp
  | cons c after ih =>
    by_cases hc : f c = true
    · rw [skipWhile, if_pos (by simpa [check, peek, standing] using hc), advance_standing]
      rw [ih, List.takeWhile_cons_of_pos hc, List.dropWhile_cons_of_pos hc, List.append_assoc, List.singleton_append]
    · rw [skipWhile, if_neg (by simpa [check, peek, standing] using hc), List.takeWhile_cons_of_neg hc,
        List.dropWhile_cons_of_neg hc, List.append_nil]

namespace Scanning

variable {α β : Type} {f : α → Scanning β} {l l' : TextLexer}

theorem bind_eq {x : Scanning α} {a : α} (h : x l = some (a, l')) : (x >>= f) l = f a l' := by
  show (x l).bind (fun r => f r.1 r.2) = _
  rw [h, Option.bind_some]

theorem look_bind (g : TextCursor → α) : (look g >>= f) l = f (g l.cursor) l := bind_eq rfl

theorem advance_bind {f : Option Char → Scanning β} :
    (advance >>= f) (standing before (c :: after) es) = f (some c) (standing (before ++ [c]) after es) := by
  refine bind_eq ?_
  rw [advance, move, TextCursor.advance_standing]
  rfl

theorem skipWhile_bind {f : Unit → Scanning β} (p : Char → Bool) :
    (move (fun c => ((), c.skipWhile p)) >>= f) (standing before after es) =
      f () (standing (before ++ after.takeWhile p) (after.dropWhile p) es) := by
  refine bind_eq ?_
  rw [move, TextCursor.skipWhile_standing]
  rfl

theorem eat_bind {f : Bool → Scanning β} :
    (eat c >>= f) (standing before (c :: after) es) = f true (standing (before ++ [c]) after es) := by
  refine bind_eq ?_
  rw [eat, move, TextCursor.eat, TextCursor.peek_standing, List.head?_cons, if_pos rfl, TextCursor.advance_standing]
  rfl

theorem eat_bind_of_ne {f : Bool → Scanning β} (h : after.head? ≠ some c) :
    (eat c >>= f) (standing before after es) = f false (standing before after es) := by
  refine bind_eq ?_
  rw [eat, move, TextCursor.eat, TextCursor.peek_standing, if_neg h]

theorem sliceFrom_bind {f : List Char → Scanning β} : (sliceFrom (byteLength before) >>= f)
    (standing (before ++ text) after es) = f text (standing (before ++ text) after es) := by
  refine bind_eq ?_
  rw [sliceFrom, TextCursor.sliceFrom]
  dsimp only [standing]
  rw [sliceBytes_byteLength]
  rfl

theorem eatWhile_bind {f : List Char → Scanning β} (p : Char → Bool) :
    (eatWhile p >>= f) (standing before after es) =
      f (after.takeWhile p) (standing (before ++ after.takeWhile p) (after.dropWhile p) es) := by
  refine bind_eq ?_
  rw [eatWhile, look_bind, skipWhile_bind, ← bind_pure (sliceFrom _)]
  exact sliceFrom_bind before es

/-! ## Lexemes -/

theorem head?_ne (h : ∀ rest, after = c :: rest → False) : after.head? ≠ some c := fun hhead => by
  obtain ⟨rest, hrest⟩ := List.head?_eq_some_iff.1 hhead
  exact h rest hrest

/-- A piece has been read. -/
def Found (before : List Char) (es : List LexError) (p : Piece) (rest : List Char) :
    Option (Option Token × TextLexer) :=
  let placed : Placed := ⟨p, Position.start.after before⟩
  some (placed.token?, standing (before ++ p.text) rest (es ++ placed.error?.toList))

theorem token_standing (k : TokenKind) : token k (.behind before) (standing (before ++ text) after es) =
    Found before es ⟨.token k, text⟩ after := by
  rw [token, look_bind]
  show (sliceFrom (byteLength before) >>= _) _ = _
  rw [sliceFrom_bind]
  dsimp only [standing, Found, token?, error?, Placed.span, LexemeStart.behind]
  rw [byteLength_append, Nat.add_sub_cancel_left, Option.toList_none, List.append_nil]
  rfl

theorem fault_standing (e : LexFault) : fault e (.behind before) (standing (before ++ text) after es) =
    Found before es ⟨.fault e, text⟩ after := by
  dsimp only [fault, standing, Found, token?, error?, Placed.span, LexemeStart.behind]
  rw [byteLength_append, Nat.add_sub_cancel_left, Option.toList_some]

theorem slash_standing : slash (.behind before) (standing before ('/' :: after) es) =
    Found before es (Piece.slash after).1 (Piece.slash after).2 := by
  rw [slash, advance_bind]
  unfold Piece.slash
  split
  · next cs =>
    rw [eat_bind, if_pos rfl, eatWhile_bind]
    simp only [Found, token?, error?, Option.toList_none, List.append_nil, List.append_assoc, List.singleton_append]
    rfl
  · next hne =>
    rw [eat_bind_of_ne _ _ (head?_ne hne), if_neg Bool.false_ne_true, token_standing]

theorem string_standing : string (.behind before) (standing before ('"' :: after) es) =
    Found before es (Piece.string after).1 (Piece.string after).2 := by
  unfold Piece.string
  split
  all_goals rw [string, advance_bind, skipWhile_bind, look_bind, TextCursor.peek_standing]
  · next rest heq =>
    rw [heq, List.head?_cons, if_pos rfl, advance_bind, List.append_assoc, List.append_assoc]
    exact token_standing before es .stringLiteral
  · next hne =>
    rw [if_neg (head?_ne hne), List.append_assoc]
    exact fault_standing before es .unterminatedString

theorem number_standing : number (.behind before) (standing before after es) =
    Found before es (Piece.number after).1 (Piece.number after).2 := by
  unfold Piece.number
  split
  · next ds heq =>
    split
    all_goals
      rw [number, eatWhile_bind, heq, eat_bind, if_pos rfl, eatWhile_bind, look_bind, TextCursor.peek_standing]
    · next rest heq' =>
      have hpoint : ('.' :: rest).takeWhile insideNumber = '.' :: rest.takeWhile insideNumber ∧
          ('.' :: rest).dropWhile insideNumber = rest.dropWhile insideNumber := ⟨rfl, rfl⟩
      rw [heq', List.head?_cons, if_pos rfl, eatWhile_bind, hpoint.1, hpoint.2]
      simp only [List.append_assoc, List.cons_append]
      exact fault_standing before es .multipleDecimalPoints
    · next hne =>
      rw [if_neg (head?_ne hne), List.append_assoc, List.append_assoc]
      exact token_standing before es .floatLiteral
  · next hne =>
    rw [number, eatWhile_bind, eat_bind_of_ne _ _ (head?_ne hne), if_neg Bool.false_ne_true]
    exact token_standing before es .intLiteral

theorem word_standing : word (.behind before) (standing before after es) =
    Found before es (Piece.word after).1 (Piece.word after).2 := by
  rw [word, eatWhile_bind]
  exact token_standing before es _

theorem double_standing {k : TokenKind} : double k (.behind before) (standing (before ++ [c]) ('=' :: after) es) =
    Found before es ⟨.token k, [c, '=']⟩ after := by
  rw [double, advance_bind, List.append_assoc]
  exact token_standing before es k

theorem single_standing : single c (.behind before) (standing (before ++ [c]) after es) =
    Found before es ⟨Piece.mark.single c, [c]⟩ after := by
  have hsingle : (∃ k, Piece.mark.single c = .token k) ∨ ∃ f, Piece.mark.single c = .fault f := by
    unfold Piece.mark.single
    split <;> simp
  unfold single
  obtain ⟨k, hk⟩ | ⟨f, hf⟩ := hsingle
  · rw [hk]
    exact token_standing before es k
  · rw [hf]
    exact fault_standing before es f

theorem mark_standing : mark (.behind before) (standing before (c :: after) es) =
    Found before es (Piece.mark c after).1 (Piece.mark c after).2 := by
  rw [mark, advance_bind]
  dsimp only
  rw [look_bind, TextCursor.peek_standing]
  unfold Piece.mark
  split
  · exact double_standing before es
  · exact double_standing before es
  · exact double_standing before es
  · exact double_standing before es
  · next h₁ h₂ h₃ h₄ =>
    have hsingle : operator c after.head? (.behind before) = single c (.behind before) := by
      unfold operator
      split
      · next heq => exact absurd heq (head?_ne (h₁ · rfl))
      · next heq => exact absurd heq (head?_ne (h₂ · rfl))
      · next heq => exact absurd heq (head?_ne (h₃ · rfl))
      · next heq => exact absurd heq (head?_ne (h₄ · rfl))
      · rfl
    rw [hsingle]
    exact single_standing before es

/-- **Reading the lexeme ahead takes the piece at the front.** -/
theorem lexeme_standing (hc : isBlank c = false) : lexeme (standing before (c :: after) es) =
    Found before es (Piece.cut c after).1 (Piece.cut c after).2 := by
  have hdigit : startsWithDigit after =
      ((standing before (c :: after) es).cursor.peekNth 1).any Char.isDigit := by cases after <;> rfl
  have hlexeme : lexeme (standing before (c :: after) es) =
      (if c = '/' then slash (.behind before) else if c = '"' then string (.behind before)
        else if c.isDigit then number (.behind before)
        else look (·.peekNth 1) >>= fun next =>
          if c = '.' ∧ next.any Char.isDigit then number (.behind before)
          else if c.isAlpha then word (.behind before) else mark (.behind before))
        (standing before (c :: after) es) := rfl
  unfold Piece.cut
  split
  · next h =>
    rw [hc] at h
    cases h
  split
  · next h =>
    rw [hlexeme, if_pos h, h]
    exact slash_standing before es
  split
  · next h' h =>
    rw [hlexeme, if_neg h', if_pos h, h]
    exact string_standing before es
  rw [hdigit]
  split
  · next h'' h' h =>
    rw [hlexeme, if_neg h'', if_neg h']
    rw [Bool.or_eq_true, Bool.and_eq_true, beq_iff_eq] at h
    split
    · exact number_standing before es
    · next hdigit =>
      rw [look_bind, if_pos (h.resolve_left hdigit)]
      exact number_standing before es
  next h''' h'' h' =>
  rw [Bool.or_eq_true, Bool.and_eq_true, beq_iff_eq, not_or] at h'
  rw [hlexeme, if_neg h''', if_neg h'', if_neg h'.1, look_bind, if_neg h'.2]
  split
  · exact word_standing before es
  · exact mark_standing before es

end Scanning

end Operations

/-! ## Scans -/

namespace TextLexer

/-- A scan with a cursor is where a scan of pieces is. -/
def Shows (t : TextLexer) (l : Lexer) : Prop :=
  ∃ before after, t = standing before after l.errors ∧ l.ahead = place (Position.start.after before) (pieces after)

theorem shows_ofSource (source : String) : (ofSource source).Shows (.ofSource source) :=
  ⟨[], source.toList, rfl, rfl⟩

theorem skipBlanks_standing (before after : List Char) (es : List LexError) :
    (standing before after es).skipBlanks =
      standing (before ++ after.takeWhile isBlank) (after.dropWhile isBlank) es := by
  rw [skipBlanks, TextCursor.skipWhile_standing]
  rfl

theorem advance_blanks (p : Position) (after : List Char) (es : List LexError) :
    Lexer.advance es (place p (pieces after)) =
      Lexer.advance es (place (p.after (after.takeWhile isBlank)) (pieces (after.dropWhile isBlank))) := by
  induction after generalizing p with
  | nil => rfl
  | cons c after ih =>
    by_cases hc : isBlank c = true
    · rw [List.takeWhile_cons_of_pos hc, List.dropWhile_cons_of_pos hc, Position.after_cons, ← ih, pieces, cut,
        if_pos hc, place]
      show Lexer.advance (es ++ []) _ = _
      rw [List.append_nil]
      rfl
    · rw [List.takeWhile_cons_of_neg hc, List.dropWhile_cons_of_neg hc, Position.after_nil]

theorem error?_of_token? {p : Placed} {t : Token} (h : p.token? = some t) : p.error? = none := by
  unfold token? at h
  unfold error?
  split at h
  · next hk => rw [hk]
  · cases h

/-- The next token of a scan with a cursor is that of the scan of pieces, and leaves less of the text. -/
theorem nextToken_standing (before after : List Char) (es : List LexError) {r : Option Token × Lexer}
    (hr : Lexer.advance es (place (Position.start.after before) (pieces after)) = r) :
    ∃ t', (standing before after es).nextToken = some (r.1, t') ∧ t'.Shows r.2 ∧
      (r.1 ≠ none → t'.cursor.rest.length < after.length) := by
  -- Each round leaves less of the text.
  induction h : after.length using Nat.strongRecOn generalizing before after es with
  | _ n ih =>
  have hlength : (after.dropWhile isBlank).length ≤ after.length := (List.dropWhile_suffix _).length_le
  have hblank := List.head?_dropWhile_not isBlank after
  rw [nextToken, skipBlanks_standing]
  rw [advance_blanks, ← Position.after_append] at hr
  generalize before ++ after.takeWhile isBlank = front at hr ⊢
  cases hrest : after.dropWhile isBlank with
  | nil =>
    rw [hrest, pieces, place, Lexer.advance] at hr
    subst hr
    exact ⟨_, rfl, ⟨front, [], rfl, by rw [pieces, place]⟩, fun hne => absurd rfl hne⟩
  | cons c cs =>
    rw [hrest] at hlength hblank hr
    have hcut : (cut c cs).2.length < after.length := Nat.lt_of_lt_of_le (length_cut_lt c cs) hlength
    have hmore : (standing front (c :: cs) es).cursor.isEof = false := rfl
    rw [hmore, if_neg Bool.false_ne_true, Scanning.lexeme_standing _ _ hblank]
    rw [pieces, place, Lexer.advance] at hr
    dsimp only [Scanning.Found]
    generalize hplaced : Placed.mk (cut c cs).1 (Position.start.after front) = placed at hr
    cases ht : placed.token? with
    | some t =>
      rw [ht] at hr
      subst hr
      rw [error?_of_token? ht, Option.toList_none, List.append_nil]
      exact ⟨_, rfl, ⟨_, _, rfl, by rw [Position.after_append]⟩, fun _ => h ▸ hcut⟩
    | none =>
      rw [ht, ← Position.after_append] at hr
      dsimp only
      rw [if_pos (by exact hcut)]
      obtain ⟨t', hnext, hshows, hless⟩ := ih _ (h ▸ hcut) _ _ _ hr rfl
      exact ⟨t', hnext, hshows, fun hne => Nat.lt_trans (hless hne) (h ▸ hcut)⟩

theorem Shows.next {t : TextLexer} {l : Lexer} (h : t.Shows l) :
    ∃ t', t.nextToken = some (l.next.1, t') ∧ t'.Shows l.next.2 ∧
      (l.next.1 ≠ none → t'.cursor.rest.length < t.cursor.rest.length) := by
  obtain ⟨before, after, rfl, hahead⟩ := h
  exact nextToken_standing before after l.errors (by rw [Lexer.next, hahead])

/-- What is left of a scan is the next token and what is left behind it. -/
theorem rest_eq (l : Lexer) : l.rest = match l.next with
    | (none, l') => ([], l')
    | (some t, l') => (t :: l'.rest.1, l'.rest.2) := by
  obtain ⟨ahead, errors⟩ := l
  rw [Lexer.next]
  induction ahead generalizing errors with
  | nil => simp [Lexer.rest, Lexer.advance]
  | cons p ps ih =>
    rw [Lexer.advance]
    cases ht : p.token? with
    | some t => simp [Lexer.rest, ht, error?_of_token? ht]
    | none =>
      dsimp only at ih ⊢
      rw [← ih]
      cases he : p.error? <;> simp [Lexer.rest, ht, he]

theorem Shows.tokens {t : TextLexer} {l : Lexer} (h : t.Shows l) :
    ∃ t', t.tokens = some (l.rest.1, t') ∧ t'.Shows l.rest.2 := by
  induction hn : t.cursor.rest.length using Nat.strongRecOn generalizing t l with
  | _ n ih =>
  obtain ⟨t', hnext, hshows, hless⟩ := h.next
  rw [TextLexer.tokens, hnext, rest_eq]
  generalize l.next = r at hshows hless
  obtain ⟨tok, l'⟩ := r
  cases tok with
  | none => exact ⟨t', rfl, hshows⟩
  | some tok =>
    have hless := hless (Option.some_ne_none tok)
    obtain ⟨t'', htokens, hshows⟩ := ih _ (hn ▸ hless) hshows rfl
    dsimp only
    rw [if_pos hless, htokens]
    exact ⟨t'', rfl, hshows⟩

/-- **Scanning with a cursor is scanning.** It has an outcome for every source: every slice ends between characters,
and every round takes something. -/
theorem scan_eq (source : String) : TextLexer.scan source = some (MicroC.scan source) := by
  obtain ⟨t, htokens, before, after, rfl, -⟩ := (shows_ofSource source).tokens
  rw [TextLexer.scan, htokens]
  simp [standing, Lexer.rest, Lexer.ofSource, MicroC.scan]

end TextLexer

end MicroC
