import MicroC.Token.Piece

/-!
# How tokens are spelled

What a token may look like can be said without a scanner, and so can which characters it would still take up.
The piece at the front of a text is a token exactly when the text starts with a spelling of it that the next
character does not go on with. So a token is the longest one that is there, whatever stands around it.

* `Spells`: the texts of a kind of token.
* `TokenKind.goesOn`: the characters that a token of a kind would still take up.
* **`cut_eq_token_iff`**: when the piece at the front of a text is a token.
* `Spells.not_append`: a token with a character that it does not take up is no token.
-/

namespace MicroC

open Piece

/-! ## Spellings -/

namespace TokenKind

/-- The text of an operator or a mark. -/
def mark? : TokenKind → Option (List Char)
  | .equals => some ['=']
  | .equalsEquals => some ['=', '=']
  | .bangEquals => some ['!', '=']
  | .less => some ['<']
  | .lessEquals => some ['<', '=']
  | .greater => some ['>']
  | .greaterEquals => some ['>', '=']
  | .plus => some ['+']
  | .minus => some ['-']
  | .star => some ['*']
  | .slash => some ['/']
  | .caret => some ['^']
  | .percent => some ['%']
  | .leftParen => some ['(']
  | .rightParen => some [')']
  | .leftBrace => some ['\x7b']
  | .rightBrace => some ['\x7d']
  | .leftBracket => some ['[']
  | .rightBracket => some [']']
  | .comma => some [',']
  | .semicolon => some [';']
  | _ => none

/-- Whether a token of a kind takes up one more character. -/
def goesOn : TokenKind → Char → Bool
  | .returnKw, c | .ifKw, c | .elseKw, c | .whileKw, c | .forKw, c | .identifier, c => continuesName c
  | .intLiteral, c | .floatLiteral, c => insideNumber c
  | .equals, c | .less, c | .greater, c => c == '='
  | .slash, c => c == '/'
  | _, _ => false

end TokenKind

/-- The texts of a kind of token. -/
inductive Spells : TokenKind → List Char → Prop
  /-- A keyword or a name. -/
  | word {c : Char} {cs : List Char} (hc : c.isAlpha = true) (hcs : ∀ d ∈ cs, continuesName d = true) :
      Spells (wordKind (c :: cs)) (c :: cs)
  | int {d : Char} {ds : List Char} (hds : ∀ x ∈ d :: ds, x.isDigit = true) : Spells .intLiteral (d :: ds)
  /-- Digits around a point, on one side of it at least. -/
  | float {ds es : List Char} (hds : ∀ x ∈ ds, x.isDigit = true) (hes : ∀ x ∈ es, x.isDigit = true)
      (hne : ds ≠ [] ∨ es ≠ []) : Spells .floatLiteral (ds ++ '.' :: es)
  | string {cs : List Char} (hcs : ∀ c ∈ cs, insideString c = true) : Spells .stringLiteral ('"' :: cs ++ ['"'])
  | mark {k : TokenKind} {cs : List Char} (h : k.mark? = some cs) : Spells k cs

/-- A text does not go on with a character of a class. -/
def Stops (p : Char → Bool) (rest : List Char) : Prop := ∀ c ∈ rest.head?, p c = false

namespace Stops

variable {p q : Char → Bool} {rest : List Char}

theorem nil : Stops p [] := nofun

theorem cons {c : Char} {cs : List Char} : Stops p (c :: cs) ↔ p c = false := by
  simp [Stops]

theorem of_forall (h : ∀ c, p c = false) : Stops p rest := fun c _ => h c

theorem ne_cons {c : Char} (h : Stops p rest) (hc : p c = true) (cs : List Char) : rest ≠ c :: cs := by
  rintro rfl
  rw [cons.1 h] at hc
  cases hc

theorem takeWhile (h : Stops p rest) {cs : List Char} (hcs : ∀ c ∈ cs, p c = true) :
    (cs ++ rest).takeWhile p = cs := by
  rw [List.takeWhile_append_of_pos hcs]
  cases rest with
  | nil => simp
  | cons c rest => simp [cons.1 h]

theorem dropWhile (h : Stops p rest) {cs : List Char} (hcs : ∀ c ∈ cs, p c = true) :
    (cs ++ rest).dropWhile p = rest := by
  rw [List.dropWhile_append_of_pos hcs]
  cases rest with
  | nil => rfl
  | cons c rest => simp [cons.1 h]

theorem of_dropWhile (cs : List Char) : Stops p (cs.dropWhile p) := by
  intro c hc
  have := List.head?_dropWhile_not p cs
  rw [hc] at this
  simpa using this

end Stops

/-! ## The piece at the front -/

namespace Piece

theorem goesOn_wordKind (name : List Char) : (wordKind name).goesOn = continuesName := by
  unfold wordKind TokenKind.keyword?
  split <;> rfl

variable {k : TokenKind} {c : Char} {cs text rest : List Char}

section Sound

theorem spells_of_slash (h : slash cs = (⟨.token k, text⟩, rest)) : Spells k text ∧ Stops k.goesOn rest := by
  unfold slash at h
  split at h
  · cases h
  · next hnot =>
    cases h
    refine ⟨.mark rfl, fun c hc => ?_⟩
    obtain ⟨cs', rfl⟩ := List.head?_eq_some_iff.1 hc
    rw [TokenKind.goesOn, beq_eq_false_iff_ne]
    rintro rfl
    exact hnot cs' rfl

theorem spells_of_string (h : string cs = (⟨.token k, text⟩, rest)) : Spells k text ∧ Stops k.goesOn rest := by
  unfold string at h
  split at h
  · cases h
    exact ⟨.string fun c hc => List.all_eq_true.1 List.all_takeWhile c hc, .of_forall fun _ => rfl⟩
  · cases h

theorem isDigit_of_mem_takeWhile {d : Char} (h : d ∈ cs.takeWhile Char.isDigit) : d.isDigit = true :=
  List.all_eq_true.1 (List.all_takeWhile (p := Char.isDigit)) d h

theorem stops_insideNumber (h : Stops Char.isDigit rest) (hpoint : ∀ ds, rest = '.' :: ds → False) :
    Stops insideNumber rest := by
  intro c hc
  obtain ⟨cs', rfl⟩ := List.head?_eq_some_iff.1 hc
  rw [insideNumber, Stops.cons.1 h, Bool.or_false, beq_eq_false_iff_ne]
  rintro rfl
  exact hpoint cs' rfl

theorem spells_of_number (hc : (c.isDigit || (c == '.' && startsWithDigit cs)) = true)
    (h : number (c :: cs) = (⟨.token k, text⟩, rest)) : Spells k text ∧ Stops k.goesOn rest := by
  rw [Bool.or_eq_true, Bool.and_eq_true, beq_iff_eq] at hc
  unfold number at h
  split at h
  · next ds hds =>
    split at h
    · cases h
    · next hpoint =>
      cases h
      have hne : (c :: cs).takeWhile Char.isDigit ≠ [] ∨ ds.takeWhile Char.isDigit ≠ [] := by
        rcases hc with hc | ⟨rfl, hcs⟩
        · exact .inl (by rw [List.takeWhile_cons_of_pos hc]; exact List.cons_ne_nil _ _)
        · -- The digits behind a point at the front are those of the fraction.
          rw [List.dropWhile_cons_of_neg (by decide)] at hds
          obtain ⟨-, rfl⟩ := List.cons.inj hds
          cases cs with
          | nil => cases hcs
          | cons d ds' => 
            have hd : d.isDigit = true := hcs
            exact .inr (by rw [List.takeWhile_cons_of_pos hd]; exact List.cons_ne_nil _ _)
      exact ⟨.float (fun _ => isDigit_of_mem_takeWhile) (fun _ => isDigit_of_mem_takeWhile) hne,
        stops_insideNumber (.of_dropWhile ds) hpoint⟩
  · next hpoint =>
    cases h
    rcases hc with hc | ⟨rfl, -⟩
    · refine ⟨?_, stops_insideNumber (.of_dropWhile (c :: cs)) hpoint⟩
      have hall : ∀ x ∈ (c :: cs).takeWhile Char.isDigit, x.isDigit = true := fun _ => isDigit_of_mem_takeWhile
      rw [List.takeWhile_cons_of_pos hc] at hall ⊢
      exact .int hall
    · exact absurd (List.dropWhile_cons_of_neg (by decide)) (hpoint cs)

theorem spells_of_word (hc : c.isAlpha = true) (h : word (c :: cs) = (⟨.token k, text⟩, rest)) :
    Spells k text ∧ Stops k.goesOn rest := by
  have hname : continuesName c = true := by simp [continuesName, Char.isAlphanum, hc]
  cases h
  rw [goesOn_wordKind, List.takeWhile_cons_of_pos hname]
  exact ⟨.word hc fun d hd => List.all_eq_true.1 List.all_takeWhile d hd, .of_dropWhile _⟩

/-- An operator that a longer one starts with is only taken where that one is not there. -/
theorem spells_of_mark (h : mark c cs = (⟨.token k, text⟩, rest)) : Spells k text ∧ Stops k.goesOn rest := by
  unfold mark at h
  split at h
  any_goals
    cases h
    exact ⟨.mark rfl, .of_forall fun _ => rfl⟩
  next hequals hbang hless hgreater =>
  have hstops : ∀ k' : TokenKind, k'.goesOn = (· == '=') → (∀ cs', cs = '=' :: cs' → False) → Stops k'.goesOn cs := by
    intro k' hk' hnot d hd
    obtain ⟨cs', rfl⟩ := List.head?_eq_some_iff.1 hd
    rw [hk', beq_eq_false_iff_ne]
    rintro rfl
    exact hnot cs' rfl
  obtain ⟨hk, rfl⟩ := Prod.mk.inj h
  obtain ⟨hsingle, rfl⟩ := Piece.mk.inj hk
  unfold mark.single at hsingle
  split at hsingle
  · cases hsingle
    exact ⟨.mark rfl, hstops _ rfl fun cs' hcs => hequals cs' rfl hcs⟩
  · cases hsingle
    exact ⟨.mark rfl, hstops _ rfl fun cs' hcs => hless cs' rfl hcs⟩
  · cases hsingle
    exact ⟨.mark rfl, hstops _ rfl fun cs' hcs => hgreater cs' rfl hcs⟩
  all_goals cases hsingle <;> exact ⟨.mark rfl, .of_forall fun _ => rfl⟩

theorem spells_of_cut (h : cut c cs = (⟨.token k, text⟩, rest)) : Spells k text ∧ Stops k.goesOn rest := by
  unfold cut at h
  split at h
  · cases h
  split at h
  · exact spells_of_slash h
  split at h
  · exact spells_of_string h
  split at h
  · next hc => exact spells_of_number hc h
  split at h
  · next hc => exact spells_of_word hc h
  · exact spells_of_mark h

end Sound

section Complete

theorem isBlank_of_isAlphanum (h : c.isAlphanum = true) : isBlank c = false := by
  refine Bool.eq_false_iff.2 fun hblank => ?_
  simp only [isBlank, Bool.or_eq_true, beq_iff_eq] at hblank
  rcases hblank with ((rfl | rfl) | rfl) | rfl <;> exact absurd h (by decide)

theorem ne_of_isAlphanum {d : Char} (h : c.isAlphanum = true) (hd : d.isAlphanum = false) : c ≠ d := by
  rintro rfl
  rw [hd] at h
  cases h

theorem cut_eq_number (hc : (c.isDigit || (c == '.' && startsWithDigit cs)) = true) :
    cut c cs = number (c :: cs) := by
  have hc' := hc
  rw [Bool.or_eq_true, Bool.and_eq_true, beq_iff_eq] at hc'
  have hplain : isBlank c = false ∧ c ≠ '/' ∧ c ≠ '"' := by
    rcases hc' with hdigit | ⟨rfl, -⟩
    · have halnum : c.isAlphanum = true := by rw [Char.isAlphanum, hdigit, Bool.or_true]
      exact ⟨isBlank_of_isAlphanum halnum, ne_of_isAlphanum halnum (by decide), ne_of_isAlphanum halnum (by decide)⟩
    · decide
  rw [cut, hplain.1, if_neg Bool.false_ne_true, if_neg hplain.2.1, if_neg hplain.2.2, if_pos hc]

theorem cut_eq_word (hc : c.isAlpha = true) : cut c cs = word (c :: cs) := by
  have halnum : c.isAlphanum = true := by rw [Char.isAlphanum, hc, Bool.true_or]
  have hdigit : c.isDigit = false := by
    delta Char.isAlpha Char.isUpper Char.isLower at hc
    delta Char.isDigit
    grind
  have hpoint : (c == '.') = false := beq_eq_false_iff_ne.2 (ne_of_isAlphanum halnum (by decide))
  rw [cut, isBlank_of_isAlphanum halnum, if_neg Bool.false_ne_true, if_neg (ne_of_isAlphanum halnum (by decide)),
    if_neg (ne_of_isAlphanum halnum (by decide)), hdigit, hpoint, if_neg (by simp), if_pos hc]

theorem number_of_int {d : Char} {ds : List Char} (hds : ∀ x ∈ d :: ds, x.isDigit = true)
    (hrest : Stops insideNumber rest) : number (d :: ds ++ rest) = (⟨.token .intLiteral, d :: ds⟩, rest) := by
  have hstop : Stops Char.isDigit rest := fun c hc => (Bool.or_eq_false_iff.1 (hrest c hc)).2
  unfold number
  rw [hstop.dropWhile hds, hstop.takeWhile hds]
  split
  · next ds' => exact absurd (Stops.cons.1 hrest) (by decide)
  · rfl

theorem number_of_float {ds es : List Char} (hds : ∀ x ∈ ds, x.isDigit = true) (hes : ∀ x ∈ es, x.isDigit = true)
    (hrest : Stops insideNumber rest) :
    number (ds ++ '.' :: es ++ rest) = (⟨.token .floatLiteral, ds ++ '.' :: es⟩, rest) := by
  have hstop : Stops Char.isDigit rest := fun c hc => (Bool.or_eq_false_iff.1 (hrest c hc)).2
  have hpoint : Stops Char.isDigit ('.' :: es ++ rest) := Stops.cons.2 (by decide)
  unfold number
  rw [List.append_assoc, hpoint.dropWhile hds, hpoint.takeWhile hds]
  simp only [List.cons_append]
  rw [hstop.dropWhile hes, hstop.takeWhile hes]
  split
  · next ds' => exact absurd (Stops.cons.1 hrest) (by decide)
  · rfl

theorem cut_of_mark (h : k.mark? = some text) (hrest : Stops k.goesOn rest) (heq : c :: cs = text ++ rest) :
    cut c cs = (⟨.token k, text⟩, rest) := by
  cases k <;> cases h <;> obtain ⟨rfl, rfl⟩ := List.cons.inj (heq.trans List.cons_append)
  -- A longer operator and a comment start like these, so here the next character matters.
  case equals.refl | less.refl | greater.refl =>
    refine (rfl : cut _ cs = mark _ cs).trans ?_
    unfold mark
    split
    any_goals exact absurd rfl (hrest.ne_cons (by decide) _)
    rfl
  case slash.refl =>
    refine (rfl : cut _ cs = slash cs).trans ?_
    unfold slash
    split
    · exact absurd rfl (hrest.ne_cons (by decide) _)
    · rfl
  all_goals rfl

theorem cut_of_spells (h : Spells k text) (hrest : Stops k.goesOn rest) (heq : c :: cs = text ++ rest) :
    cut c cs = (⟨.token k, text⟩, rest) := by
  cases h with
  | @word d ds hd hds =>
    obtain ⟨rfl, rfl⟩ := List.cons.inj (heq.trans List.cons_append)
    have hname : continuesName c = true := by simp [continuesName, Char.isAlphanum, hd]
    have hall : ∀ x ∈ c :: ds, continuesName x = true := List.forall_mem_cons.2 ⟨hname, hds⟩
    rw [goesOn_wordKind] at hrest
    rw [cut_eq_word hd, word, ← List.cons_append, hrest.takeWhile hall, hrest.dropWhile hall]
  | @int d ds hds =>
    obtain ⟨rfl, rfl⟩ := List.cons.inj (heq.trans List.cons_append)
    rw [cut_eq_number (by rw [hds c List.mem_cons_self, Bool.true_or])]
    exact number_of_int hds hrest
  | @float ds es hds hes hne =>
    rw [cut_eq_number, heq]
    · exact number_of_float hds hes hrest
    · cases ds with
      | cons d ds =>
        obtain ⟨rfl, -⟩ := List.cons.inj heq
        rw [hds c List.mem_cons_self, Bool.true_or]
      | nil =>
        obtain ⟨rfl, rfl⟩ := List.cons.inj heq
        obtain ⟨e, es, rfl⟩ := List.exists_cons_of_ne_nil (hne.resolve_left (· rfl))
        exact hes e List.mem_cons_self
  | @string ds hds =>
    have hquote : Stops insideString ('"' :: rest) := Stops.cons.2 (by decide)
    rw [List.append_assoc, List.cons_append, List.singleton_append] at heq
    obtain ⟨rfl, rfl⟩ := List.cons.inj heq
    show string _ = _
    rw [string, hquote.dropWhile hds, hquote.takeWhile hds]
    rfl
  | mark hmark => exact cut_of_mark hmark hrest heq

end Complete

/-- **The piece at the front of a text is a token** exactly when the text starts with a spelling of the token and
the next character does not go on with it. -/
theorem cut_eq_token_iff : cut c cs = (⟨.token k, text⟩, rest) ↔
    c :: cs = text ++ rest ∧ Spells k text ∧ Stops k.goesOn rest := by
  constructor
  · intro h
    have happend := cut_append c cs
    rw [h] at happend
    exact ⟨happend.symm, spells_of_cut h⟩
  · rintro ⟨heq, hspells, hrest⟩
    exact cut_of_spells hspells hrest heq

end Piece

theorem Spells.ne_nil {k : TokenKind} {cs : List Char} (h : Spells k cs) : cs ≠ [] := by
  cases h with
  | word | int | string => exact List.cons_ne_nil _ _
  | float => exact List.append_ne_nil_of_right_ne_nil _ (List.cons_ne_nil _ _)
  | mark hmark =>
    rintro rfl
    cases k <;> cases hmark

/-- **A text spells one kind of token at most.** -/
theorem Spells.unique {k k' : TokenKind} {cs : List Char} (h : Spells k cs) (h' : Spells k' cs) : k = k' := by
  obtain ⟨c, ds, rfl⟩ := List.exists_cons_of_ne_nil h.ne_nil
  have hcut := cut_of_spells h .nil (List.append_nil _).symm
  cases hcut.symm.trans (cut_of_spells h' .nil (List.append_nil _).symm)
  rfl

/-- **A token is the longest one there is**: with a character that it does not take up, its text is the text of no
token. -/
theorem Spells.not_append {k k' : TokenKind} {cs : List Char} {e : Char} (h : Spells k cs) (he : k.goesOn e = false) :
    ¬ Spells k' (cs ++ [e]) := by
  intro h'
  obtain ⟨c, ds, rfl⟩ := List.exists_cons_of_ne_nil h.ne_nil
  have hshort : cut c (ds ++ [e]) = _ := cut_of_spells h (Stops.cons.2 he) rfl
  have hlong : cut c (ds ++ [e]) = _ := cut_of_spells h' .nil (List.append_nil _).symm
  have hrest : [e] = [] := congrArg Prod.snd (hshort.symm.trans hlong)
  cases hrest

end MicroC
