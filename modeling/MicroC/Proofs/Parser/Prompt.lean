import MicroC.Proofs.Parser.ExprComplete
import MicroC.Proofs.Token.Spelling

/-!
# Steps that stop in time

A step of a parser is prompt when it never goes past the first token that cannot be right. What it has read can be
completed to a text of its language, and with the token at which it fails nothing can: whatever follows that token,
the step fails. Steps one behind the other are prompt when each of them is, so this is shown one parsing function at a
time.

* `unread`: the tokens that a step leaves. A token that is read and then rejected is one of them.
* `Completable`, `Nothing`, `One`, `Then`: languages of tokens.
* `Alike`: outcomes in front of texts that part behind one token.
* `Prompt`: a step that stops in time.
* `Prompt.seq`, `Prompt.advance`, `Prompt.expect`, `Prompt.reject`: the ways in which parsing functions are made.
-/

namespace MicroC

/-- Whether a fault is found only when the token at fault is read. -/
def ParseFault.isLate : ParseFault → Bool
  | .nonAssociative | .integerOutOfRange | .invalidFloat => true
  | _ => false

namespace Parser

/-- A step of a parser. -/
abbrev Step (α : Type) : Type := Parser → Except ParseError α × Parser

variable {α β : Type}

/-! ## What is left unread -/

/-- The tokens that a step leaves. A token that is read and then rejected is one of them. -/
def unread : Except ParseError α × Parser → List Token
  | (.ok _, t) => t.ahead
  | (.error e, t) => if e.fault.isLate then e.token :: t.ahead else t.ahead

@[simp] theorem unread_ok (a : α) (t : Parser) : unread (.ok a, t) = t.ahead := rfl

/-- Goes on with the value of a step, unless it failed. -/
def Step.seq (p : Step α) (f : α → Step β) : Step β := fun s =>
  match p s with
  | (.error e, t) => (.error e, t)
  | (.ok a, t) => f a t

theorem andThen_reading {s : Parser} (r : Reading s α) (f : α → (t : Parser) → Reading t β) :
    (r.andThen fun a t _ => f a t).1 = Step.seq (fun _ => r.1) (fun a t => (f a t).1) s := by
  obtain ⟨⟨_ | _, _⟩, _⟩ := r <;> rfl

theorem andThen_progress {s : Parser} (r : Progress s α) (f : α → (t : Parser) → Reading t β) :
    (r.andThen fun a t _ => f a t).1 = Step.seq (fun _ => r.1) (fun a t => (f a t).1) s := by
  obtain ⟨⟨_ | _, _⟩, _⟩ := r <;> rfl

@[simp] theorem stop_advance (s : Parser) : s.advance.stop = s.stop := by
  unfold advance
  split
  · rfl
  · split <;> rfl

theorem endToken_of_stop {s t : Parser} (h : t.stop = s.stop) : t.endToken = s.endToken := by
  rw [endToken, h, endToken]

theorem peek_eq_headD (s : Parser) : s.peek = s.ahead.headD s.endToken := by
  rw [peek, peekAt]
  cases s.ahead <;> rfl

/-! ## Languages -/

/-- Some text of a language consists of tokens that a scan may report. -/
def Completable (K : List Token → Prop) : Prop := ∃ ts, (∀ t ∈ ts, t.Fits) ∧ K ts

/-- The empty text. -/
def Nothing (ts : List Token) : Prop := ts = []

/-- The single tokens of a kind. -/
def One (k : TokenKind) (ts : List Token) : Prop := ∃ t, ts = [t] ∧ t.kind = k

/-- Texts of one language with texts of another behind them. -/
def Then (L M : List Token → Prop) (ts : List Token) : Prop := ∃ us vs, ts = us ++ vs ∧ L us ∧ M vs

/-- The text of a kind of token, or one of its texts. -/
def sampleText : TokenKind → List Char
  | .returnKw => ['r', 'e', 't', 'u', 'r', 'n']
  | .ifKw => ['i', 'f']
  | .elseKw => ['e', 'l', 's', 'e']
  | .whileKw => ['w', 'h', 'i', 'l', 'e']
  | .forKw => ['f', 'o', 'r']
  | .identifier => ['x']
  | .intLiteral => ['0']
  | .floatLiteral => ['0', '.', '0']
  | .stringLiteral => ['"', '"']
  | k => k.mark?.getD []

/-- A token of a kind. -/
def sample (k : TokenKind) : Token := ⟨k, String.ofList (sampleText k), .point 1 1⟩

theorem spells_word {k : TokenKind} {c : Char} {cs : List Char} (hk : Piece.wordKind (c :: cs) = k)
    (hc : c.isAlpha = true) (hcs : cs.all Piece.continuesName = true) : Spells k (c :: cs) :=
  hk ▸ .word hc (List.all_eq_true.1 hcs)

theorem spells_sampleText {k : TokenKind} (hk : k ≠ .eof) : Spells k (sampleText k) := by
  cases k
  case eof => exact absurd rfl hk
  case returnKw | ifKw | elseKw | whileKw | forKw | identifier =>
    exact spells_word (by decide +kernel) (by decide) (by decide)
  case intLiteral => exact .int (List.forall_mem_singleton.2 (by decide))
  case floatLiteral =>
    have hdigit : ∀ c ∈ ['0'], c.isDigit = true := List.forall_mem_singleton.2 (by decide)
    exact (.float hdigit hdigit (by decide) : Spells .floatLiteral (['0'] ++ '.' :: ['0']))
  case stringLiteral => exact (.string nofun : Spells .stringLiteral ('"' :: [] ++ ['"']))
  all_goals exact .mark rfl

theorem fits_sample {k : TokenKind} (hk : k ≠ .eof) : (sample k).Fits where
  regular := (spells_sampleText hk).regular _
  inRange h := by
    obtain rfl : k = .intLiteral := h
    decide

theorem completable_one {k : TokenKind} (hk : k ≠ .eof) : Completable (One k) :=
  ⟨[sample k], List.forall_mem_singleton.2 (fits_sample hk), sample k, rfl, rfl⟩

section Languages

variable {L L' M : List Token → Prop}

theorem Completable.mono (h : Completable L) (hL : ∀ ts, L ts → L' ts) : Completable L' :=
  h.imp fun _ h => ⟨h.1, hL _ h.2⟩

theorem Completable.then (h : Completable L) (h' : Completable M) : Completable (Then L M) := by
  obtain ⟨ts, hts, hL⟩ := h
  obtain ⟨us, hus, hM⟩ := h'
  exact ⟨ts ++ us, List.forall_mem_append.2 ⟨hts, hus⟩, ts, us, rfl, hL, hM⟩

theorem completable_nil (h : L []) : Completable L := ⟨[], nofun, h⟩

theorem completable_nothing : Completable Nothing := completable_nil rfl

theorem nothing_then {ts : List Token} (h : Then Nothing L ts) : L ts := by
  obtain ⟨_, us, rfl, rfl, hus⟩ := h
  exact hus

theorem then_nothing {ts : List Token} (h : Then L Nothing ts) : L ts := by
  obtain ⟨us, _, rfl, hus, rfl⟩ := h
  rwa [List.append_nil]

end Languages

/-! ## Texts that part behind one token -/

/-- Outcomes in front of texts that part behind the token `c`: both steps fail, or both succeed in front of it. -/
inductive Alike (c : Token) (cs cs' : List Token) : Except ParseError α × Parser → Except ParseError α × Parser → Prop
  | ok {a a' : α} {t t' : Parser} {ts : List Token} (h : t.ahead = ts ++ c :: cs) (h' : t'.ahead = ts ++ c :: cs') :
      Alike c cs cs' (.ok a, t) (.ok a', t')
  | error {e e' : ParseError} {t t' : Parser} : Alike c cs cs' (.error e, t) (.error e', t')

theorem peek_eq_of_ahead {s s' : Parser} {ts cs cs' : List Token} {c : Token} (h : s.ahead = ts ++ c :: cs)
    (h' : s'.ahead = ts ++ c :: cs') : s'.peek = s.peek := by
  cases ts <;> exact (peek_of_ahead h').trans (peek_of_ahead h).symm

/-! ## Prompt steps -/

/-- From `s` a step reads a text of the language `K`, or it fails at a token, or at the end, where what it has read can
still be completed to such a text. It never takes a token for the end, it only looks one token ahead, and another step
from a text that parts from that of `s` behind one token goes the same way, up to and including that token. -/
structure Prompt (K : List Token → Prop) (s : Parser) (p p' : Step α) : Prop where
  stop : (p s).2.stop = s.stop
  reads : ∃ ts, s.ahead = ts ++ unread (p s) ∧ (∀ t ∈ ts, t.Fits) ∧ (∀ a, (p s).1 = .ok a → K ts) ∧
    ∀ e, (p s).1 = .error e → e.token = (unread (p s)).headD s.endToken ∧ (e.token.kind = .eof → e.atEnd = true) ∧
      ∃ us, (∀ u ∈ us, u.Fits) ∧ K (ts ++ us)
  alike : ∀ ts c cs cs' s', s.ahead = ts ++ c :: cs → s'.ahead = ts ++ c :: cs' → c :: cs <:+ unread (p s) →
    Alike c cs cs' (p s) (p' s')

namespace Prompt

variable {K L M : List Token → Prop} {s : Parser} {p p' q q' : Step α}

theorem unread_suffix (h : Prompt K s p p') : unread (p s) <:+ s.ahead := by
  obtain ⟨ts, heq, -⟩ := h.reads
  exact ⟨ts, heq.symm⟩

theorem mono (h : Prompt L s p p') (hL : ∀ ts, L ts → K ts) : Prompt K s p p' where
  stop := h.stop
  reads := by
    obtain ⟨ts, heq, hfits, hok, herror⟩ := h.reads
    refine ⟨ts, heq, hfits, fun a ha => hL ts (hok a ha), fun e he => ?_⟩
    obtain ⟨htoken, hend, us, hus, hLus⟩ := herror e he
    exact ⟨htoken, hend, us, hus, hL _ hLus⟩
  alike := h.alike

theorem congrAhead (h : Prompt K s q q') (hp : p s = q s) (hp' : ∀ ts c cs cs' s', s.ahead = ts ++ c :: cs →
    s'.ahead = ts ++ c :: cs' → c :: cs <:+ unread (q s) → p' s' = q' s') : Prompt K s p p' where
  stop := by rw [hp, h.stop]
  reads := by rw [hp]; exact h.reads
  alike ts c cs cs' s' hs hs' hsuffix := by
    rw [hp] at hsuffix ⊢
    rw [hp' ts c cs cs' s' hs hs' hsuffix]
    exact h.alike ts c cs cs' s' hs hs' hsuffix

theorem congr (h : Prompt K s q q') (hp : ∀ t, t.peek = s.peek → p t = q t)
    (hp' : ∀ t, t.peek = s.peek → p' t = q' t) : Prompt K s p p' :=
  h.congrAhead (hp s rfl) fun _ _ _ _ s' hs hs' _ => hp' s' (peek_eq_of_ahead hs hs')

theorem done (hK : K []) (hp : ∀ t, t.peek = s.peek → ∃ a u, p t = (.ok a, u) ∧ u.ahead = t.ahead ∧ u.stop = t.stop)
    (hp' : ∀ t, t.peek = s.peek → ∃ a u, p' t = (.ok a, u) ∧ u.ahead = t.ahead) : Prompt K s p p' := by
  obtain ⟨a, u, hu, hahead, hstop⟩ := hp s rfl
  refine ⟨by rw [hu, hstop], ⟨[], ?_, nofun, fun _ _ => hK, fun e he => ?_⟩, ?_⟩
  · rw [hu]
    exact hahead.symm
  · rw [hu] at he
    cases he
  · intro ts c cs cs' s' hs hs' _
    obtain ⟨a', u', hu', hahead'⟩ := hp' s' (peek_eq_of_ahead hs hs')
    rw [hu, hu']
    exact .ok (hahead.trans hs) (hahead'.trans hs')

theorem node (span span' : Span) (f f' : Site → α) :
    Prompt Nothing s (fun t => (Reading.node span f : Reading t α).1)
      (fun t => (Reading.node span' f' : Reading t α).1) :=
  .done rfl (fun _ _ => ⟨_, _, rfl, rfl, rfl⟩) (fun _ _ => ⟨_, _, rfl, rfl⟩)

theorem pure (a a' : α) :
    Prompt Nothing s (fun t => (Reading.pure a : Reading t α).1) (fun t => (Reading.pure a' : Reading t α).1) :=
  .done rfl (fun t _ => ⟨_, t, rfl, rfl, rfl⟩) (fun t _ => ⟨_, t, rfl, rfl⟩)

theorem reject {fault : ParseFault} (hK : Completable K) (hlate : fault.isLate = false)
    (hend : s.peek.kind = .eof → (ParseError.mk fault s.peek).atEnd = true)
    (hp : ∀ t, t.peek = s.peek → p t = (.error ⟨fault, t.peek⟩, t))
    (hp' : ∀ t, t.peek = s.peek → p' t = (.error ⟨fault, t.peek⟩, t)) : Prompt K s p p' := by
  have hs := hp s rfl
  have hunread : unread (p s) = s.ahead := by rw [hs, unread, hlate, if_neg Bool.false_ne_true]
  refine ⟨by rw [hs], ⟨[], by rw [hunread, List.nil_append], nofun, fun a ha => ?_, fun e he => ?_⟩, ?_⟩
  · rw [hs] at ha
    cases ha
  · rw [hunread]
    rw [hs] at he
    cases he
    exact ⟨s.peek_eq_headD, hend, hK⟩
  · intro ts c cs cs' s' hahead hahead' _
    rw [hs, hp' s' (peek_eq_of_ahead hahead hahead')]
    exact .error

/-- Reads the token ahead and then rejects it. -/
theorem rejectLate {fault : ParseFault} (hK : Completable K) (hlate : fault.isLate = true) (hk : s.peek.kind ≠ .eof)
    (hp : ∀ t, t.peek = s.peek → p t = (.error ⟨fault, t.peek⟩, t.advance))
    (hp' : ∀ t, t.peek = s.peek → p' t = (.error ⟨fault, t.peek⟩, t.advance)) : Prompt K s p p' := by
  have hs := hp s rfl
  have hunread : unread (p s) = s.ahead := by rw [hs, unread, hlate, if_pos rfl, ← ahead_of_peek hk]
  refine ⟨?_, ⟨[], by rw [hunread, List.nil_append], nofun, fun a ha => ?_, fun e he => ?_⟩, ?_⟩
  · rw [hs, stop_advance]
  · rw [hs] at ha
    cases ha
  · rw [hunread]
    rw [hs] at he
    cases he
    exact ⟨s.peek_eq_headD, fun h => absurd h hk, hK⟩
  · intro ts c cs cs' s' hahead hahead' _
    rw [hs, hp' s' (peek_eq_of_ahead hahead hahead')]
    exact .error

theorem advance (hk : s.peek.kind ≠ .eof) (hfits : s.peek.Fits) (h : Prompt M s.advance q q')
    (hp : ∀ t, t.peek = s.peek → p t = q t.advance) (hp' : ∀ t, t.peek = s.peek → p' t = q' t.advance) :
    Prompt (Then (One s.peek.kind) M) s p p' := by
  have hs := hp s rfl
  have hone : One s.peek.kind [s.peek] := ⟨_, rfl, rfl⟩
  refine ⟨by rw [hs, h.stop, stop_advance], ?_, ?_⟩
  · obtain ⟨ts, heq, hts, hok, herror⟩ := h.reads
    rw [← hs] at heq hok herror
    refine ⟨s.peek :: ts, ?_, List.forall_mem_cons.2 ⟨hfits, hts⟩, fun a ha => ?_, fun e he => ?_⟩
    · rw [ahead_of_peek hk, heq, List.cons_append]
    · exact ⟨[s.peek], ts, rfl, hone, hok a ha⟩
    · obtain ⟨htoken, hend, us, hus, hM⟩ := herror e he
      rw [endToken_of_stop s.stop_advance] at htoken
      exact ⟨htoken, hend, us, hus, [s.peek], ts ++ us, rfl, hone, hM⟩
  · intro ts c cs cs' s' hahead hahead' hsuffix
    rw [hp' s' (peek_eq_of_ahead hahead hahead'), hs]
    rw [hs] at hsuffix
    have hbehind := hsuffix.trans h.unread_suffix
    have hcons := (ahead_of_peek hk).symm.trans hahead
    cases ts with
    | nil =>
      obtain ⟨-, hcs⟩ := List.cons.inj hcons
      rw [hcs] at hbehind
      exact absurd hbehind.length_le (Nat.not_succ_le_self cs.length)
    | cons t ts =>
      obtain ⟨rfl, hadvance⟩ := List.cons.inj hcons
      exact h.alike ts c cs cs' s'.advance hadvance (ahead_advance hahead' hk) hsuffix

theorem past (hs : s.Regular) {k : TokenKind} (hc : s.check k = true) (h : Prompt M s.advance q q')
    (hk : k ≠ .eof := by decide) (hint : k ≠ .intLiteral := by decide) :
    Prompt (Then (One k) M) s (fun t => q t.advance) (fun t => q' t.advance) := by
  obtain rfl : s.peek.kind = k := eq_of_beq hc
  exact h.advance hk ⟨hs.peek hk, fun h => absurd h hint⟩ (fun _ _ => rfl) (fun _ _ => rfl)

theorem branch {b : Parser → Bool} (hb : ∀ t : Parser, t.peek = s.peek → b t = b s)
    {q q' r r' : (s : Parser) → Reading s α} (hthen : b s = true → Prompt K s (fun t => (q t).1) fun t => (q' t).1)
    (helse : b s = false → Prompt K s (fun t => (r t).1) fun t => (r' t).1) :
    Prompt K s (fun t => (if b t then q t else r t).1) (fun t => (if b t then q' t else r' t).1) := by
  cases hc : b s with
  | true =>
    refine (hthen hc).congr (fun t ht => ?_) (fun t ht => ?_) <;> rw [if_pos ((hb t ht).trans hc)]
  | false =>
    have hfalse : ∀ t : Parser, t.peek = s.peek → ¬ b t = true := fun t ht => by
      rw [hb t ht, hc]
      exact Bool.false_ne_true
    refine (helse hc).congr (fun t ht => ?_) (fun t ht => ?_) <;> rw [if_neg (hfalse t ht)]

theorem branchOn {k : TokenKind} {q q' r r' : (s : Parser) → Reading s α}
    (hthen : s.check k = true → Prompt K s (fun t => (q t).1) fun t => (q' t).1)
    (helse : s.check k = false → Prompt K s (fun t => (r t).1) fun t => (r' t).1) :
    Prompt K s (fun t => (if t.check k then q t else r t).1) (fun t => (if t.check k then q' t else r' t).1) :=
  branch (b := fun t => t.check k) (fun t ht => by rw [check, ht, check]) hthen helse

theorem expect (hs : s.Regular) (k : TokenKind) (hk : k ≠ .eof := by decide) (hint : k ≠ .intLiteral := by decide) :
    Prompt (One k) s (fun s => s.expect k) fun s => s.expect k := by
  have hpeek : ∀ t : Parser, t.peek = s.peek → t.expect k =
      if s.check k then (.ok t.peek, t.advance) else (.error ⟨.expected k, t.peek⟩, t) := fun t ht => by
    rw [Parser.expect, check, check, ht]
  by_cases hc : s.check k = true
  · obtain rfl : s.peek.kind = k := eq_of_beq hc
    have hread : ∀ t : Parser, t.peek = s.peek →
        t.expect s.peek.kind = (Reading.pure s.peek : Reading t.advance Token).1 := fun t ht => by
      rw [hpeek t ht, if_pos hc, ht]
      rfl
    exact (((pure s.peek s.peek).past hs hc hk hint).mono fun _ => then_nothing).congr hread hread
  · have hfail : ∀ t : Parser, t.peek = s.peek → t.expect k = (.error ⟨.expected k, t.peek⟩, t) := fun t ht => by
      rw [hpeek t ht, if_neg hc]
    have hearly : (ParseFault.expected k).isLate = false := rfl
    exact .reject (completable_one hk) hearly (fun h => beq_iff_eq.2 h) hfail hfail

theorem seq (hs : s.Regular) {p p' : Step α} {f g : α → Step β} (h : Prompt L s p p') (hM : Completable M)
    (hf : ∀ a a' t, p s = (.ok a, t) → t.Regular → Prompt M t (f a) (g a')) :
    Prompt (Then L M) s (p.seq f) (p'.seq g) := by
  obtain ⟨ts, heq, hts, hok, herror⟩ := h.reads
  have hstop := h.stop
  have halike := h.alike
  rcases hps : p s with ⟨e | a, t⟩
  · -- What the first step has read, a text of the second language behind it completes as well.
    have hseq : p.seq f s = (.error e, t) := by rw [Step.seq, hps]
    rw [hps] at heq hok herror hstop halike
    refine ⟨by rw [hseq]; exact hstop, ⟨ts, ?_, hts, fun b hb => ?_, fun e' he' => ?_⟩, ?_⟩
    · rw [hseq]
      exact heq
    · rw [hseq] at hb
      cases hb
    · obtain ⟨vs, hvs, hMvs⟩ := hM
      rw [hseq] at he' ⊢
      cases he'
      obtain ⟨htoken, hend, us, hus, hL⟩ := herror e rfl
      refine ⟨htoken, hend, us ++ vs, List.forall_mem_append.2 ⟨hus, hvs⟩, ts ++ us, vs, ?_, hL, hMvs⟩
      rw [List.append_assoc]
    · intro ts' c cs cs' s' hahead hahead' hsuffix
      rw [hseq] at hsuffix ⊢
      have hfirst := halike ts' c cs cs' s' hahead hahead' hsuffix
      rw [Step.seq]
      generalize p' s' = o' at hfirst
      cases hfirst
      exact .error
  · have hseq : p.seq f s = f a t := by rw [Step.seq, hps]
    rw [hps] at heq hok hstop halike
    have hregular : t.Regular := fun x hx => hs x (by rw [heq]; exact List.mem_append_right ts hx)
    have hrest := hf a a t hps hregular
    refine ⟨by rw [hseq, hrest.stop]; exact hstop, ?_, ?_⟩
    · obtain ⟨us, heq', hus, hok', herror'⟩ := hrest.reads
      rw [hseq]
      refine ⟨ts ++ us, ?_, List.forall_mem_append.2 ⟨hts, hus⟩, fun b hb => ?_, fun e he => ?_⟩
      · rw [heq, unread_ok, heq', List.append_assoc]
      · exact ⟨ts, us, rfl, hok a rfl, hok' b hb⟩
      · obtain ⟨htoken, hend, vs, hvs, hM'⟩ := herror' e he
        rw [endToken_of_stop hstop] at htoken
        exact ⟨htoken, hend, vs, hvs, ts, us ++ vs, List.append_assoc .., hok a rfl, hM'⟩
    · intro ts' c cs cs' s' hahead hahead' hsuffix
      rw [hseq] at hsuffix ⊢
      have hfirst := halike ts' c cs cs' s' hahead hahead' (hsuffix.trans hrest.unread_suffix)
      rw [Step.seq]
      generalize p' s' = o' at hfirst
      cases hfirst with
      | @ok _ a' _ t' ws hws hws' => exact (hf a a' t hps hregular).alike ws c cs cs' t' hws hws' hsuffix

section AndThen

variable {f f' : α → (t : Parser) → Reading t β}

theorem reading (hs : s.Regular) {r q : (s : Parser) → Reading s α}
    (h : Prompt L s (fun s => (r s).1) fun s => (q s).1) (hM : Completable M)
    (hf : ∀ a a' t, t.Regular → t.size ≤ s.size → Prompt M t (fun t => (f a t).1) fun t => (f' a' t).1) :
    Prompt (Then L M) s (fun s => ((r s).andThen fun a t _ => f a t).1)
      (fun s => ((q s).andThen fun a t _ => f' a t).1) := by
  have hseq := h.seq hs hM fun a a' t ht hregular => hf a a' t hregular (Reading.size_le_of_ok ht)
  exact hseq.congr (fun t _ => andThen_reading ..) (fun t _ => andThen_reading ..)

theorem progress (hs : s.Regular) {r q : (s : Parser) → Progress s α}
    (h : Prompt L s (fun s => (r s).1) fun s => (q s).1) (hM : Completable M)
    (hf : ∀ a a' t, t.Regular → t.size < s.size → Prompt M t (fun t => (f a t).1) fun t => (f' a' t).1) :
    Prompt (Then L M) s (fun s => ((r s).andThen fun a t _ => f a t).1)
      (fun s => ((q s).andThen fun a t _ => f' a t).1) := by
  have hseq := h.seq hs hM fun a a' t ht hregular => hf a a' t hregular (Progress.size_lt_of_ok ht)
  exact hseq.congr (fun t _ => andThen_progress ..) (fun t _ => andThen_progress ..)

theorem ending (hs : s.Regular) {r q : (s : Parser) → Reading s α}
    (h : Prompt L s (fun s => (r s).1) fun s => (q s).1)
    (hf : ∀ a a' t, Prompt Nothing t (fun t => (f a t).1) fun t => (f' a' t).1) :
    Prompt L s (fun s => ((r s).andThen fun a t _ => f a t).1) (fun s => ((q s).andThen fun a t _ => f' a t).1) := by
  exact (h.reading hs completable_nothing fun a a' t _ _ => hf a a' t).mono fun _ => then_nothing

theorem endingWithin (hs : s.Regular) {r q : (s : Parser) → Progress s α}
    (h : Prompt L s (fun s => (r s).1) fun s => (q s).1)
    (hf : ∀ a a' t, Prompt Nothing t (fun t => (f a t).1) fun t => (f' a' t).1) :
    Prompt L s (fun s => ((r s).reading.andThen fun a t _ => f a t).1)
      (fun s => ((q s).reading.andThen fun a t _ => f' a t).1) :=
  ending hs (r := fun s => (r s).reading) (q := fun s => (q s).reading) h hf

theorem closing {f f' : Token → (t : Parser) → Reading t β} (hs : s.Regular) (k : TokenKind)
    (hf : ∀ a a' t, Prompt Nothing t (fun t => (f a t).1) fun t => (f' a' t).1)
    (hk : k ≠ .eof := by decide) (hint : k ≠ .intLiteral := by decide) :
    Prompt (One k) s (fun s => ((Reading.expect s k).andThen fun a t _ => f a t).1)
      (fun s => ((Reading.expect s k).andThen fun a t _ => f' a t).1) :=
  ending hs (.expect hs k hk hint) hf

theorem within (hs : s.Regular) {r q : (s : Parser) → Progress s α}
    (h : Prompt L s (fun s => (r s).1) fun s => (q s).1) (hM : Completable M)
    (hf : ∀ a a' t, t.Regular → t.size ≤ s.size → Prompt M t (fun t => (f a t).1) fun t => (f' a' t).1) :
    Prompt (Then L M) s (fun s => ((r s).reading.andThen fun a t _ => f a t).1)
      (fun s => ((q s).reading.andThen fun a t _ => f' a t).1) :=
  reading hs (r := fun s => (r s).reading) (q := fun s => (q s).reading) h hM hf

theorem map (hs : s.Regular) {r q : (s : Parser) → Progress s α} {g g' : α → β}
    (h : Prompt L s (fun s => (r s).1) fun s => (q s).1) :
    Prompt L s (fun s => ((r s).map g).1) (fun s => ((q s).map g').1) :=
  (h.progress hs completable_nothing fun a a' _ _ _ => .pure (g a) (g' a')).mono fun _ => then_nothing

/-- Behind an item of a list stands a comma with the rest of the list, or nothing. -/
theorem listed (hs : s.Regular) {r : (s : Parser) → Progress s (List α)} (a a' : α)
    (hr : s.check .comma = true → Prompt L s.advance (fun s => (r s).1) fun s => (r s).1) :
    Prompt (fun us => us = [] ∨ Then (One .comma) L us) s
      (fun s => (if s.check .comma then
        Reading.since ((r s.advance).reading.andThen fun as _ _ => .pure (a :: as)) s.size_advance_le
        else .pure [a]).1)
      (fun s => (if s.check .comma then
        Reading.since ((r s.advance).reading.andThen fun as _ _ => .pure (a' :: as)) s.size_advance_le
        else .pure [a']).1) := by
  refine .branchOn (fun hc => ?_) fun _ => (pure [a] [a']).mono fun _ => .inl
  have hrest : Prompt L s.advance (fun u => ((r u).reading.andThen fun as _ _ => .pure (a :: as)).1)
      (fun u => ((r u).reading.andThen fun as _ _ => .pure (a' :: as)).1) :=
    .endingWithin hs.advance (hr hc) fun _ _ _ => .pure _ _
  exact (hrest.past hs hc).mono fun _ => .inr

theorem ident (hs : s.Regular) :
    Prompt (One .identifier) s (fun s => (Progress.ident s).1) (fun s => (Progress.ident s).1) :=
  .map hs (r := fun s => Progress.expect s .identifier) (.expect hs .identifier)

theorem opening {f f' : Token → (t : Parser) → Reading t β} (hs : s.Regular) (k : TokenKind) (hM : Completable M)
    (hf : ∀ a a' t, t.Regular → t.size < s.size → Prompt M t (fun t => (f a t).1) fun t => (f' a' t).1)
    (hk : k ≠ .eof := by decide) (hint : k ≠ .intLiteral := by decide) :
    Prompt (Then (One k) M) s (fun s => ((Progress.expect s k hk).andThen fun a t _ => f a t).1)
      (fun s => ((Progress.expect s k hk).andThen fun a t _ => f' a t).1) :=
  progress hs (r := fun s => Progress.expect s k hk) (q := fun s => Progress.expect s k hk) (.expect hs k hk hint) hM hf

theorem mark {f f' : Token → (t : Parser) → Reading t β} (hs : s.Regular) (k : TokenKind) (hM : Completable M)
    (hf : ∀ a a' t, t.Regular → t.size ≤ s.size → Prompt M t (fun t => (f a t).1) fun t => (f' a' t).1)
    (hk : k ≠ .eof := by decide) (hint : k ≠ .intLiteral := by decide) :
    Prompt (Then (One k) M) s (fun s => ((Reading.expect s k).andThen fun a t _ => f a t).1)
      (fun s => ((Reading.expect s k).andThen fun a t _ => f' a t).1) :=
  reading hs (.expect hs k hk hint) hM hf

end AndThen

/-- A step that succeeds with the token ahead in front of some text does not fail at it. -/
theorem not_suffix {r q : (s : Parser) → Progress s α} (h : Prompt K s (fun s => (r s).1) fun s => (q s).1)
    {c : Token} {cs cs' : List Token} {t u : Parser} {a : α} (hs : s.ahead = c :: cs) (ht : t.ahead = c :: cs')
    (hok : (q t).1 = (.ok a, u)) : ¬ c :: cs <:+ unread (r s).1 := by
  intro hsuffix
  have halike : Alike c cs cs' (r s).1 (q t).1 := h.alike [] c cs cs' t hs ht hsuffix
  rw [hok] at halike
  rcases hr : (r s).1 with ⟨e | b, v⟩ <;> rw [hr] at halike
  · cases halike
  · have hlt := Progress.size_lt_of_ok hr
    cases halike with
    | ok hv =>
      rw [size, size, hv, hs, List.length_append] at hlt
      omega

end Prompt

end Parser

end MicroC
