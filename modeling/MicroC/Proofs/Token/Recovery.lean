import MicroC.Proofs.Token.Relexing

/-!
# Faults do not disturb tokens

A scan goes on behind a fault as if blanks stood in its place. So the tokens of a source can be told without its
faults: with a space for every character that the span of a fault covers, the source has the same tokens in the
same places, and no faults.

* `eraseFrom`, `erase`: a text with spaces where spans cover it.
* `Ahead`: the spans that are still to come are those of the faults ahead.
* `eraseFrom_clear`, `eraseFrom_covered`: a text without spans, and a text that one span covers.
* `Tiled.erased`: tokens cover the text from which the faults are erased.
* **`scan_erased`**: a source without its faults is scanned to the same tokens.
-/

namespace MicroC

open Piece

/-! ## Erasing -/

/-- The length of the span that starts at a position, or zero. -/
def lengthAt (spans : List Span) (p : Position) : Nat := ((spans.find? (·.start == p)).map Span.len).getD 0

/-- A text from position `p` on, with spaces where spans cover it. The first `left` bytes are covered by a span that
starts further in front. -/
def eraseFrom (spans : List Span) (p : Position) (left : Nat) : List Char → List Char
  | [] => []
  | c :: cs =>
    let covered := max left (lengthAt spans p)
    (if 0 < covered then ' ' else c) :: eraseFrom spans (p.advance c) (covered - c.utf8Size) cs

/-- A source with spaces where spans cover it. -/
def erase (spans : List Span) (source : String) : String :=
  String.ofList (eraseFrom spans .start 0 source.toList)

/-- Either no span starts at a position, or one that does gives its length. -/
theorem lengthAt_cases (spans : List Span) (p : Position) :
    lengthAt spans p = 0 ∧ (∀ s ∈ spans, s.start ≠ p) ∨ ∃ s ∈ spans, s.start = p ∧ lengthAt spans p = s.len := by
  unfold lengthAt
  cases hfind : spans.find? (·.start == p) with
  | none => exact .inl ⟨rfl, fun s hs hstart => List.find?_eq_none.1 hfind s hs (beq_iff_eq.2 hstart)⟩
  | some s =>
    have hstart : s.start = p := by simpa using List.find?_some hfind
    exact .inr ⟨s, List.mem_of_find?_eq_some hfind, hstart, rfl⟩

section Erasing

variable {spans : List Span} {p : Position} {text rest : List Char}

theorem eraseFrom_clear (h : ∀ t c u, text = t ++ c :: u → lengthAt spans (p.after t) = 0) :
    eraseFrom spans p 0 (text ++ rest) = text ++ eraseFrom spans (p.after text) 0 rest := by
  induction text generalizing p with
  | nil => rfl
  | cons c text ih =>
    have hhere : lengthAt spans p = 0 := h [] c text rfl
    have hrest := @ih (p.advance c) fun t d u heq => h (c :: t) d u (congrArg (c :: ·) heq)
    rw [List.cons_append, eraseFrom, hhere, Nat.max_self, if_neg (Nat.lt_irrefl 0), Nat.zero_sub, hrest]
    rfl

/-- What is covered up to the end of a span becomes spaces. -/
theorem eraseFrom_covered
    (h : ∀ t c u, text = t ++ c :: u → lengthAt spans (p.after t) ≤ Placed.byteLength (c :: u)) :
    eraseFrom spans p (Placed.byteLength text) (text ++ rest) =
      List.replicate text.length ' ' ++ eraseFrom spans (p.after text) 0 rest := by
  induction text generalizing p with
  | nil => rfl
  | cons c text ih =>
    have hhere : lengthAt spans p ≤ Placed.byteLength (c :: text) := h [] c text rfl
    have hrest := @ih (p.advance c) fun t d u heq => h (c :: t) d u (congrArg (c :: ·) heq)
    have hpos : 0 < Placed.byteLength (c :: text) := Nat.lt_of_lt_of_le c.utf8Size_pos (Nat.le_add_right _ _)
    rw [List.cons_append, eraseFrom, Nat.max_eq_left hhere, if_pos hpos, Placed.byteLength, Nat.add_sub_cancel_left,
      hrest]
    rfl

theorem eraseFrom_start {c : Char} : eraseFrom spans p 0 (c :: text) = eraseFrom spans p (lengthAt spans p) (c :: text) := by
  rw [eraseFrom, eraseFrom, Nat.max_self, Nat.zero_max]

theorem Position.after_replicate (hline : '\n' ∉ text) : p.after (List.replicate text.length ' ') = p.after text := by
  induction text generalizing p with
  | nil => rfl
  | cons c text ih =>
    obtain ⟨hc, htext⟩ := not_or.1 (mt List.mem_cons.2 hline)
    have hadvance : p.advance ' ' = p.advance c := by rw [advance, advance, if_neg (by decide), if_neg (Ne.symm hc)]
    rw [List.length_cons, List.replicate_succ, after_cons, after_cons, hadvance, ih htext]

end Erasing

/-! ## Spans ahead -/

theorem Span.Covers.start {s : Span} {before text : List Char} (h : s.Covers before text) :
    s.start = Position.start.after before := by
  rw [Position.after_start, Span.start, h.line, h.col]

/-- The spans that are not behind us are those of the faults ahead. -/
structure Ahead (spans : List Span) (before : List Char) (es : List LexError) : Prop where
  mem : ∀ e ∈ es, e.span ∈ spans
  place : ∀ s ∈ spans, (∃ e ∈ es, e.span = s) ∨ ∃ b c t, before = b ++ c :: t ∧ s.start = Position.start.after b

section Ahead

variable {spans : List Span} {before text cs t u : List Char} {c : Char} {ts : List Token} {es : List LexError}

theorem start_ne_of_behind {b d : List Char} (hbefore : before = b ++ c :: d) :
    Position.start.after b ≠ Position.start.after (before ++ t) := by
  intro h
  rw [hbefore, List.append_assoc, List.cons_append] at h
  exact List.cons_ne_nil _ _ (eq_nil_of_after h)

theorem start_ne_of_ahead (h : Tiled (before ++ text) cs ts es) {e : LexError} (he : e ∈ es)
    (htext : text = t ++ c :: u) : e.span.start ≠ Position.start.after (before ++ t) := by
  obtain ⟨skipped, text', rest, -, hcovers, -⟩ := h.fault_at he
  rw [hcovers.start, htext]
  intro heq
  have hsplit : before ++ (t ++ c :: u) ++ skipped = before ++ t ++ c :: (u ++ skipped) := by simp
  rw [hsplit] at heq
  exact List.cons_ne_nil _ _ (eq_nil_of_after heq.symm)

namespace Ahead

theorem behind (h : Ahead spans before es) (text : List Char) : Ahead spans (before ++ text) es := by
  refine ⟨h.mem, fun s hs => (h.place s hs).imp id ?_⟩
  rintro ⟨b, c, t, rfl, hstart⟩
  exact ⟨b, c, t ++ text, by simp, hstart⟩

theorem lengthAt_eq_zero (h : Ahead spans before es) (htiled : Tiled (before ++ text) cs ts es)
    (htext : text = t ++ c :: u) : lengthAt spans ((Position.start.after before).after t) = 0 := by
  rw [← Position.after_append]
  obtain ⟨hzero, -⟩ | ⟨s, hs, hstart, -⟩ := lengthAt_cases spans (Position.start.after (before ++ t))
  · exact hzero
  · obtain ⟨e, he, rfl⟩ | ⟨b, d, w, hbefore, hb⟩ := h.place s hs
    · exact absurd hstart (start_ne_of_ahead htiled he htext)
    · exact absurd (hb.symm.trans hstart) (start_ne_of_behind hbefore)

theorem erase_kept (h : Ahead spans before es) (htiled : Tiled (before ++ text) cs ts es) :
    eraseFrom spans (Position.start.after before) 0 (text ++ cs) =
      text ++ eraseFrom spans (Position.start.after (before ++ text)) 0 cs := by
  rw [Position.after_append]
  exact eraseFrom_clear fun t c u htext => h.lengthAt_eq_zero htiled htext

section Fault

variable {e : LexError}

theorem next (h : Ahead spans before (e :: es)) (hspan : e.span.Covers before text) (hne : text ≠ []) :
    Ahead spans (before ++ text) es := by
  refine ⟨fun e' he' => h.mem e' (List.mem_cons_of_mem _ he'), fun s hs => ?_⟩
  obtain ⟨e', he', rfl⟩ | hplace := (h.behind text).place s hs
  · rcases List.mem_cons.1 he' with rfl | he'
    · obtain ⟨c, cs, rfl⟩ := List.exists_cons_of_ne_nil hne
      exact .inr ⟨before, c, cs, rfl, hspan.start⟩
    · exact .inl ⟨e', he', rfl⟩
  · exact .inr hplace

theorem eq_of_start (h : Ahead spans before (e :: es)) (htiled : Tiled (before ++ text) cs ts es)
    (htext : text = t ++ c :: u) {s : Span} (hs : s ∈ spans) (hstart : s.start = Position.start.after (before ++ t)) :
    s = e.span := by
  obtain ⟨e', he', rfl⟩ | ⟨b, d, w, hbefore, hb⟩ := h.place s hs
  · rcases List.mem_cons.1 he' with rfl | he'
    · rfl
    · exact absurd hstart (start_ne_of_ahead htiled he' htext)
  · exact absurd (hb.symm.trans hstart) (start_ne_of_behind hbefore)

theorem lengthAt_fault (h : Ahead spans before (e :: es)) (htiled : Tiled (before ++ text) cs ts es)
    (hspan : e.span.Covers before text) (hne : text ≠ []) :
    lengthAt spans (Position.start.after before) = Placed.byteLength text := by
  obtain ⟨c, u, htext⟩ := List.exists_cons_of_ne_nil hne
  obtain ⟨-, hnone⟩ | ⟨s, hs, hstart, hlen⟩ := lengthAt_cases spans (Position.start.after before)
  · exact absurd hspan.start (hnone _ (h.mem e List.mem_cons_self))
  · rw [hlen, h.eq_of_start (t := []) htiled htext hs (by rwa [List.append_nil]), hspan.len, Placed.byteLength_eq]

/-- The text of a fault is covered to its end and no further. -/
theorem lengthAt_le (h : Ahead spans before (e :: es)) (htiled : Tiled (before ++ text) cs ts es)
    (hspan : e.span.Covers before text) (htext : text = t ++ c :: u) :
    lengthAt spans ((Position.start.after before).after t) ≤ Placed.byteLength (c :: u) := by
  rw [← Position.after_append]
  obtain ⟨hzero, -⟩ | ⟨s, hs, hstart, hlen⟩ := lengthAt_cases spans (Position.start.after (before ++ t))
  · rw [hzero]
    exact Nat.zero_le _
  · obtain rfl := h.eq_of_start htiled htext hs hstart
    obtain rfl : t = [] := eq_nil_of_after (hspan.start.symm.trans hstart)
    exact Nat.le_of_eq (by rw [hlen, hspan.len, Placed.byteLength_eq, htext, List.nil_append])

theorem erase_fault (h : Ahead spans before (e :: es)) (htiled : Tiled (before ++ text) cs ts es)
    (hspan : e.span.Covers before text) (hne : text ≠ []) :
    eraseFrom spans (Position.start.after before) 0 (text ++ cs) =
      List.replicate text.length ' ' ++ eraseFrom spans (Position.start.after (before ++ text)) 0 cs := by
  have hlength := h.lengthAt_fault htiled hspan hne
  have hcovered := @eraseFrom_covered spans (Position.start.after before) text cs
    fun t c u htext => h.lengthAt_le htiled hspan htext
  obtain ⟨c, u, rfl⟩ := List.exists_cons_of_ne_nil hne
  rw [List.cons_append, eraseFrom_start, hlength, ← List.cons_append, hcovered, Position.after_append]

end Fault

end Ahead

end Ahead

/-! ## Tokens without faults -/

/-- A text with the same front as another, or with a space in place of a character that ends no line. -/
def SameFront (cs cs' : List Char) : Prop :=
  cs'.head? = cs.head? ∨ cs'.head? = some ' ' ∧ ∃ c ∈ cs.head?, c ≠ '\n'

theorem SameFront.stops {p : Char → Bool} {cs cs' : List Char} (h : SameFront cs cs') (hp : p ' ' = false)
    (hcs : Stops p cs) : Stops p cs' := by
  intro c hc
  rcases h with h | ⟨h, -⟩
  · exact hcs c (h ▸ hc)
  · rw [h] at hc
    cases hc
    exact hp

theorem SameFront.stops_line {cs cs' : List Char} (h : SameFront cs cs') (hcs : Stops (· != '\n') cs) :
    Stops (· != '\n') cs' := by
  rcases h with h | ⟨-, c, hc, hne⟩
  · exact fun c hc => hcs c (h ▸ hc)
  · exact absurd (hcs c hc) (by simpa using hne)

theorem Span.Covers.of_after {s : Span} {before before' text : List Char} (h : s.Covers before text)
    (heq : Position.start.after before' = Position.start.after before) : s.Covers before' text := by
  rw [Position.after_start, Position.after_start, Position.mk.injEq] at heq
  exact ⟨h.line.trans heq.1.symm, h.col.trans heq.2.symm, h.len⟩

theorem spacing_replicate (n : Nat) : Spacing (List.replicate n ' ') := by
  induction n with
  | zero => exact .nil
  | succ n ih => exact .blank (by decide) ih

/-- **The tokens of a text cover it when its faults are erased.** -/
theorem Tiled.erased {spans : List Span} {before cs : List Char} {ts : List Token} {es : List LexError}
    (h : Tiled before cs ts es) (hspans : Ahead spans before es) {before' : List Char}
    (heq : Position.start.after before' = Position.start.after before) :
    Tiled before' (eraseFrom spans (Position.start.after before) 0 cs) ts [] ∧
      SameFront cs (eraseFrom spans (Position.start.after before) 0 cs) := by
  induction h generalizing before' with
  | done => exact ⟨.done, .inl rfl⟩
  | @blank before cs c ts es hc h ih =>
    have hkept := hspans.erase_kept h
    rw [List.singleton_append] at hkept
    have hrest := @ih (hspans.behind [c]) (before' ++ [c]) (by rw [Position.after_append, Position.after_append, heq])
    rw [hkept]
    exact ⟨.blank hc hrest.1, .inl rfl⟩
  | @comment before body cs ts es hbody hcs h ih =>
    have hrest := @ih (hspans.behind _) (before' ++ '/' :: '/' :: body)
      (by rw [Position.after_append, Position.after_append, heq])
    rw [hspans.erase_kept h]
    exact ⟨.comment hbody (hrest.2.stops_line hcs) hrest.1, .inl rfl⟩
  | @token before cs t ts es hspan hline hspells hcs h ih =>
    have hrest := @ih (hspans.behind _) (before' ++ t.lexeme.toList)
      (by rw [Position.after_append, Position.after_append, heq])
    have hstops := hrest.2.stops (t.kind.goesOn_blank (by decide)) hcs
    rw [hspans.erase_kept h]
    refine ⟨.token (hspan.of_after heq) hline hspells hstops hrest.1, .inl ?_⟩
    obtain ⟨c, u, hlexeme⟩ := List.exists_cons_of_ne_nil hspells.ne_nil
    rw [hlexeme]
    rfl
  | @fault before text cs e ts es hspan hne hline h ih =>
    have hrest := @ih (hspans.next hspan hne) (before' ++ List.replicate text.length ' ')
      (by rw [Position.after_append, Position.after_append, heq, Position.after_replicate hline])
    rw [hspans.erase_fault h hspan hne]
    refine ⟨.spacing (spacing_replicate _) hrest.1, .inr ?_⟩
    obtain ⟨c, u, rfl⟩ := List.exists_cons_of_ne_nil hne
    exact ⟨rfl, c, rfl, fun hc => hline (hc ▸ List.mem_cons_self)⟩

/-- **Faults do not disturb tokens.** With a space for every character of a faulty text, a source is scanned to the
same tokens in the same places, and has no faults. It has no more bytes than before, so its places fit in 32 bits when
those of the source do. -/
theorem scan_erased (source : String) :
    scan (erase ((scan source).errors.map LexError.span) source) = ⟨(scan source).tokens, []⟩ := by
  have hspans : Ahead ((scan source).errors.map LexError.span) [] (scan source).errors :=
    ⟨fun e he => List.mem_map_of_mem he, fun s hs => .inl (List.mem_map.1 hs)⟩
  obtain ⟨htiled, -⟩ := (tiled_scan source).erased hspans rfl
  refine scan_of_tiled ?_
  rw [erase, String.toList_ofList]
  exact htiled

example : erase ((scan "a!1..2b@\"é\n\"").errors.map LexError.span) "a!1..2b@\"é\n\"" = "a     b   \n " := by
  decide +kernel

end MicroC
