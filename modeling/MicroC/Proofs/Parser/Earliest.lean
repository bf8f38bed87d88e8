import MicroC.Proofs.Parser.Language
import MicroC.Proofs.Parser.StmtPrompt

/-!
# Errors at the earliest token

When tokens are no program, the parser names the first of them that no program has at this place: what is in front of
it can be completed to a program, and with it nothing can. Where all of the tokens can be completed, it names their
end.

* `program_prompt`: a program is read, or rejected at the first token that cannot be part of it.
* `Accepted`: token lists that are programs.
* `Accepted.inRange`: their integers are words.
* **`parse_error_earliest`**: where a parser fails.
-/

namespace MicroC

theorem ParseError.found_eq (e : ParseError) (h : e.token.kind ≠ .eof) : e.found = e.token.lexeme := by
  have hend : e.atEnd = false := by
    unfold ParseError.atEnd
    split <;> first | rfl | exact beq_eq_false_iff_ne.2 h
  rw [ParseError.found, hend]
  rfl

namespace Parser

open Grammar

/-! ## Functions -/

/-- What makes parameters behind the first of them. -/
def BehindParam (us : List Token) : Prop :=
  ∀ k n : Token, k.kind = .identifier → n.kind = .identifier → ∃ ps, Params (k :: n :: us) ps

def IsParams (ts : List Token) : Prop := ts = [] ∨ ∃ ps, Params ts ps

/-- The parts of a function. -/
def IsFunction : List Token → Prop :=
  Then (One .identifier) (Then (One .identifier) (Then (One .leftParen) (Then IsParams (Then (One .rightParen) IsBlock))))

def IsRoutines (ts : List Token) : Prop := ∃ rs, Routines false ts rs

theorem behindParam_nil : BehindParam [] := fun _ _ hk hn => ⟨_, .last hk hn⟩

theorem isRoutines_cons {ts : List Token} (h : Then IsFunction IsRoutines ts) : IsRoutines ts := by
  obtain ⟨_, us, rfl, ⟨_, _, rfl, ⟨k, rfl, hk⟩, _, _, rfl, ⟨n, rfl, hn⟩, _, _, rfl, ⟨l, rfl, hl⟩, ps, _, rfl, hps,
    _, _, rfl, ⟨r, rfl, hr⟩, _, _, rfl, ⟨b, rfl, hb⟩, vs, _, rfl, ⟨xs, hxs⟩, e, rfl, he⟩, rs, hrs⟩ := h
  obtain ⟨params, hparams⟩ : ∃ params, ps = [] ∧ params = [] ∨ Params ps params := by
    rcases hps with rfl | ⟨params, h⟩
    · exact ⟨[], .inl ⟨rfl, rfl⟩⟩
    · exact ⟨params, .inr h⟩
  have hcons := Routines.cons hk hn hl hparams hr hb hxs he hrs
  simp only [List.append_assoc, List.cons_append, List.nil_append] at hcons ⊢
  exact ⟨_, hcons⟩

theorem param_prompt (s : Parser) (hs : s.Regular) :
    Prompt (Then (One .identifier) (One .identifier)) s (fun s => (param s).1) (fun s => (param s).1) :=
  .progress hs (.ident hs) (completable_one (by decide)) fun _ _ _ ht _ =>
    .endingWithin ht (.ident ht) fun _ _ _ => .node _ _ _ _

/-- What is read behind a parameter. -/
def behindParam (p : Binder) (s : Parser) : Reading s (List Binder) :=
  if s.check .comma then
    Reading.since ((paramList s.advance).reading.andThen fun ps _ _ => .pure (p :: ps)) s.size_advance_le
  else .pure [p]

theorem paramList_prompt (s : Parser) (hs : s.Regular) :
    Prompt (fun ts => ∃ ps, Params ts ps) s (fun s => (paramList s).1) (fun s => (paramList s).1) := by
  have hmore : ∀ (p p' : Binder) (t : Parser), t.Regular → t.size < s.size →
      Prompt BehindParam t (fun t => (behindParam p t).1) (fun t => (behindParam p' t).1) := by
    intro p p' t ht hsize
    refine (Prompt.listed (L := fun ts => ∃ ps, Params ts ps) ht (r := paramList) p p' fun hc => ?_).mono ?_
    · have := size_advance_lt_of_check hc (by decide)
      exact paramList_prompt t.advance ht.advance
    · rintro _ (rfl | ⟨_, us, rfl, ⟨c, rfl, hc⟩, ps, hps⟩)
      · exact behindParam_nil
      · exact fun k n hk hn => ⟨_, .more hk hn hc hps⟩
  refine .congr (.mono (.progress hs (param_prompt s hs) (completable_nil behindParam_nil) hmore) ?_)
    (fun t _ => by rw [paramList]; rfl) (fun t _ => by rw [paramList]; rfl)
  rintro _ ⟨_, us, rfl, ⟨_, _, rfl, ⟨k, rfl, hk⟩, n, rfl, hn⟩, hus⟩
  exact hus k n hk hn
termination_by s.size

theorem params_prompt (s : Parser) (hs : s.Regular) :
    Prompt IsParams s (fun s => (params s).1) (fun s => (params s).1) :=
  .branchOn (fun _ => (Prompt.pure [] []).mono fun _ => .inl) fun _ => (paramList_prompt s hs).mono fun _ => .inr

theorem function_prompt (s : Parser) (hs : s.Regular) :
    Prompt IsFunction s (fun s => (function s).1) (fun s => (function s).1) := by
  have hblock : Completable IsBlock :=
    (completable_one (by decide)).then (completable_stmts.then (completable_one (by decide)))
  have hclose : Completable (Then (One .rightParen) IsBlock) := (completable_one (by decide)).then hblock
  have hparams : Completable (Then IsParams (Then (One .rightParen) IsBlock)) := (completable_nil (.inl rfl)).then hclose
  have hopen : Completable (Then (One .leftParen) _) := (completable_one (by decide)).then hparams
  exact .progress hs (.ident hs) ((completable_one (by decide)).then hopen) fun _ _ t ht _ =>
    .within ht (.ident ht) hopen fun _ _ u hu _ => .mark hu .leftParen hparams fun _ _ v hv _ =>
      .reading hv (params_prompt v hv) hclose fun _ _ w hw _ => .mark hw .rightParen hblock fun _ _ x hx _ =>
        .endingWithin hx (block_prompt x hx) fun _ _ _ => .node _ _ _ _

theorem functions_prompt (s : Parser) (hs : s.Regular) :
    Prompt IsRoutines s (fun s => (functions s).1) (fun s => (functions s).1) := by
  have hnil : IsRoutines [] := ⟨[], .nil⟩
  refine .congr (.branchOn (k := .eof) (fun _ => ?_) fun _ => ?_) (fun t _ => by rw [functions]; rfl)
    (fun t _ => by rw [functions]; rfl)
  · refine (Prompt.pure [] []).mono ?_
    rintro _ rfl
    exact hnil
  · have hcons : Prompt (Then IsFunction IsRoutines) s
        (fun s => ((function s).andThen fun f t _ => (functions t).andThen fun fs _ _ => .pure (f :: fs)).1)
        (fun s => ((function s).andThen fun f t _ => (functions t).andThen fun fs _ _ => .pure (f :: fs)).1) :=
      .progress hs (function_prompt s hs) (completable_nil hnil) fun _ _ t ht _ =>
        .ending ht (functions_prompt t ht) fun _ _ _ => .pure _ _
    exact Prompt.mono hcons fun _ => isRoutines_cons
termination_by s.size

/-- **A program is read promptly.** -/
theorem program_prompt (s : Parser) (hs : s.Regular) :
    Prompt IsRoutines s (fun s => (program s).1) (fun s => (program s).1) := by
  obtain ⟨span, hprogram⟩ : ∃ span : List Func → Span, ∀ t : Parser, t.peek = s.peek →
      (program t).1 = ((functions t).andThen fun fs _ _ => .node (span fs) (Program.mk · fs)).1 := by
    apply Exists.intro
    intro t ht
    rw [program, ht]
  exact .congr (.ending hs (functions_prompt s hs) fun _ _ _ => .node _ _ _ _) hprogram hprogram

/-! ## Programs -/

/-- Tokens that are a program. -/
def Accepted (tokens : List Token) : Prop := ∃ p s, (program (.ofTokens tokens)).1 = (.ok p, s)

theorem accepted_of_routines {tokens : List Token} (h : IsRoutines tokens) (hfits : ∀ t ∈ tokens, t.Fits) :
    Accepted tokens := by
  obtain ⟨rs, hrs⟩ := h
  obtain ⟨rs', hrs'⟩ := hrs.nearest
  obtain ⟨fs, t, hfs, -⟩ := yieldsFuncs_of_routines hrs' hfits (s := .ofTokens tokens) rfl
  obtain ⟨site, u, hu, -⟩ := program_of_yieldsFuncs hfs
  exact ⟨_, u, hu⟩

theorem YieldsFuncs.isAtEnd {s t : Parser} {fs : List Func} (h : YieldsFuncs s fs t) : t.isAtEnd = true := by
  induction h with
  | nil h => exact h
  | cons _ _ _ ih => exact ih

/-- **No program contains an integer that is no word.** -/
theorem Accepted.inRange {tokens : List Token} (h : Accepted tokens) (hregular : ∀ t ∈ tokens, t.Regular) :
    InRange tokens := by
  obtain ⟨p, s, hp⟩ := h
  obtain ⟨u, hfs, -⟩ := yieldsFuncs_of_program hp
  obtain ⟨ts, hspans, -⟩ := routines_of_yieldsFuncs hfs (s := .ofTokens tokens) hregular
  have hend := hfs.isAtEnd
  have hu : u.Regular := Regular.of_spans (s := .ofTokens tokens) hregular hspans
  have hahead : tokens = ts ++ u.ahead := hspans.ahead
  cases hnil : u.ahead with
  | nil =>
    rw [hahead, hnil, List.append_nil]
    exact hspans.inRange
  | cons t us =>
    rw [isAtEnd, check_eq, hnil] at hend
    exact absurd (eq_of_beq hend) (hu t (by rw [hnil]; exact List.mem_cons_self)).ne_eof

/-- Tokens that a scan may report make a program of what is in front of them. -/
def Viable (tokens : List Token) : Prop := ∃ more, (∀ t ∈ more, t.Fits) ∧ Accepted (tokens ++ more)

/-- **Errors are reported at the earliest token.** When the tokens of a source are no program, the error names one of
them, with its place and its text: what is in front of it can be completed to a program, and with this token nothing
can, whatever follows. Otherwise it names the end of the tokens: all of them can be completed, and as they are they are
no program. An integer that is no word is in no program at all. -/
theorem parse_error_earliest {source : String} {e : ParseError} {s : Parser}
    (h : (program (.ofTokens (scan source).tokens)).1 = (.error e, s)) :
    ((∃ before t after, (scan source).tokens = before ++ t :: after ∧ e.span = t.span ∧ e.found = t.lexeme ∧
        Viable before ∧ ∀ more, ¬ Accepted (before ++ t :: more)) ∨
      e.atEnd = true ∧ e.span = (ofTokens (scan source).tokens).stop ∧ e.found = "" ∧
        Viable (scan source).tokens ∧ ¬ Accepted (scan source).tokens) ∧
    ∀ tokens, (∀ t ∈ tokens, t.Regular) → Accepted tokens → InRange tokens := by
  refine ⟨?_, fun tokens hregular htokens => htokens.inRange hregular⟩
  have hregular := regular_ofTokens source
  have hprompt := program_prompt _ hregular
  obtain ⟨ts, hahead, hts, -, herror⟩ := hprompt.reads
  obtain ⟨htoken, hend, us, hus, hK⟩ := herror e (congrArg Prod.fst h)
  have hviable : Viable ts :=
    ⟨us, hus, accepted_of_routines hK (List.forall_mem_append.2 ⟨hts, hus⟩)⟩
  have htokens : (scan source).tokens = ts ++ unread (program (.ofTokens (scan source).tokens)).1 := hahead
  cases hunread : unread (program (.ofTokens (scan source).tokens)).1 with
  | nil =>
    rw [hunread] at htoken htokens
    rw [List.append_nil] at htokens
    rw [List.headD_nil] at htoken
    have hatEnd : e.atEnd = true := hend (by rw [htoken]; rfl)
    refine .inr ⟨hatEnd, by rw [ParseError.span, htoken]; rfl, by rw [ParseError.found, if_pos hatEnd], ?_, ?_⟩
    · rw [htokens]
      exact hviable
    · rintro ⟨p, t, hp⟩
      rw [h] at hp
      cases hp
  | cons t after =>
    rw [hunread] at htoken htokens
    rw [List.headD_cons] at htoken
    have hne : t.kind ≠ .eof :=
      (regular_of_mem_tokens (by rw [htokens]; exact List.mem_append_right _ List.mem_cons_self)).ne_eof
    refine .inl ⟨ts, t, after, htokens, by rw [ParseError.span, htoken], ?_, hviable, ?_⟩
    · rw [← htoken] at hne ⊢
      exact e.found_eq hne
    · rintro more ⟨p, u, hp⟩
      have halike := hprompt.alike ts t after more (.ofTokens (ts ++ t :: more)) htokens rfl
        (hunread.symm ▸ List.suffix_rfl)
      rw [h, hp] at halike
      cases halike

/-- A number where the name of a function should be. -/
theorem scan_nameless : scan "int 5" = ⟨[⟨.identifier, "int", ⟨1, 1, 3⟩⟩, ⟨.intLiteral, "5", ⟨1, 5, 1⟩⟩], []⟩ := by
  decide +kernel

/-- The number is named: a type can be completed to a program, a type and a number cannot. -/
theorem parse_error_earliest_nameless : ∃ e s, (program (.ofTokens (scan "int 5").tokens)).1 = (.error e, s) ∧
    e.span = ⟨1, 5, 1⟩ ∧ e.found = "5" ∧ Viable [⟨.identifier, "int", ⟨1, 1, 3⟩⟩] ∧
    ∀ more, ¬ Accepted (⟨.identifier, "int", ⟨1, 1, 3⟩⟩ :: ⟨.intLiteral, "5", ⟨1, 5, 1⟩⟩ :: more) := by
  obtain ⟨s, hs⟩ : ∃ s, (program (.ofTokens (scan "int 5").tokens)).1 =
      (.error ⟨.expected .identifier, ⟨.intLiteral, "5", ⟨1, 5, 1⟩⟩⟩, s) := by
    have hfunctions : ∃ t, (functions (.ofTokens (scan "int 5").tokens)).1 =
        (.error ⟨.expected .identifier, ⟨.intLiteral, "5", ⟨1, 5, 1⟩⟩⟩, t) := by
      rw [scan_nameless, functions]
      exact ⟨_, rfl⟩
    obtain ⟨t, ht⟩ := hfunctions
    rw [program, andThen_reading, Step.seq, ht]
    exact ⟨t, rfl⟩
  refine ⟨_, s, hs, rfl, rfl, ?_⟩
  obtain ⟨before, t, after, htokens, -, hfound, hviable, hnone⟩ | ⟨hend, -⟩ := (parse_error_earliest hs).1
  · rw [scan_nameless] at htokens
    rcases before with _ | ⟨b, _ | ⟨c, before⟩⟩
    · obtain ⟨rfl, -⟩ := List.cons.inj htokens
      exact absurd hfound (by decide)
    · obtain ⟨rfl, hrest⟩ := List.cons.inj htokens
      obtain ⟨rfl, -⟩ := List.cons.inj hrest
      exact ⟨hviable, hnone⟩
    · obtain ⟨-, hrest⟩ := List.cons.inj htokens
      obtain ⟨-, hrest⟩ := List.cons.inj hrest
      exact absurd hrest.symm (List.append_ne_nil_of_right_ne_nil _ (List.cons_ne_nil _ _))
  · exact absurd hend (by decide)

end Parser

end MicroC
