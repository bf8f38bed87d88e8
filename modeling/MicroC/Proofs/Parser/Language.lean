import MicroC.Proofs.Parser.NearestElse
import MicroC.Proofs.Parser.StmtComplete

/-!
# The language of the parser

A source is parsed exactly when its scan has no faults, its integers are in range and the grammar derives
its tokens; the tree is the one of the derivation with every `else` at the nearest `if`.

* `Readable`: a source without faults whose integers are in range.
* `parseProgram_iff`, `parseExpr_iff`, `parseStmt_iff`: what is parsed, with its tree.
* **`parsed_iff_derived`**: all three, and that the tree never decides whether a source is parsed.
-/

namespace MicroC

open Grammar

/-- A source without faults whose integers are in range. -/
def Readable (source : String) : Prop :=
  (scan source).errors = [] ∧ InRange (scan source).tokens

namespace Parser

theorem regular_ofTokens (source : String) : (ofTokens (scan source).tokens).Regular :=
  fun _ ht => regular_of_mem_tokens ht

theorem fits_of_inRange {source : String} (h : InRange (scan source).tokens) :
    ∀ t ∈ (scan source).tokens, t.Fits :=
  fun t ht => ⟨regular_of_mem_tokens ht, h t ht⟩

/-- No token of a scan is an end of file, so a parser that sees one has read them all. -/
theorem tokens_eq_of_spans {source : String} {ts : List Token} {s : Parser}
    (h : (ofTokens (scan source).tokens).Spans ts s) (hc : s.check .eof = true) :
    (scan source).tokens = ts := by
  have hs := (regular_ofTokens source).of_spans h
  have hnil : s.ahead = [] := by
    rw [check_eq] at hc
    cases ha : s.ahead with
    | nil => rfl
    | cons t us =>
      rw [ha] at hc
      exact absurd (eq_of_beq hc) (hs t (by rw [ha]; exact List.mem_cons_self)).ne_eof
  have hts := h.ahead
  rwa [hnil, List.append_nil] at hts

theorem check_eof_of_ahead {s : Parser} (h : s.ahead = []) : s.check .eof = true := by
  rw [check_eq, h]
  rfl

end Parser

open MicroC.Parser

theorem parseSource_eq_ok {α : Type} {parse : Parser → Except ParseError α × Parser}
    {source : String} {a : α} :
    parseSource parse source = .ok a ↔
      (scan source).errors = [] ∧
        ∃ s, parse (.ofTokens (scan source).tokens) = (.ok a, s) ∧ s.check .eof = true := by
  unfold parseSource Scan.result
  by_cases he : (scan source).errors = []
  · rw [he, List.isEmpty_nil, if_pos rfl]
    split
    · next h => simp at h
    next tokens h =>
    cases h
    constructor
    · intro h
      split at h
      · simp at h
      next a' s hp =>
      rw [Parser.expect] at h
      split at h
      · next hx => split at hx <;> simp at h
      next hx =>
      cases h
      refine ⟨rfl, s, hp, ?_⟩
      split at hx
      · assumption
      · simp at hx
    · rintro ⟨-, s, hp, hc⟩
      simp [hp, Parser.expect, hc]
  · have hne : (scan source).errors.isEmpty = false := by simpa using he
    simp [hne, he]

/-- **A source is an expression exactly when the grammar derives it**, and this is its tree. -/
theorem parseExpr_iff (source : String) (x : Term) :
    (∃ e, parseExpr source = .ok e ∧ e.term = x) ↔
      Readable source ∧ Derives .assignment (scan source).tokens x := by
  constructor
  · rintro ⟨e, he, rfl⟩
    obtain ⟨herr, s, hp, hc⟩ := parseSource_eq_ok.1 he
    have hreg := regular_ofTokens source
    obtain ⟨ts, hts, hd⟩ := derives_of_yields (expression_eq_ok.1 hp) hreg
    have hall := tokens_eq_of_spans hts hc
    rw [Readable, hall]
    exact ⟨⟨herr, hts.inRange⟩, hd⟩
  · rintro ⟨⟨herr, hin⟩, hd⟩
    obtain ⟨e, t, he, ht, hx⟩ := (reads_of_derives hd).1 (fits_of_inRange hin)
      (.ofTokens (scan source).tokens) [] (List.append_nil _).symm
      (ends_of_ofToken? rfl (by decide) (by decide))
    exact ⟨e, parseSource_eq_ok.2 ⟨herr, t, expression_eq_ok.2 he, check_eof_of_ahead ht⟩, hx⟩

/-- **A source is a statement exactly when the grammar derives it**, and this is its tree. -/
theorem parseStmt_iff (source : String) (x : Phrase) :
    (∃ y, parseStmt source = .ok y ∧ y.phrase = x) ↔
      Readable source ∧ ∃ o, Statement true o (scan source).tokens x := by
  constructor
  · rintro ⟨y, hy, rfl⟩
    obtain ⟨herr, s, hp, hc⟩ := parseSource_eq_ok.1 hy
    have hreg := regular_ofTokens source
    obtain ⟨o, ts, hts, hd, -⟩ := statement_derives (statement_eq_ok.1 hp) hreg
    have hall := tokens_eq_of_spans hts hc
    rw [Readable, hall]
    exact ⟨⟨herr, hts.inRange⟩, o, hd⟩
  · rintro ⟨⟨herr, hin⟩, o, hd⟩
    obtain ⟨y, t, hy, ht, hx⟩ := readsStmt_of_statement hd (fits_of_inRange hin)
      (.ofTokens (scan source).tokens) [] (List.append_nil _).symm (fun _ => by decide)
    exact ⟨y, parseSource_eq_ok.2 ⟨herr, t, statement_eq_ok.2 hy, check_eof_of_ahead ht⟩, hx⟩

theorem yieldsFuncs_of_program {s t : Parser} {p : Program} (h : (program s).1 = (.ok p, t)) :
    ∃ u, YieldsFuncs s p.functions u ∧ t.ahead = u.ahead := by
  rw [program] at h
  obtain ⟨fs, u, hu, hf, hn⟩ := Reading.andThen_eq_ok.1 h
  cases hn
  exact ⟨u, functions_eq_ok.1 hf, rfl⟩

theorem program_of_yieldsFuncs {s u : Parser} {fs : List Func} (h : YieldsFuncs s fs u) :
    ∃ site t, (program s).1 = (.ok ⟨site, fs⟩, t) ∧ t.ahead = u.ahead := by
  have hf := functions_eq_ok.2 h
  rw [program]
  exact ⟨_, _, Reading.andThen_eq_ok.2 ⟨fs, u, Reading.size_le_of_ok hf, hf, rfl⟩, rfl⟩

theorem parseProgram_of_yieldsFuncs {source : String} {fs : List Func} {t : Parser}
    (herr : (scan source).errors = []) (h : YieldsFuncs (.ofTokens (scan source).tokens) fs t)
    (ht : t.ahead = []) : ∃ site, parseProgram source = .ok ⟨site, fs⟩ := by
  obtain ⟨site, u, hp, hu⟩ := program_of_yieldsFuncs h
  exact ⟨site, parseSource_eq_ok.2 ⟨herr, u, hp, check_eof_of_ahead (hu.trans ht)⟩⟩

/-- **A source is a program exactly when the grammar derives it**, and this is its tree. -/
theorem parseProgram_iff (source : String) (rs : List Routine) :
    (∃ p, parseProgram source = .ok p ∧ p.routines = rs) ↔
      Readable source ∧ Routines true (scan source).tokens rs := by
  constructor
  · rintro ⟨p, hp, rfl⟩
    obtain ⟨herr, s, hp, hc⟩ := parseSource_eq_ok.1 hp
    obtain ⟨u, hf, hu⟩ := yieldsFuncs_of_program hp
    have hreg := regular_ofTokens source
    obtain ⟨ts, hts, hd⟩ := routines_of_yieldsFuncs hf hreg
    rw [check_eq, hu, ← check_eq] at hc
    have hall := tokens_eq_of_spans hts hc
    rw [Readable, hall]
    exact ⟨⟨herr, hts.inRange⟩, hd⟩
  · rintro ⟨⟨herr, hin⟩, hd⟩
    obtain ⟨fs, t, hfs, ht, hx⟩ := yieldsFuncs_of_routines hd (fits_of_inRange hin)
      (s := .ofTokens (scan source).tokens) rfl
    obtain ⟨site, hp⟩ := parseProgram_of_yieldsFuncs herr hfs ht
    exact ⟨_, hp, hx⟩

/-- **The parser accepts exactly what the grammar derives and builds its tree.** For a program, an
expression and a statement: a source is parsed exactly when it is readable and its tokens are derivable by
the plain rules, and then to the tree of the derivation with every `else` at the nearest `if`. -/
theorem parsed_iff_derived (source : String) :
    ((∃ p, parseProgram source = .ok p) ↔
      Readable source ∧ ∃ rs, Routines false (scan source).tokens rs) ∧
    (∀ rs, (∃ p, parseProgram source = .ok p ∧ p.routines = rs) ↔
      Readable source ∧ Routines true (scan source).tokens rs) ∧
    ((∃ e, parseExpr source = .ok e) ↔
      Readable source ∧ ∃ x, Derives .assignment (scan source).tokens x) ∧
    (∀ x, (∃ e, parseExpr source = .ok e ∧ e.term = x) ↔
      Readable source ∧ Derives .assignment (scan source).tokens x) ∧
    ((∃ y, parseStmt source = .ok y) ↔
      Readable source ∧ ∃ o x, Statement false o (scan source).tokens x) ∧
    (∀ x, (∃ y, parseStmt source = .ok y ∧ y.phrase = x) ↔
      Readable source ∧ ∃ o, Statement true o (scan source).tokens x) := by
  refine ⟨?_, parseProgram_iff source, ?_, parseExpr_iff source, ?_, parseStmt_iff source⟩
  · constructor
    · rintro ⟨p, hp⟩
      obtain ⟨hr, hd⟩ := (parseProgram_iff source _).1 ⟨p, hp, rfl⟩
      exact ⟨hr, _, hd.plain⟩
    · rintro ⟨hr, rs, hd⟩
      obtain ⟨rs', hd'⟩ := hd.nearest
      obtain ⟨p, hp, -⟩ := (parseProgram_iff source rs').2 ⟨hr, hd'⟩
      exact ⟨p, hp⟩
  · constructor
    · rintro ⟨e, he⟩
      obtain ⟨hr, hd⟩ := (parseExpr_iff source _).1 ⟨e, he, rfl⟩
      exact ⟨hr, _, hd⟩
    · rintro ⟨hr, x, hd⟩
      obtain ⟨e, he, -⟩ := (parseExpr_iff source x).2 ⟨hr, hd⟩
      exact ⟨e, he⟩
  · constructor
    · rintro ⟨y, hy⟩
      obtain ⟨hr, o, hd⟩ := (parseStmt_iff source _).1 ⟨y, hy, rfl⟩
      exact ⟨hr, o, _, hd.plain⟩
    · rintro ⟨hr, o, x, hd⟩
      obtain ⟨o', x', hd'⟩ := hd.nearest
      obtain ⟨y, hy, -⟩ := (parseStmt_iff source x').2 ⟨hr, o', hd'⟩
      exact ⟨y, hy⟩

end MicroC
