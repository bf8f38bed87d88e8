import MicroC.Compilation
import MicroC.Proofs.Emission.Blame
import MicroC.Proofs.Parser.Earliest
import MicroC.Proofs.Token.Lines

/-!
# Diagnostics point into the source

Whatever stage finds an error, the place that it reports is the start of a token or of a faulty text, and the line that
is shown has it in the column that is named. The only other place is the end of the source.

* `CompileError.name?`: the name that a message quotes.
* `blames_of_parseProgram`: a parser blames a token, or the end.
* `blames_of_compile`: what errors other than those of a scan blame.
* **`compile_error_points`**: where the diagnostics of a compilation point.
-/

namespace MicroC

open MicroC.Parser

/-! ## What errors quote -/

/-- A name that a fault quotes stands in its message. -/
theorem SemanticFault.message_eq {fault : SemanticFault} {n : String} (h : fault.name? = some n) :
    ∃ before after : String, fault.message = before ++ (n ++ after) := by
  have hlater (a b c d : String) : a ++ (b ++ (c ++ d)) = (a ++ (b ++ c)) ++ d := by simp only [String.append_assoc]
  rw [message.eq_def]
  cases fault with
  | invalidBinaryOperands | invalidUnaryOperand | nonIntegerSubscript => cases h
  | argumentType =>
    cases h
    simp only [String.append_assoc]
    exact ⟨_, _, hlater _ _ _ _⟩
  | _ =>
    cases h
    simp only [String.append_assoc]
    exact ⟨_, _, rfl⟩

theorem EmissionFault.message_eq {fault : EmissionFault} {n : String} (h : fault.name? = some n) :
    ∃ before after : String, fault.message = before ++ (n ++ after) := by
  cases fault with
  | unsupported | invalidAssignmentTarget | missingEntry => cases h
  | unallocatedVariable =>
    cases h
    exact ⟨_, _, String.append_assoc⟩

namespace CompileError

/-- The name that a message quotes. -/
def name? : CompileError → Option String
  | .lex _ | .parse _ => none
  | .semantic e => e.fault.name?
  | .emission e => e.fault.name?

/-- The text of the source that an error is about: what a parser found, or the name that a message quotes. -/
def subject? : CompileError → Option String
  | .parse e => some e.found
  | e => e.name?

/-- Whether something was expected where the source ends. -/
def atEnd : CompileError → Bool
  | .parse e => e.atEnd
  | _ => false

theorem message_eq {e : CompileError} {n : String} (h : e.name? = some n) {d : Diagnostic} (hd : d ∈ e.diagnostics) :
    ∃ before after : String, d.message = before ++ (n ++ after) := by
  cases e with
  | lex | parse => cases h
  | semantic e =>
    obtain rfl := List.mem_singleton.1 hd
    exact SemanticFault.message_eq h
  | emission e =>
    obtain rfl := List.mem_singleton.1 hd
    exact EmissionFault.message_eq h

end CompileError

/-! ## What errors blame -/

section Blame

variable {source : String}

theorem errors_of_parseProgram {es : List LexError} (h : parseProgram source = .error (.lex es)) :
    es = (scan source).errors := by
  unfold parseProgram parseSource Scan.result at h
  split at h
  · next es' herrors =>
    cases h
    split at herrors <;> cases herrors
    rfl
  split at h
  · cases h
  split at h <;> cases h

theorem blames_of_mem_tokens {e : ParseError} (h : e.token ∈ (scan source).tokens) :
    e.span.Blames (scan source).tokens (some e.found) := by
  refine ⟨e.token, h, rfl, fun n hn => ?_⟩
  rw [← Option.some.inj hn, e.found_eq (regular_of_mem_tokens h).ne_eof]

/-- **A parser blames a token that it found**, or the end of the source. -/
theorem blames_of_parseProgram {e : ParseError} (h : parseProgram source = .error (.parse e)) (hend : e.atEnd = false) :
    e.span.Blames (scan source).tokens (some e.found) := by
  unfold parseProgram parseSource Scan.result at h
  split at h
  · cases h
  next tokens htokens =>
  split at htokens <;> cases htokens
  split at h
  · next e' s hrun =>
    cases h
    obtain ⟨ts, hahead, -, -, herror⟩ := (program_prompt _ (regular_ofTokens source)).reads
    obtain ⟨htoken, hatEnd, -⟩ := herror e (congrArg Prod.fst hrun)
    cases hunread : unread (program (.ofTokens (scan source).tokens)).1 with
    | nil =>
      rw [hunread, List.headD_nil] at htoken
      rw [hatEnd (by rw [htoken]; rfl)] at hend
      cases hend
    | cons t rest =>
      rw [hunread, List.headD_cons] at htoken
      have htokens : (scan source).tokens = _ := hahead
      refine blames_of_mem_tokens ?_
      rw [htokens, hunread, htoken]
      exact List.mem_append_right _ List.mem_cons_self
  · next p s hrun =>
    obtain ⟨u, hfs, hahead⟩ := yieldsFuncs_of_program hrun
    -- Functions are read up to the end, so nothing is left to complain about.
    have hdone : s.check .eof = true := by
      have hu := hfs.isAtEnd
      rw [isAtEnd, check_eq, ← hahead, ← check_eq] at hu
      exact hu
    rw [Parser.expect, if_pos hdone] at h
    cases h

/-- The errors of a compilation are the faults of the scan, or they are at tokens. -/
theorem blames_of_compile {options : CompileOptions} {e : CompileError} (h : compile source options = .error e)
    (hend : e.atEnd = false) :
    e = .lex (scan source).errors ∨ ∀ d ∈ e.diagnostics, ∀ sp ∈ d.span, sp.Blames (scan source).tokens e.subject? := by
  unfold compile at h
  split at h
  · next re hparse =>
    cases h
    cases re with
    | lex es => exact .inl (congrArg _ (errors_of_parseProgram hparse))
    | parse e =>
      refine .inr (List.forall_mem_singleton.2 ?_)
      rintro _ ⟨⟩
      exact blames_of_parseProgram hparse hend
  next p hparse =>
  have hp := anchored_of_parseProgram hparse
  split at h
  · next e ha =>
    cases h
    obtain ⟨sp, hsp, hblames⟩ := anchored_of_analyze hp ha
    refine .inr (List.forall_mem_singleton.2 fun sp' hsp' => ?_)
    obtain rfl := Option.some.inj (hsp.symm.trans hsp')
    exact hblames
  split at h
  · next e hg =>
    cases h
    exact .inr (List.forall_mem_singleton.2 (anchored_of_generate hp hg))
  · dsimp only at h
    split at h <;> cases h

theorem Span.Blames.placed {sp : Span} {name? : Option String} (h : sp.Blames (scan source).tokens name?) :
    ∃ x ∈ placed source, x.position = sp.start ∧ ∃ t, x.token? = some t ∧ ∀ n ∈ name?, t.lexeme = n := by
  obtain ⟨t, ht, hstart, hname⟩ := h
  obtain ⟨x, hx, htoken, hposition⟩ := placed_of_mem_tokens ht
  exact ⟨x, hx, hposition.trans hstart.symm, t, htoken, hname⟩

end Blame

/-- A diagnostic at a token or a fault shows its line, with its first character in the column that is marked. -/
theorem Diagnostic.shown {source : String} {d : Diagnostic} {sp : Span} {x : Placed} (hsp : d.span = some sp)
    (hx : x ∈ placed source) (hlexeme : x.IsLexeme) (hposition : x.position = sp.start) :
    ∃ line, sourceLine? source sp.line = some line ∧ 0 < sp.col ∧ sp.col ≤ line.length ∧
      line.toList[sp.col - 1]? = x.piece.text.head? ∧
      d.render source =
        d.text ++ "\n  |\n" ++ lineNumber sp.line ++ " | " ++ line ++ "\n  | " ++ pointer sp ++ "\n" := by
  obtain ⟨line, hline, hpos, hcol, hchar⟩ := points_of_mem_placed hx hlexeme
  rw [hposition] at hline hpos hcol hchar
  have hline : sourceLine? source sp.line = some line := hline
  refine ⟨line, hline, hpos, hcol, hchar, ?_⟩
  unfold render
  rw [hsp]
  dsimp only
  rw [hline]

/-- **Diagnostics point into the source.** When a source does not compile, every diagnostic that has a place names the
first character of a token or of a faulty text, unless something was expected where the source ends: the source has a
line of this number, which is shown with the message, and this line has that character in this column. Where a parser
fails, the token is the one that it found, and a name that the message quotes is the token. Lines and columns fit in 32
bits for sources of fewer than `2 ^ 32 - 1` bytes. -/
theorem compile_error_points {source : String} {options : CompileOptions} {e : CompileError}
    (h : compile source options = .error e) (hend : e.atEnd = false) {d : Diagnostic} (hd : d ∈ e.diagnostics)
    {sp : Span} (hsp : d.span = some sp) :
    ∃ x ∈ placed source, x.IsLexeme ∧ x.position = sp.start ∧
      (∃ line, sourceLine? source sp.line = some line ∧ 0 < sp.col ∧ sp.col ≤ line.length ∧
        line.toList[sp.col - 1]? = x.piece.text.head? ∧
        d.render source = d.text ++ "\n  |\n" ++ Diagnostic.lineNumber sp.line ++ " | " ++ line ++ "\n  | " ++
          Diagnostic.pointer sp ++ "\n") ∧
      (∀ pe, e = .parse pe → ∃ t, x.token? = some t ∧ t.lexeme = pe.found) ∧
      ∀ n, e.name? = some n → (∃ t, x.token? = some t ∧ t.lexeme = n) ∧
        ∃ before after : String, d.message = before ++ (n ++ after) := by
  rcases blames_of_compile h hend with rfl | hblames
  · obtain ⟨le, hle, rfl⟩ := List.mem_map.1 hd
    obtain ⟨x, hx, herror, hposition⟩ := placed_of_mem_errors hle
    obtain rfl := Option.some.inj hsp
    have hlexeme : x.IsLexeme := .inr (by rw [herror]; rfl)
    refine ⟨x, hx, hlexeme, hposition, Diagnostic.shown rfl hx hlexeme hposition, ?_, ?_⟩
    · rintro pe ⟨⟩
    · rintro n ⟨⟩
  · obtain ⟨x, hx, hposition, t, htoken, hname⟩ := (hblames d hd sp hsp).placed
    have hlexeme : x.IsLexeme := .inl (by rw [htoken]; rfl)
    refine ⟨x, hx, hlexeme, hposition, Diagnostic.shown hsp hx hlexeme hposition, ?_, fun n hn => ⟨⟨t, htoken, ?_⟩, ?_⟩⟩
    · rintro pe rfl
      exact ⟨t, htoken, hname pe.found rfl⟩
    · refine hname n ?_
      cases e with
      | lex | parse => cases hn
      | semantic | emission => exact hn
    · exact CompileError.message_eq hn hd

/-! ## A name that is declared nowhere -/

section Undeclared

/-- The second line uses a variable that does not exist. -/
def undeclaredSource : String := "int main()\x7b\n  return y;\n\x7d"

def undeclaredTokens : List Token :=
  [⟨.identifier, "int", ⟨1, 1, 3⟩⟩, ⟨.identifier, "main", ⟨1, 5, 4⟩⟩, ⟨.leftParen, "(", ⟨1, 9, 1⟩⟩,
    ⟨.rightParen, ")", ⟨1, 10, 1⟩⟩, ⟨.leftBrace, "\x7b", ⟨1, 11, 1⟩⟩, ⟨.returnKw, "return", ⟨2, 3, 6⟩⟩,
    ⟨.identifier, "y", ⟨2, 10, 1⟩⟩, ⟨.semicolon, ";", ⟨2, 11, 1⟩⟩, ⟨.rightBrace, "\x7d", ⟨3, 1, 1⟩⟩]

theorem scan_undeclared : scan undeclaredSource = ⟨undeclaredTokens, []⟩ := by decide +kernel

/-- Whether the variable is found missing in its place. -/
def lacksVariable (fs : List Func) : Bool :=
  match analyze .runtime ⟨default, fs⟩ with
  | .ok _ => false
  | .error e => e == ⟨.undefinedVariable "y", some ⟨2, 10, 1⟩⟩

theorem functions_undeclared :
    ∃ fs t, YieldsFuncs (.ofTokens undeclaredTokens) fs t ∧ t.ahead = [] ∧ lacksVariable fs = true := by
  refine ⟨?fs, ?t, ?parsed, ?done, ?lacks⟩
  case parsed =>
    refine .cons ?_ (.mk ?_ ?_ ?_ (.none ?_) ?_ (.mk ?_ (.cons ?_ (.retValue ?_ ?_ (.ofAtom (.var ?_ ?_ ?_) ?_ ?_) ?_)
      (.nil ?_)) ?_)) (.nil ?_)
    all_goals decide +kernel
  all_goals decide +kernel

theorem compile_undeclared :
    compile undeclaredSource = .error (.semantic ⟨.undefinedVariable "y", some ⟨2, 10, 1⟩⟩) := by
  obtain ⟨fs, t, hfs, ht, hlacks⟩ := functions_undeclared
  obtain ⟨site, hparse⟩ : ∃ site, parseProgram undeclaredSource = .ok ⟨site, fs⟩ :=
    parseProgram_of_yieldsFuncs (by rw [scan_undeclared]) (by rw [scan_undeclared]; exact hfs) ht
  unfold lacksVariable at hlacks
  split at hlacks
  · cases hlacks
  · next e he =>
    obtain rfl := eq_of_beq hlacks
    unfold compile
    rw [hparse]
    dsimp only
    rw [show analyze .runtime ⟨site, fs⟩ = _ from he]

/-- The diagnostic points at the variable. -/
theorem compile_error_points_undeclared :
    compile undeclaredSource = .error (.semantic ⟨.undefinedVariable "y", some ⟨2, 10, 1⟩⟩) ∧
    ∃ x ∈ placed undeclaredSource, x.position = ⟨2, 10⟩ ∧ (∃ t, x.token? = some t ∧ t.lexeme = "y") ∧
      ∃ line, sourceLine? undeclaredSource 2 = some line ∧ line.toList[9]? = x.piece.text.head? := by
  obtain ⟨x, hx, -, hposition, ⟨line, hline, -, -, hchar, -⟩, -, hname⟩ := compile_error_points compile_undeclared rfl
    List.mem_cons_self rfl
  exact ⟨compile_undeclared, x, hx, hposition, (hname "y" rfl).1, line, hline, hchar⟩

end Undeclared

end MicroC
