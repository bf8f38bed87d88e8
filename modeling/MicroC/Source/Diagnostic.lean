import MicroC.Source.Span

/-!
# Diagnostics

What the user is told about a problem: one line with its place, and the source line it points at
with a caret under the column.

* `sourceLines`: the lines of a text, without their line ends.
* `Diagnostic.render`: the message with the source line below it.
-/

namespace MicroC

/-! ## Lines of a text -/

/-- Cuts a text after every newline. -/
def cutLines : List Char → List (List Char)
  | [] => []
  | c :: cs =>
    if c = '\n' then [c] :: cutLines cs
    else match cutLines cs with
      | [] => [[c]]
      | l :: ls => (c :: l) :: ls

/-- Drops the line end, a newline or a carriage return and a newline. A carriage return that no
newline follows belongs to the line. -/
def dropLineEnd (l : List Char) : List Char :=
  match l.reverse with
  | '\n' :: '\r' :: r => r.reverse
  | '\n' :: r => r.reverse
  | _ => l

/-- The lines of a source text. A final newline opens no further line. -/
def sourceLines (source : String) : List String :=
  (cutLines source.toList).map fun l => String.ofList (dropLineEnd l)

/-- Line number `n`, counted from one. -/
def sourceLine? (source : String) (n : Nat) : Option String :=
  if n = 0 then none else (sourceLines source)[n - 1]?

/-! ## Diagnostics -/

/-- A message and, when it has one, its place. -/
structure Diagnostic where
  span : Option Span
  message : String
deriving DecidableEq, Repr

namespace Diagnostic

/-- `line:col: message`, or the bare message without a place. -/
def text (d : Diagnostic) : String :=
  match d.span with
  | some s => s!"{s.text}: {d.message}"
  | none => d.message

/-- A caret at the column, drawn out with tildes over the rest of the span. -/
def pointer (s : Span) : String :=
  String.ofList (List.replicate (s.col - 1) ' ' ++ '^' :: List.replicate (s.len - 1) '~')

/-- A line number, right-aligned in three columns. -/
def lineNumber (n : Nat) : String :=
  let digits := toString n
  String.ofList (List.replicate (3 - digits.length) ' ') ++ digits

/-- The message, and below it the source line with a pointer when the source has that line. -/
def render (source : String) (d : Diagnostic) : String :=
  match d.span with
  | none => d.text ++ "\n"
  | some s =>
    match sourceLine? source s.line with
    | none => d.text ++ "\n"
    | some line =>
      d.text ++ "\n  |\n" ++ lineNumber s.line ++ " | " ++ line ++ "\n  | " ++ pointer s ++ "\n"

end Diagnostic

end MicroC
