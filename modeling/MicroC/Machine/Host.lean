import MicroC.Decimal.Integer
import MicroC.Machine.Error

/-!
# The runtime

The functions that generated code can call without a block in the module, and the places they read
from and print to.

* `Runtime`: functions that are called by their names.
* `Intrinsic`: the functions that programs know.
* `Host`: a place to read from and print to, and so a runtime with these functions.
* `Script`: a host with its input given in advance and its output kept.
* `Terminal`: a host on a text stream, which prompts for input.
-/

namespace MicroC

/-- The functions that code can call without a block for them in the module. -/
class Runtime (σ : Type) where
  /-- The number of arguments of the function with a name, if there is one. -/
  arity : String → σ → Option Nat
  /-- Calls the function with a name. -/
  call : String → List Int64 → σ → Except MachineError Int64 × σ

/-- A function of the runtime. -/
inductive Intrinsic
  | print
  | read
  | print8
  | sum8
deriving DecidableEq, Repr

namespace Intrinsic

/-- The function with a given name. -/
def ofName? : String → Option Intrinsic
  | "print" => some .print
  | "read" => some .read
  | "print8" => some .print8
  | "sum8" => some .sum8
  | _ => none

/-- The number of arguments. -/
def arity : Intrinsic → Nat
  | .print => 1
  | .read => 0
  | .print8 | .sum8 => 8

end Intrinsic

/-- A place to read integers from and to print text to. -/
class Host (σ : Type) where
  /-- Prints a text. -/
  print : String → σ → σ
  /-- Reads an integer. -/
  read : σ → Except MachineError Int64 × σ

namespace Intrinsic

variable {σ : Type} [Host σ]

/-- Calls a function. `print` shows its first argument, `print8` all of them on one line, and `sum8`
adds them up, modulo `2 ^ 64`. -/
def call (i : Intrinsic) (args : List Int64) (host : σ) : Except MachineError Int64 × σ :=
  match i with
  | .print => (.ok 0, Host.print (wordText (args.headD 0) ++ "\n") host)
  | .read => Host.read host
  | .print8 => (.ok 0, Host.print (" ".intercalate (args.map wordText) ++ "\n") host)
  | .sum8 => (.ok (args.foldl (· + ·) 0), host)

/-- Calls the function with a given name. -/
def callNamed (name : String) (args : List Int64) (host : σ) : Except MachineError Int64 × σ :=
  match ofName? name with
  | some i => i.call args host
  | none => (.error (.unknownFunction name), host)

end Intrinsic

instance {σ : Type} [Host σ] : Runtime σ where
  arity name _ := (Intrinsic.ofName? name).map Intrinsic.arity
  call := Intrinsic.callNamed

/-! ## Given input -/

/-- Input that is still unread, and all output so far. -/
structure Script where
  input : List Int64 := []
  output : String := ""
deriving DecidableEq, Repr

instance : Host Script where
  print text s := { s with output := s.output ++ text }
  read s :=
    match s.input with
    | w :: ws => (.ok w, { s with input := ws })
    | [] => (.error .inputExhausted, s)

/-! ## A text stream -/

/-- The characters that count as blank at the ends of a line. -/
def isSpace (c : Char) : Bool :=
  let n := c.toNat
  (9 ≤ n && n ≤ 13) || n == 0x20 || n == 0x85 || n == 0xa0 || n == 0x1680
    || (0x2000 ≤ n && n ≤ 0x200a) || n == 0x2028 || n == 0x2029 || n == 0x202f || n == 0x205f
    || n == 0x3000

/-- A line without the blanks at its ends. -/
def trimmed (line : String) : String :=
  String.ofList ((line.toList.dropWhile isSpace).reverse.dropWhile isSpace).reverse

/-- Input bytes that are still unread, and all output so far. -/
structure Terminal where
  input : List UInt8 := []
  output : String := ""
deriving DecidableEq, Repr

namespace Terminal

/-- The first line of a list of bytes with its line end, and the bytes behind it. -/
def takeLine : List UInt8 → List UInt8 × List UInt8
  | [] => ([], [])
  | b :: bs =>
    if b = 10 then ([b], bs)
    else
      let (line, rest) := takeLine bs
      (b :: line, rest)

/-- The integer on a line, with blanks around it. -/
def parseLine (line : List UInt8) : Except MachineError Int64 :=
  match String.fromUTF8? ⟨line.toArray⟩ with
  | none => .error .undecodableInput
  | some text =>
    match word? (trimmed text) with
    | some w => .ok w
    | none => .error (.invalidInput (trimmed text))

/-- Prompts for a line and reads the integer on it. -/
def read (t : Terminal) : Except MachineError Int64 × Terminal :=
  let (line, rest) := takeLine t.input
  (if line.isEmpty then .error .inputExhausted else parseLine line, ⟨rest, t.output ++ "> "⟩)

end Terminal

instance : Host Terminal where
  print text t := { t with output := t.output ++ text }
  read := Terminal.read

end MicroC
