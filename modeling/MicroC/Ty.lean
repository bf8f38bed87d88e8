/-!
# Types

The scalar types `int`, `float`, `string` and `void`, and arrays of a fixed length over them.
-/

namespace MicroC

/-- A type that a name can be declared with. -/
inductive Scalar
  | int
  | float
  | string
  | void
deriving DecidableEq, Repr

namespace Scalar

def text : Scalar → String
  | .int => "int"
  | .float => "float"
  | .string => "string"
  | .void => "void"

/-- The type a name spells, letter for letter. -/
def ofName? : String → Option Scalar
  | "int" => some .int
  | "float" => some .float
  | "string" => some .string
  | "void" => some .void
  | _ => none

end Scalar

/-- The type of an expression or a declaration. -/
inductive Ty
  | scalar (s : Scalar)
  | array (element : Scalar) (length : Nat)
deriving DecidableEq, Repr

namespace Ty

abbrev int : Ty := .scalar .int
abbrev float : Ty := .scalar .float
abbrev string : Ty := .scalar .string
abbrev void : Ty := .scalar .void

def text : Ty → String
  | .scalar s => s.text
  | .array e n => s!"{e.text}[{n}]"

/-- `int` and `float`. -/
def isNumeric : Ty → Bool
  | .scalar .int | .scalar .float => true
  | _ => false

def isArray : Ty → Bool
  | .array .. => true
  | .scalar _ => false

/-- The type of an array's elements. -/
def element? : Ty → Option Ty
  | .array e _ => some (.scalar e)
  | .scalar _ => none

end Ty

end MicroC
