import MicroC.Ast.Basic
import MicroC.Ty

/-!
# Errors of the analysis

What the analysis rejects, and the shape of its passes: a pass records facts in a table and stops
at the first error; what it recorded before stays recorded.
-/

namespace MicroC

/-- What the analysis rejects. -/
inductive SemanticFault
  | unknownType (name : String)
  | functionRedefinition (name : String)
  | variableRedefinition (name : String)
  | undefinedVariable (name : String)
  | initializerMismatch (name : String) (expected found : Ty)
  | invalidBinaryOperands (op : BinaryOp) (lhs rhs : Ty)
  | invalidUnaryOperand (op : UnaryOp) (operand : Ty)
  | nonIntegerSubscript (found : Ty)
  | notAnArray (name : String)
  | unknownFunction (name : String)
  | argumentCount (name : String) (given expected : Nat)
  | argumentType (name : String) (index : Nat) (given expected : Ty)
deriving DecidableEq, Repr

def SemanticFault.message : SemanticFault → String
  | .unknownType n => s!"Unknown type '{n}'"
  | .functionRedefinition n => s!"Cannot redefine function '{n}'"
  | .variableRedefinition n => s!"Cannot redefine variable '{n}'"
  | .undefinedVariable n => s!"Undefined variable '{n}'"
  | .initializerMismatch n expected found =>
    s!"Type of initializer does not match type of variable '{n}': expected {expected.text}, "
      ++ s!"found {found.text}"
  | .invalidBinaryOperands op _ _ => s!"Invalid operand types to binary operator '{op.text}'"
  | .invalidUnaryOperand op _ => s!"Invalid operand type to unary operator '{op.text}'"
  | .nonIntegerSubscript _ => "Array subscript must be an integer"
  | .notAnArray n => s!"Cannot subscript non-array variable '{n}'"
  | .unknownFunction n => s!"Call to unknown function '{n}'"
  | .argumentCount n given expected =>
    s!"Invalid number of arguments for call to '{n}': {given} given, but expected {expected}"
  | .argumentType n i given expected =>
    s!"Invalid type for argument {i} of call to '{n}': {given.text} given, but expected "
      ++ expected.text

/-- A fault and its place. Functions that the runtime provides have no place. -/
structure SemanticError where
  fault : SemanticFault
  span : Option Span
deriving DecidableEq, Repr

namespace SemanticError

def message (e : SemanticError) : String := e.fault.message

end SemanticError

/-- A pass of the analysis that fills a table of type `τ`. -/
abbrev Pass (τ α : Type) : Type := ExceptT SemanticError (StateM τ) α

namespace Pass

variable {τ α : Type}

/-- Stops at a place in the source. -/
def reject (fault : SemanticFault) (span : Span) : Pass τ α := throw ⟨fault, some span⟩

end Pass

/-- The type that a name spells. -/
def scalarOf {τ : Type} (n : Ident) : Pass τ Scalar :=
  match Scalar.ofName? n.name with
  | some s => pure s
  | none => .reject (.unknownType n.name) n.span

end MicroC
