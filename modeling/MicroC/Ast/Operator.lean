import MicroC.Token

/-!
# Operators

The binary and unary operators and the tokens that spell them.
-/

namespace MicroC

/-- Binary operators, from the loosest to the tightest. -/
inductive BinaryOp
  | assign
  | equal
  | notEqual
  | less
  | lessEqual
  | greater
  | greaterEqual
  | add
  | sub
  | mul
  | div
  | mod
  | pow
deriving DecidableEq, Repr

namespace BinaryOp

/-- The operator that a token spells. -/
def ofToken? : TokenKind → Option BinaryOp
  | .equals => some .assign
  | .equalsEquals => some .equal
  | .bangEquals => some .notEqual
  | .less => some .less
  | .lessEquals => some .lessEqual
  | .greater => some .greater
  | .greaterEquals => some .greaterEqual
  | .plus => some .add
  | .minus => some .sub
  | .star => some .mul
  | .slash => some .div
  | .percent => some .mod
  | .caret => some .pow
  | _ => none

def text : BinaryOp → String
  | .assign => "="
  | .equal => "=="
  | .notEqual => "!="
  | .less => "<"
  | .lessEqual => "<="
  | .greater => ">"
  | .greaterEqual => ">="
  | .add => "+"
  | .sub => "-"
  | .mul => "*"
  | .div => "/"
  | .mod => "%"
  | .pow => "^"

/-- `==` and `!=`. -/
def isEquality : BinaryOp → Bool
  | .equal | .notEqual => true
  | _ => false

/-- `<`, `<=`, `>` and `>=`. -/
def isRelational : BinaryOp → Bool
  | .less | .lessEqual | .greater | .greaterEqual => true
  | _ => false

/-- The operators that yield a truth value. -/
def isComparison (op : BinaryOp) : Bool := op.isEquality || op.isRelational

end BinaryOp

/-- The signs in front of an operand. -/
inductive UnaryOp
  | plus
  | neg
deriving DecidableEq, Repr

namespace UnaryOp

/-- The sign that a token spells. -/
def ofToken? : TokenKind → Option UnaryOp
  | .plus => some .plus
  | .minus => some .neg
  | _ => none

def text : UnaryOp → String
  | .plus => "+"
  | .neg => "-"

end UnaryOp

end MicroC
