import MicroC.Analysis.Scope
import MicroC.Analysis.Signature

/-!
# Types of expressions and declarations

Types match exactly; nothing is converted.

| Construct | Rule |
|-----------|------|
| literal | the type of its kind |
| declaration | the type it names; an initializer has the same type |
| `a = b` | both sides alike; the result is the type of the left side |
| comparison | both sides alike and numeric; the result is `int` |
| arithmetic | both sides alike and numeric; the result is their type |
| `+a`, `-a` | a numeric operand; the result is its type |
| `a[i]` | `i` is `int` and `a` an array; the result is the type of its elements |
| `f(args)` | as many arguments as parameters, of their types; the result is that of `f` |

* `typeExpr`: the type of an expression.
* `typeProgram`: types everything in a program.
-/

namespace MicroC

/-- The types of expressions and declarations. -/
abbrev TypeTable := Table NodeId Ty

/-- One line for each node, in the order of their numbers. -/
def TypeTable.text (t : TypeTable) : String :=
  String.join (t.entries.map fun e => s!"{e.1.text}: {e.2.text}\n")

/-- What typing looks up: signatures, and the declarations that uses refer to. -/
structure Names where
  functions : FunctionTable
  symbols : SymbolTable

/-- Records the type of a node. -/
def record (id : NodeId) (ty : Ty) : Pass TypeTable Ty := do
  modify (·.insert id ty)
  return ty

/-- The type of the declaration that a use refers to. -/
def declaredType (names : Names) (use : NodeId) (n : Ident) : Pass TypeTable Ty := do
  match (names.symbols.get? use).bind (← get).get? with
  | some ty => return ty
  | none => .reject (.undefinedVariable n.name) n.span

/-- The result of a binary operator. -/
def binaryType (op : BinaryOp) (opSpan : Span) (lhs rhs : Ty) : Pass TypeTable Ty :=
  if lhs ≠ rhs ∨ (op ≠ .assign ∧ lhs.isNumeric = false) then
    .reject (.invalidBinaryOperands op lhs rhs) opSpan
  else pure (if op.isComparison then .int else lhs)

/-- The result of a sign. -/
def unaryType (op : UnaryOp) (opSpan : Span) (operand : Ty) : Pass TypeTable Ty :=
  if operand.isNumeric then pure operand else .reject (.invalidUnaryOperand op operand) opSpan

/-- The signature that a call refers to, if the number of arguments is right. -/
def signatureOf (names : Names) (n : Ident) (given : Nat) : Pass TypeTable Signature :=
  match names.functions.get? n.name with
  | none => .reject (.unknownFunction n.name) n.span
  | some s =>
    if given = s.params.length then pure s
    else .reject (.argumentCount n.name given s.params.length) n.span

mutual

/-- The type of an expression, which is recorded once the expression is known to be in order. -/
def typeExpr (names : Names) : Expr → Pass TypeTable Ty
  | .int site _ => record site.id .int
  | .float site _ => record site.id .float
  | .string site _ => record site.id .string
  | .var site n => do record site.id (← declaredType names site.id n)
  | .index site n i => do
    let found ← typeExpr names i
    if found ≠ .int then .reject (.nonIntegerSubscript found) n.span
    match (← declaredType names site.id n).element? with
    | some ty => record site.id ty
    | none => .reject (.notAnArray n.name) n.span
  | .call site n args => do
    let s ← signatureOf names n args.length
    typeArgs names n 0 args s.params
    record site.id s.returns
  | .unary site op opSpan x => do
    let operand ← typeExpr names x
    record site.id (← unaryType op opSpan operand)
  | .binary site op opSpan x y => do
    let lhs ← typeExpr names x
    let rhs ← typeExpr names y
    record site.id (← binaryType op opSpan lhs rhs)

/-- Types the arguments of a call to `n` from number `i` on and compares each with its parameter. -/
def typeArgs (names : Names) (n : Ident) (i : Nat) : List Expr → List Ty → Pass TypeTable Unit
  | e :: es, expected :: params => do
    let given ← typeExpr names e
    if given ≠ expected then .reject (.argumentType n.name i given expected) n.span
    typeArgs names n (i + 1) es params
  | _, _ => pure ()

end

/-- Types a declaration. An initializer must have the declared type. -/
def typeBinder (names : Names) (b : Binder) (init : Option Expr) : Pass TypeTable Unit := do
  let declared := Ty.scalar (← scalarOf b.type)
  if let some e := init then
    let found ← typeExpr names e
    if found ≠ declared then
      .reject (.initializerMismatch b.name.name declared found) b.name.span
  let _ ← record b.site.id declared

/-- Types an array declaration and the literal that gives its length. -/
def typeArray (b : Binder) (n : ArrayLength) : Pass TypeTable Unit := do
  let element ← scalarOf b.type
  let _ ← record n.site.id .int
  let _ ← record b.site.id (.array element n.value.toInt.natAbs)

/-- Types an expression whose type nobody asks for. -/
def typeOption (names : Names) : Option Expr → Pass TypeTable Unit
  | none => pure ()
  | some e => do
    let _ ← typeExpr names e

mutual

/-- Types everything in a statement. -/
def typeStmt (names : Names) : Stmt → Pass TypeTable Unit
  | .empty _ => pure ()
  | .ite _ c t none => do
    let _ ← typeExpr names c
    typeStmt names t
  | .ite _ c t (some e) => do
    let _ ← typeExpr names c
    typeStmt names t
    typeStmt names e
  | .loop _ c b => do
    let _ ← typeExpr names c
    typeStmt names b
  | .ret _ v => typeOption names v
  | .expr _ e => typeOption names (some e)
  | .decl b init => typeBinder names b init
  | .array b n => typeArray b n
  | .block _ body => typeStmts names body

/-- Types statements one after the other. -/
def typeStmts (names : Names) : List Stmt → Pass TypeTable Unit
  | [] => pure ()
  | s :: ss => do
    typeStmt names s
    typeStmts names ss

end

/-- Types parameters one after the other. -/
def typeParams (names : Names) : List Binder → Pass TypeTable Unit
  | [] => pure ()
  | b :: bs => do
    typeBinder names b none
    typeParams names bs

/-- Types a function. -/
def typeFunction (names : Names) (f : Func) : Pass TypeTable Unit := do
  typeParams names f.params
  typeStmts names f.body

/-- Types everything in a program. -/
def typeProgram (names : Names) : List Func → Pass TypeTable Unit
  | [] => pure ()
  | f :: fs => do
    typeFunction names f
    typeProgram names fs

end MicroC
