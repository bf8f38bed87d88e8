import MicroC.Proofs.Emission.Labels
import MicroC.Proofs.Routine.Op

/-!
# The items of a program

What the code of expressions, statements and functions is made of, as relations between trees and items.
Every item is put down once here; what is written, what is in order and what it computes is shown by
induction over these relations.

* `ExprCode`, `ArgsCode`: expressions and arguments.
* `Spot`: the words of a frame between two statements.
* `StmtCode`, `StmtsCode`: statements.
* `RoutineCode`, `ProgramCode`: functions and programs.
-/

namespace MicroC

open Convention

/-! ## Templates -/

def BinaryOp.order : BinaryOp → Order
  | .equal => .eq
  | .notEqual => .ne
  | .less => .lt
  | .lessEqual => .le
  | .greater => .gt
  | _ => .ge

def arithmeticItems (f : Arith) (κ : Kind) : List Item :=
  [.op (.pop .r13), .op (.pop .r15), .op (.combine f (.reg .r13) .r15), .op (.push (.reg .r15) κ)]

/-- Divides; the result is in a given register. -/
def divisionItems (r : Reg) (κ : Kind) : List Item :=
  [.op (.pop .r13), .op (.pop .rax), .op .extend, .op (.divide .r13), .op (.push (.reg r) κ)]

def comparisonItems (o : Order) (κ : Kind) : List Item :=
  [.op (.pop .rax), .op (.pop .r15), .op (.move (.imm 0) .r12), .op (.move (.imm 1) .r13),
    .op (.compare (.reg .rax) .r15), .op (.select o .r13 .r12), .op (.push (.reg .r12) κ)]

def powerLoop (ks : List Kind) (n : Nat) (κ : Kind) : List Item :=
  [.op (.compare (.imm 0) .rcx), .op (.jump .atMost (labelName (n + 1) "pow_end")),
    .op (.combine .mul (.reg .rbx) .rax), .op (.combine .sub (.imm 1) .rcx),
    .op (.jump .always (labelName n "pow_loop")), .label (labelName (n + 1) "pow_end") ks,
    .op (.push (.reg .rax) κ)]

def powerItems (ks : List Kind) (n : Nat) (κ : Kind) : List Item :=
  [.op (.pop .rcx), .op (.pop .rbx), .op (.move (.imm 1) .rax), .label (labelName n "pow_loop") ks] ++
    powerLoop ks n κ

/-- A binary operator behind its operands, on top of words of some kinds. -/
def operatorItems (ks : List Kind) (n : Nat) (κ : Kind) : BinaryOp → List Item
  | .add => arithmeticItems .add κ
  | .sub => arithmeticItems .sub κ
  | .mul => arithmeticItems .mul κ
  | .div => divisionItems .rax κ
  | .mod => divisionItems .rdx κ
  | .pow => powerItems ks n κ
  | op => comparisonItems op.order κ

/-- How many labels a binary operator needs. -/
def operatorLabels : BinaryOp → Nat
  | .pow => 2
  | _ => 0

def negationItems (κ : Kind) : List Item :=
  [.op (.pop .rax), .op (.negate .rax), .op (.push (.reg .rax) κ)]

def storeItems (m : Nat) : List Item := [.op (.peek .rax), .op (.store .rax m)]

/-- Takes words off the stack. -/
def shrinkItems : Nat → List Item
  | 0 => []
  | n + 1 => [.op (.shrink n)]

/-- Puts words of any value on the stack. -/
def growItems (n : Nat) : List Item := List.replicate n (.op .grow)

def popItems (rs : List Reg) : List Item := rs.map fun r => .op (.pop r)

/-- How many words of padding a call on top of a stack needs. -/
def callPadding (depth arity : Nat) : Nat := (depth + stackArguments arity) % 2

def callItems (f : String) (arity padding : Nat) (κ : Kind) : List Item :=
  popItems (Reg.arguments.take arity) ++
    .op (.call f) :: (shrinkItems (stackArguments arity + padding) ++ [.op (.push (.reg .rax) κ)])

/-! ## Expressions -/

/-- What the names in a program refer to. -/
structure Meaning where
  /-- The declaration that a use refers to. -/
  symbols : SymbolTable
  /-- The number of arguments of a function. -/
  arityOf : String → Option Nat

variable (c : Meaning)

/-- The slot of the variable that a use refers to. -/
def Meaning.slot? (slots : List NodeId) (use : NodeId) : Option Nat :=
  ((c.symbols.get? use).bind (Frame.slotNumber? · slots)).map (· - 1)

section Expressions

variable (slots : List NodeId)

mutual

/-- The items of an expression whose value becomes a word of a kind, on top of words of some kinds. The
labels from the first number up to the second are in use. -/
inductive ExprCode : List Kind → Nat → Kind → Expr → List Item → Nat → Prop
  | narrow {ks : List Kind} {n : Nat} {κ : Kind} {s : Site} {v : Int64}
      (h : Operand.fitsImmediate v = true) : ExprCode ks n κ (.int s v) [.op (.push (.imm v) κ)] n
  | wide {ks : List Kind} {n : Nat} {κ : Kind} {s : Site} {v : Int64}
      (h : Operand.fitsImmediate v = false) :
      ExprCode ks n κ (.int s v) [.op (.move (.imm v) .rax), .op (.push (.reg .rax) κ)] n
  | var {ks : List Kind} {n m : Nat} {κ : Kind} {s : Site} {x : Ident}
      (h : c.slot? slots s.id = some m) : ExprCode ks n κ (.var s x) [.op (.push (.slot m) κ)] n
  | plus {ks : List Kind} {n n' : Nat} {κ : Kind} {s : Site} {sp : Span} {x : Expr} {is : List Item}
      (hx : ExprCode ks n κ x is n') : ExprCode ks n κ (.unary s .plus sp x) is n'
  | neg {ks : List Kind} {n n' : Nat} {κ : Kind} {s : Site} {sp : Span} {x : Expr} {is : List Item}
      (hx : ExprCode ks n .temp x is n') :
      ExprCode ks n κ (.unary s .neg sp x) (is ++ negationItems κ) n'
  | assign {ks : List Kind} {n n' m : Nat} {κ : Kind} {s s' : Site} {sp : Span} {x : Ident} {y : Expr}
      {is : List Item} (h : c.slot? slots s'.id = some m) (hy : ExprCode ks n κ y is n') :
      ExprCode ks n κ (.binary s .assign sp (.var s' x) y) (is ++ storeItems m) n'
  | binary {ks : List Kind} {n n₁ n₂ : Nat} {κ : Kind} {s : Site} {op : BinaryOp} {sp : Span}
      {x y : Expr} {is js : List Item} (hop : op ≠ .assign) (hx : ExprCode ks n .temp x is n₁)
      (hy : ExprCode (.temp :: ks) n₁ .temp y js n₂) :
      ExprCode ks n κ (.binary s op sp x y) (is ++ (js ++ operatorItems ks n₂ κ op))
        (n₂ + operatorLabels op)
  | call {ks : List Kind} {n n' p : Nat} {κ : Kind} {s : Site} {f : Ident} {args : List Expr}
      {is : List Item} (hf : c.arityOf f.name = some args.length)
      (hp : p = callPadding ks.length args.length)
      (hargs : ArgsCode (List.replicate p .pad ++ ks) n args is n') :
      ExprCode ks n κ (.call s f args) (growItems p ++ (is ++ callItems f.name args.length p κ)) n'

/-- The items of arguments, from the last to the first. -/
inductive ArgsCode : List Kind → Nat → List Expr → List Item → Nat → Prop
  | nil {ks : List Kind} {n : Nat} : ArgsCode ks n [] [] n
  | cons {ks : List Kind} {n n₁ n₂ : Nat} {e : Expr} {es : List Expr} {is js : List Item}
      (hes : ArgsCode ks n es js n₁)
      (he : ExprCode (List.replicate es.length .temp ++ ks) n₁ .temp e is n₂) :
      ArgsCode ks n (e :: es) (js ++ is) n₂

end

end Expressions

/-! ## Statements -/

/-- The words of a frame between two statements. -/
structure Spot where
  /-- The declarations that have a word, the latest first. -/
  slots : List NodeId
  /-- Whether a word of padding lies below the variables. -/
  padded : Bool
  words : List Kind

namespace Spot

def base (p : Spot) : List Kind := if p.padded then p.words.tail else p.words

/-- One more variable. -/
def declare (p : Spot) (d : NodeId) (ks : List Kind) : Spot := ⟨d :: p.slots, false, ks⟩

def isAligned (p : Spot) : Bool := p.words.length % 2 == 0

/-- With padding if it is out of alignment. -/
def align (p : Spot) : Spot := if p.isAligned then p else { p with padded := true, words := .pad :: p.words }

/-- The code that aligns it. -/
def alignItems (p : Spot) : List Item := if p.isAligned then [] else [.op .grow]

/-- The code that leaves a block that was entered at the first place. -/
def release (p p' : Spot) : List Item := shrinkItems (p'.words.length - p.words.length)

end Spot

/-- Pops a condition and jumps unless it is one. -/
def branchItems (target : String) : List Item :=
  [.op (.pop .rax), .op (.compare (.imm 1) .rax), .op (.jump .unequal target)]

mutual

/-- The items of a statement, and the place behind it. -/
inductive StmtCode : Spot → Nat → Stmt → List Item → Spot → Nat → Prop
  | empty {p : Spot} {n : Nat} {s : Site} : StmtCode p n (.empty s) [] p n
  | ifThen {p p' : Spot} {n n₁ n' : Nat} {s : Site} {e : Expr} {t : Stmt} {is js : List Item}
      (he : ExprCode c p.slots p.words n .temp e is n₁) (ht : StmtCode p (n₁ + 2) t js p' n') :
      StmtCode p n (.ite s e t none)
        (is ++ (branchItems (labelName (n₁ + 1) "endif") ++ .label (labelName n₁ "then") p.words ::
          (js ++ (p.release p' ++ [.label (labelName (n₁ + 1) "endif") p.words])))) p n'
  | ifElse {p p' p'' : Spot} {n n₁ n₂ n' : Nat} {s : Site} {e : Expr} {t u : Stmt}
      {is js ls : List Item} (he : ExprCode c p.slots p.words n .temp e is n₁)
      (ht : StmtCode p (n₁ + 3) t js p' n₂) (hu : StmtCode p n₂ u ls p'' n') :
      StmtCode p n (.ite s e t (some u))
        (is ++ (branchItems (labelName (n₁ + 1) "else") ++ .label (labelName n₁ "then") p.words ::
          (js ++ (p.release p' ++ .op (.jump .always (labelName (n₁ + 2) "endif")) ::
            .label (labelName (n₁ + 1) "else") p.words ::
              (ls ++ (p.release p'' ++ [.label (labelName (n₁ + 2) "endif") p.words])))))) p n'
  | loop {p p' : Spot} {n n₁ n' : Nat} {s : Site} {e : Expr} {b : Stmt} {is js : List Item}
      (he : ExprCode c p.slots p.words (n + 3) .temp e is n₁) (hb : StmtCode p n₁ b js p' n') :
      StmtCode p n (.loop s e b)
        (.label (labelName n "while_cond") p.words ::
          (is ++ (branchItems (labelName (n + 2) "while_end") ++
            .label (labelName (n + 1) "while_body") p.words ::
              (js ++ (p.release p' ++ [.op (.jump .always (labelName n "while_cond")),
                .label (labelName (n + 2) "while_end") p.words]))))) p n'
  | leave {p : Spot} {n : Nat} {s : Site} : StmtCode p n (.ret s none) [.op .exit] p n
  | ret {p : Spot} {n n' : Nat} {s : Site} {e : Expr} {is : List Item}
      (he : ExprCode c p.slots p.words n .temp e is n') :
      StmtCode p n (.ret s (some e)) (is ++ [.op (.pop .rax), .op .exit]) p n'
  | expr {p : Spot} {n n' : Nat} {s : Site} {e : Expr} {is : List Item}
      (he : ExprCode c p.slots p.words n .temp e is n') :
      StmtCode p n (.expr s e) (is ++ [.op (.pop .rax)]) p n'
  | init {p q : Spot} {n n' : Nat} {b : Binder} {e : Expr} {is : List Item}
      (he : ExprCode c p.slots p.base n .var e is n')
      (hq : q = p.declare b.site.id (.var :: p.base)) :
      StmtCode p n (.decl b (some e)) (shrinkItems p.padded.toNat ++ (is ++ q.alignItems)) q.align n'
  | bare {p q : Spot} {n : Nat} {b : Binder} (hq : q = p.declare b.site.id (.pad :: p.base)) :
      StmtCode p n (.decl b none) (growItems (1 - p.padded.toNat) ++ q.alignItems) q.align n
  | block {p p' : Spot} {n n' : Nat} {s : Site} {body : List Stmt} {is : List Item}
      (h : StmtsCode p n body is p' n') : StmtCode p n (.block s body) (is ++ p.release p') p n'

inductive StmtsCode : Spot → Nat → List Stmt → List Item → Spot → Nat → Prop
  | nil {p : Spot} {n : Nat} : StmtsCode p n [] [] p n
  | cons {p q r : Spot} {n n₁ n₂ : Nat} {s : Stmt} {ss : List Stmt} {is js : List Item}
      (hs : StmtCode p n s is q n₁) (hss : StmtsCode q n₁ ss js r n₂) :
      StmtsCode p n (s :: ss) (is ++ js) r n₂

end

/-! ## Functions -/

/-- Where a function finds an argument. -/
def paramSrc (i : Nat) : Src :=
  match Reg.arguments[i]? with
  | some r => .reg r
  | none => .param (i - Reg.arguments.length)

/-- Puts arguments from number `i` on into the frame. -/
def spillItems (i : Nat) : Nat → List Item
  | 0 => []
  | k + 1 => .op (.push (paramSrc i) .var) :: spillItems (i + 1) k

/-- The place behind the parameters of a function. -/
def Func.place (f : Func) : Spot :=
  ⟨(f.params.map (·.site.id)).reverse, false, List.replicate f.params.length .var⟩

/-- The routine of a function. -/
inductive RoutineCode : Nat → Func → Subroutine → Nat → Prop
  | mk {n n' : Nat} {f : Func} {is : List Item} {p' : Spot}
      (h : StmtsCode c f.place.align n f.body is p' n') :
      RoutineCode n f
        ⟨f.name.name, f.params.length, spillItems 0 f.params.length ++ (f.place.alignItems ++
          (is ++ (f.place.align.release p' ++ [.op (.move (.imm 0) .rax)])))⟩ n'

inductive ProgramCode : Nat → List Func → List Subroutine → Nat → Prop
  | nil {n : Nat} : ProgramCode n [] [] n
  | cons {n n₁ n₂ : Nat} {f : Func} {fs : List Func} {r : Subroutine} {rs : List Subroutine}
      (hf : RoutineCode c n f r n₁) (hfs : ProgramCode n₁ fs rs n₂) :
      ProgramCode n (f :: fs) (r :: rs) n₂

end MicroC
