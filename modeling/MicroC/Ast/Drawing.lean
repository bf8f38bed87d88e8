import MicroC.Ast.Basic

/-!
# Drawing a program as a tree

One line for each node, with connectors in front. The statements of a function's body hang
directly off the function.

* `Tree.draw`: the lines of a labelled tree.
* `Program.draw`: the drawing of a program.
-/

namespace MicroC

/-- A tree of labels. -/
inductive Tree
  | node (label : String) (children : List Tree)

/-- The characters that connect the lines of a drawing. -/
inductive TreeStyle
  | unicode
  | ascii
deriving DecidableEq, Repr

namespace TreeStyle

/-- The connector in front of a child. -/
def branch (style : TreeStyle) (last : Bool) : String :=
  match style, last with
  | .unicode, false => "├── "
  | .unicode, true => "└── "
  | .ascii, false => "|-- "
  | .ascii, true => "`-- "

/-- What stands below the connector of a child, in front of its own children. -/
def indent (style : TreeStyle) (last : Bool) : String :=
  match style, last with
  | .unicode, false => "│   "
  | .ascii, false => "|   "
  | _, true => "    "

end TreeStyle

namespace Tree

mutual

/-- The lines of a child and of all below it. -/
def draw (style : TreeStyle) (margin : String) (last : Bool) : Tree → String
  | .node label children =>
    margin ++ style.branch last ++ label ++ "\n"
      ++ drawAll style (margin ++ style.indent last) children

/-- The lines of the children of one node. -/
def drawAll (style : TreeStyle) (margin : String) : List Tree → String
  | [] => ""
  | t :: ts => draw style margin ts.isEmpty t ++ drawAll style margin ts

end

end Tree

/-! ## Labels -/

/-- A label: what the node is, its number and its place. -/
def nodeLabel (what : String) (id : NodeId) (span : Span) : String :=
  s!"{what} {id.text} <{span.text}>"

namespace Expr

/-- What distinguishes an expression from others of its kind. -/
def detail : Expr → String
  | .int _ v => wordText v
  | .float _ v => v.text
  | .string _ v => s!"\"{v}\""
  | .var _ n | .index _ n _ | .call _ n _ => n.name
  | .unary _ op _ _ => s!"'{op.text}'"
  | .binary _ op _ _ _ => s!"'{op.text}'"

def label (e : Expr) : String := nodeLabel (e.kindName ++ " " ++ e.detail) e.id e.span

mutual

def tree : Expr → Tree
  | e@(.index _ _ i) => .node e.label [tree i]
  | e@(.call _ _ args) => .node e.label (trees args)
  | e@(.unary _ _ _ x) => .node e.label [tree x]
  | e@(.binary _ _ _ x y) => .node e.label [tree x, tree y]
  | e => .node e.label []

def trees : List Expr → List Tree
  | [] => []
  | e :: es => tree e :: trees es

end

end Expr

/-- The name and type of a declaration, as a label shows them. -/
def Binder.declared (b : Binder) : String := s!"{b.type.name} {b.name.name}"

namespace Stmt

def label (s : Stmt) : String :=
  let what := match s with
    | .decl b _ => s!"{s.kindName} {b.declared}"
    | .array b n => s!"{s.kindName} {b.declared}[{wordText n.value}]"
    | _ => s.kindName
  nodeLabel what s.id s.span

mutual

def tree : Stmt → Tree
  | s@(.ite _ c t none) => .node s.label [c.tree, tree t]
  | s@(.ite _ c t (some e)) => .node s.label [c.tree, tree t, tree e]
  | s@(.loop _ c b) => .node s.label [c.tree, tree b]
  | s@(.ret _ v) => .node s.label (v.toList.map Expr.tree)
  | s@(.expr _ e) => .node s.label [e.tree]
  | s@(.decl _ i) => .node s.label (i.toList.map Expr.tree)
  | s@(.block _ b) => .node s.label (trees b)
  | s => .node s.label []

def trees : List Stmt → List Tree
  | [] => []
  | s :: ss => tree s :: trees ss

end

end Stmt

/-- A parameter is labelled by the place of its name. -/
def Binder.tree (b : Binder) : Tree :=
  .node (nodeLabel s!"VarDecl {b.declared}" b.site.id b.name.span) []

/-- A function is labelled by the place of its name. -/
def Func.tree (f : Func) : Tree :=
  .node (nodeLabel s!"FuncDecl {f.returns.name} {f.name.name}" f.id f.name.span)
    (f.params.map Binder.tree ++ Stmt.trees f.body)

/-- The drawing of a program. -/
def Program.draw (style : TreeStyle) (p : Program) : String :=
  nodeLabel "Program" p.site.id p.site.span ++ "\n"
    ++ Tree.drawAll style "" (p.functions.map Func.tree)

end MicroC
