import MicroC.Proofs.Parser.Numbering

/-!
# The order of node numbers

A node gets its number when all of its parts have theirs. So the numbers of a parsed program are those from zero on,
without a gap, and a node has a larger number than everything below it. The nodes that a `for` loop is spelled out
with are no exception, although they stand around parts that were read in another order.

* `NodeTree`: the nodes of a program, with everything else left out.
* `Expr.nodeTree`, `Stmt.nodeTree`, `Func.nodeTree`, `Program.nodeTree`: all nodes, those without a type among them.
* `Numbered`: trees with the numbers given out between two states, each above those below it.
* `Numbered.gather`: a node above some of the trees gets the next number.
* `program_numbered`: what is read between two states of a parser has the numbers given out between them.
* **`program_postorder`**: the numbers of a program.
-/

namespace MicroC

/-! ## Nodes and their parts -/

/-- A node and the nodes right below it. -/
inductive NodeTree
  | node (id : NodeId) (parts : List NodeTree)

namespace NodeTree

def id : NodeTree → NodeId
  | .node n _ => n

mutual

/-- The numbers of all nodes of a tree. -/
def ids : NodeTree → List NodeId
  | .node n parts => n :: idsAll parts

/-- The numbers of all nodes of trees. -/
def idsAll : List NodeTree → List NodeId
  | [] => []
  | x :: xs => x.ids ++ idsAll xs

end

/-- The numbers of the nodes below the root of a tree. -/
def descendants : NodeTree → List NodeId
  | .node _ parts => idsAll parts

mutual

/-- The trees at all nodes of a tree. -/
def subtrees : NodeTree → List NodeTree
  | .node n parts => .node n parts :: subtreesAll parts

/-- The trees at all nodes of trees. -/
def subtreesAll : List NodeTree → List NodeTree
  | [] => []
  | x :: xs => x.subtrees ++ subtreesAll xs

end

theorem idsAll_append (xs ys : List NodeTree) : idsAll (xs ++ ys) = idsAll xs ++ idsAll ys := by
  induction xs with
  | nil => rfl
  | cons x xs ih => rw [List.cons_append, idsAll, idsAll, ih, List.append_assoc]

theorem subtreesAll_append (xs ys : List NodeTree) : subtreesAll (xs ++ ys) = subtreesAll xs ++ subtreesAll ys := by
  induction xs with
  | nil => rfl
  | cons x xs ih => rw [List.cons_append, subtreesAll, subtreesAll, ih, List.append_assoc]

theorem idsAll_perm {xs ys : List NodeTree} (h : xs.Perm ys) : (idsAll xs).Perm (idsAll ys) := by
  induction h with
  | nil => exact .nil
  | cons x _ ih => exact ih.append_left _
  | swap x y xs =>
    simp only [idsAll, ← List.append_assoc]
    exact List.perm_append_comm.append_right _
  | trans _ _ ih ih' => exact ih.trans ih'

theorem subtreesAll_perm {xs ys : List NodeTree} (h : xs.Perm ys) : (subtreesAll xs).Perm (subtreesAll ys) := by
  induction h with
  | nil => exact .nil
  | cons x _ ih => exact ih.append_left _
  | swap x y xs =>
    simp only [subtreesAll, ← List.append_assoc]
    exact List.perm_append_comm.append_right _
  | trans _ _ ih ih' => exact ih.trans ih'

end NodeTree

open NodeTree

mutual

/-- The nodes of an expression. -/
def Expr.nodeTree : Expr → NodeTree
  | .int s _ | .float s _ | .string s _ | .var s _ => .node s.id []
  | .index s _ i => .node s.id [i.nodeTree]
  | .call s _ args => .node s.id (Expr.nodeTrees args)
  | .unary s _ _ x => .node s.id [x.nodeTree]
  | .binary s _ _ x y => .node s.id [x.nodeTree, y.nodeTree]

def Expr.nodeTrees : List Expr → List NodeTree
  | [] => []
  | e :: es => e.nodeTree :: Expr.nodeTrees es

end

mutual

/-- The nodes of a statement. The length of an array is a node of its own. -/
def Stmt.nodeTree : Stmt → NodeTree
  | .empty s | .ret s none | .decl ⟨s, _, _⟩ none => .node s.id []
  | .ite s c t none => .node s.id [c.nodeTree, t.nodeTree]
  | .ite s c t (some e) => .node s.id [c.nodeTree, t.nodeTree, e.nodeTree]
  | .loop s c b => .node s.id [c.nodeTree, b.nodeTree]
  | .ret s (some e) | .decl ⟨s, _, _⟩ (some e) | .expr s e => .node s.id [e.nodeTree]
  | .array ⟨s, _, _⟩ n => .node s.id [.node n.site.id []]
  | .block s body => .node s.id (Stmt.nodeTrees body)

def Stmt.nodeTrees : List Stmt → List NodeTree
  | [] => []
  | s :: ss => s.nodeTree :: Stmt.nodeTrees ss

end

def Binder.nodeTree (b : Binder) : NodeTree := .node b.site.id []

/-- The nodes of a function: its parameters and its body, which is a block. -/
def Func.nodeTree (f : Func) : NodeTree :=
  .node f.id (f.params.map Binder.nodeTree ++ [.node f.bodySite.id (Stmt.nodeTrees f.body)])

/-- All nodes of a program. -/
def Program.nodeTree (p : Program) : NodeTree := .node p.site.id (p.functions.map Func.nodeTree)

/-! ## Numbers given out -/

namespace Parser

/-- Trees with the numbers from `lo` up to `hi`, each of them once, and every node above those below it. -/
structure Numbered (lo hi : Nat) (xs : List NodeTree) : Prop where
  le : lo ≤ hi
  perm : ((idsAll xs).map NodeId.index).Perm (List.range' lo (hi - lo))
  above : ∀ x ∈ subtreesAll xs, ∀ n ∈ x.descendants, n < x.id

namespace Numbered

variable {lo mid hi : Nat} {xs ys : List NodeTree}

theorem nil (n : Nat) : Numbered n n [] := ⟨Nat.le_refl _, by rw [Nat.sub_self]; exact .nil, nofun⟩

theorem append (h : Numbered lo mid xs) (h' : Numbered mid hi ys) : Numbered lo hi (xs ++ ys) := by
  refine ⟨Nat.le_trans h.le h'.le, ?_, fun x hx => ?_⟩
  · have hrange : List.range' lo (hi - lo) = List.range' lo (mid - lo) ++ List.range' mid (hi - mid) := by
      have hsplit := List.range'_append_1 (s := lo) (m := mid - lo) (n := hi - mid)
      rw [Nat.add_sub_cancel' h.le, Nat.add_comm (mid - lo), Nat.sub_add_sub_cancel h'.le h.le] at hsplit
      exact hsplit.symm
    rw [idsAll_append, List.map_append, hrange]
    exact h.perm.append h'.perm
  · rw [subtreesAll_append] at hx
    exact (List.mem_append.1 hx).elim (h.above x) (h'.above x)

theorem reorder (h : Numbered lo hi xs) (hp : xs.Perm ys) : Numbered lo hi ys :=
  ⟨h.le, ((idsAll_perm hp).map _).symm.trans h.perm, fun x hx => h.above x ((subtreesAll_perm hp).mem_iff.2 hx)⟩

theorem index_lt (h : Numbered lo hi xs) {n : NodeId} (hn : n ∈ idsAll xs) : n.index < hi := by
  have hmem := h.perm.mem_iff.1 (List.mem_map_of_mem hn)
  rw [List.mem_range'_1, Nat.add_sub_cancel' h.le] at hmem
  exact hmem.2

/-- **A node above some of the trees gets the next number.** -/
theorem gather (xs : List NodeTree) {ys : List NodeTree} (h : Numbered lo hi (xs ++ ys)) {n : NodeId}
    (hn : n.index = hi) : Numbered lo (hi + 1) (.node n xs :: ys) := by
  have hids : idsAll (.node n xs :: ys) = n :: idsAll (xs ++ ys) := by
    rw [idsAll_append, idsAll, ids]
    rfl
  have hsubtrees : subtreesAll (.node n xs :: ys) = .node n xs :: subtreesAll (xs ++ ys) := by
    rw [subtreesAll_append, subtreesAll, subtrees]
    rfl
  refine ⟨Nat.le_succ_of_le h.le, ?_, ?_⟩
  · have hrange : List.range' lo (hi + 1 - lo) = List.range' lo (hi - lo) ++ [hi] := by
      have := h.le
      rw [Nat.sub_add_comm h.le, List.range'_1_concat, Nat.add_sub_cancel' h.le]
    rw [hids, List.map_cons, hn, hrange]
    exact (h.perm.cons hi).trans (List.perm_append_singleton _ _).symm
  · rw [hsubtrees]
    refine List.forall_mem_cons.2 ⟨fun m hm => ?_, h.above⟩
    have hm' : m ∈ idsAll (xs ++ ys) := by
      rw [idsAll_append]
      exact List.mem_append_left _ hm
    show m.index < n.index
    rw [hn]
    exact h.index_lt hm'

theorem node (h : Numbered lo hi xs) {n : NodeId} (hn : n.index = hi) : Numbered lo (hi + 1) [.node n xs] :=
  gather xs (by rwa [List.append_nil]) hn

theorem leaf {n : NodeId} (hn : n.index = lo) : Numbered lo (lo + 1) [.node n []] := (nil lo).node hn

end Numbered

/-! ## Expressions -/

mutual

theorem Yields.numbered {l : Level} {s t : Parser} {e : Expr} (h : Yields l s e t) :
    Numbered s.issued t.issued [e.nodeTree] := by
  match h with
  | .layer _ hx ho => exact ho.numbered hx.numbered
  | .signed _ hx =>
    have := hx.numbered
    rw [issued_advance] at this
    exact this.node rfl
  | .unsigned _ hx => exact hx.numbered
  | .int .. | .float .. | .string .. | .var .. =>
    rw [issued_fresh, issued_advance]
    exact .leaf (issued_advance s)
  | .paren _ he _ =>
    have := he.numbered
    rw [issued_advance] at this
    rwa [issued_advance]
  | .index (t := t) _ _ hi _ =>
    have := hi.numbered
    rw [issued_advance, issued_advance] at this
    rw [issued_fresh, issued_advance]
    exact this.node (issued_advance t)
  | .call (t := t) _ _ ha _ =>
    have := ha.numbered
    rw [issued_advance, issued_advance] at this
    rw [issued_fresh, issued_advance]
    exact this.node (issued_advance t)

theorem Continues.numbered {l : Level} {lhs e : Expr} {s t : Parser} (h : Continues l lhs s e t)
    {lo : Nat} (hl : Numbered lo s.issued [lhs.nodeTree]) : Numbered lo t.issued [e.nodeTree] := by
  match h with
  | .stop _ => exact hl
  | .right _ _ hx | .once _ _ hx _ =>
    have := hx.numbered
    rw [issued_advance] at this
    exact (hl.append this).node rfl
  | .left _ _ hx ho =>
    have := hx.numbered
    rw [issued_advance] at this
    exact ho.numbered ((hl.append this).node rfl)

theorem Arguments.numbered {s t : Parser} {es : List Expr} (h : Arguments s es t) :
    Numbered s.issued t.issued (Expr.nodeTrees es) := by
  match h with
  | .none _ => exact .nil _
  | .some _ he => exact he.numbered

theorem ArgumentList.numbered {s t : Parser} {es : List Expr} (h : ArgumentList s es t) :
    Numbered s.issued t.issued (Expr.nodeTrees es) := by
  match h with
  | .last he _ => exact he.numbered
  | .more he _ hes =>
    have hrest := hes.numbered
    rw [issued_advance] at hrest
    exact he.numbered.append hrest

end

/-! ## Statements -/

theorem YieldsSimple.numbered {s t : Parser} {x : Stmt} (h : YieldsSimple s x t) :
    Numbered s.issued t.issued [x.nodeTree] := by
  cases h with
  | empty h =>
    rw [issued_fresh, issued_advance]
    exact .leaf (issued_advance s)
  | @expr t e _ _ he _ =>
    rw [issued_fresh, issued_advance]
    exact he.numbered.node (issued_advance t)
  | decl _ _ =>
    simp only [issued_fresh, issued_advance]
    exact .leaf (by simp)
  | @init t e _ _ he _ =>
    have := he.numbered
    simp only [issued_advance] at this
    simp only [issued_fresh, issued_advance]
    exact this.node (issued_advance t)
  | @array a t v _ _ ha _ _ ht _ _ =>
    subst ha ht
    simp only [issued_fresh, issued_advance]
    exact (Numbered.leaf (by simp)).node (by simp)

/-- The nodes that a loop is spelled out with are numbered from the inside out. -/
theorem numbered_unrolledFor {s : Parser} {init : Stmt} {c step : Expr} {body : Stmt} {lo : Nat}
    (h : Numbered lo s.issued [init.nodeTree, c.nodeTree, step.nodeTree, body.nodeTree]) (span : Span) :
    Numbered lo (s.unrolledFor init c step body span).2.issued [(s.unrolledFor init c step body span).1.nodeTree] := by
  have hperm : [init.nodeTree, c.nodeTree, step.nodeTree, body.nodeTree].Perm
    [body.nodeTree, step.nodeTree, c.nodeTree, init.nodeTree] := (List.reverse_perm _).symm
  have hinner := Numbered.gather [body.nodeTree] (h.reorder hperm) (n := ⟨s.issued⟩) rfl
  have hstep := Numbered.gather [step.nodeTree] (hinner.reorder (.swap ..)) (n := ⟨s.issued + 1⟩) rfl
  have hbody := Numbered.gather [_, _] (hstep.reorder (.swap ..)) (n := ⟨s.issued + 2⟩) rfl
  have hloop := Numbered.gather [_, _] (hbody.reorder (.swap ..)) (n := ⟨s.issued + 3⟩) rfl
  exact (hloop.reorder (.swap ..)).node (n := ⟨s.issued + 4⟩) rfl

mutual

theorem YieldsStmt.numbered {s t : Parser} {x : Stmt} (h : YieldsStmt s x t) :
    Numbered s.issued t.issued [x.nodeTree] := by
  match h with
  | .simple _ h => exact h.numbered
  | .ret .. =>
    simp only [issued_fresh, issued_advance]
    exact .leaf (by simp)
  | .retValue (t := t) _ _ he _ =>
    have := he.numbered
    rw [issued_advance] at this
    rw [issued_fresh, issued_advance]
    exact this.node (issued_advance t)
  | .ifThen _ _ hc _ hx _ | .loop _ _ hc _ hx =>
    have hcond := hc.numbered
    have hthen := hx.numbered
    simp only [issued_advance] at hcond hthen
    exact (hcond.append hthen).node rfl
  | .ifElse _ _ hc _ hx _ hy =>
    have hcond := hc.numbered
    have hthen := hx.numbered
    have helse := hy.numbered
    simp only [issued_advance] at hcond hthen helse
    exact (hcond.append (hthen.append helse)).node rfl
  | .forLoop _ _ hi hc _ hn _ hb =>
    have hinit := hi.numbered
    have hcond := hc.numbered
    have hstep := hn.numbered
    have hbody := hb.numbered
    simp only [issued_advance] at hinit hcond hstep hbody
    exact numbered_unrolledFor (hinit.append (hcond.append (hstep.append hbody))) _
  | .block hb => exact hb.numbered

theorem YieldsBlock.numbered {s t : Parser} {b : Site × List Stmt} (h : YieldsBlock s b t) :
    Numbered s.issued t.issued [.node b.1.id (Stmt.nodeTrees b.2)] := by
  match h with
  | .mk (t := t) _ hb _ =>
    have := hb.numbered
    rw [issued_advance] at this
    rw [issued_fresh, issued_advance]
    exact this.node (issued_advance t)

theorem YieldsStmts.numbered {s t : Parser} {xs : List Stmt} (h : YieldsStmts s xs t) :
    Numbered s.issued t.issued (Stmt.nodeTrees xs) := by
  match h with
  | .nil _ => exact .nil _
  | .cons _ hx hxs => exact hx.numbered.append hxs.numbered

end

/-! ## Programs -/

theorem YieldsParam.numbered {s t : Parser} {p : Binder} (h : YieldsParam s p t) :
    Numbered s.issued t.issued [p.nodeTree] := by
  cases h
  simp only [issued_fresh, issued_advance]
  exact .leaf (by simp)

theorem YieldsParamList.numbered {s t : Parser} {ps : List Binder} (h : YieldsParamList s ps t) :
    Numbered s.issued t.issued (ps.map Binder.nodeTree) := by
  induction h with
  | last hp _ => exact hp.numbered
  | more hp _ _ ih =>
    rw [issued_advance] at ih
    exact hp.numbered.append ih

theorem YieldsParams.numbered {s t : Parser} {ps : List Binder} (h : YieldsParams s ps t) :
    Numbered s.issued t.issued (ps.map Binder.nodeTree) := by
  cases h with
  | none _ => exact .nil _
  | some _ hps => exact hps.numbered

theorem YieldsFunc.numbered {s t : Parser} {f : Func} (h : YieldsFunc s f t) :
    Numbered s.issued t.issued [f.nodeTree] := by
  cases h with
  | mk _ _ _ hps _ hb =>
    have hparams := hps.numbered
    have hbody := hb.numbered
    simp only [issued_advance] at hparams hbody
    exact (hparams.append hbody).node rfl

theorem YieldsFuncs.numbered {s t : Parser} {fs : List Func} (h : YieldsFuncs s fs t) :
    Numbered s.issued t.issued (fs.map Func.nodeTree) := by
  induction h with
  | nil _ => exact .nil _
  | cons _ hf _ ih => exact hf.numbered.append ih

/-- Between two states of a parser a program has the numbers that are given out. -/
theorem program_numbered {s t : Parser} {p : Program} (h : (program s).1 = (.ok p, t)) :
    Numbered s.issued t.issued [p.nodeTree] := by
  rw [program] at h
  obtain ⟨fs, u, hu, hf, hn⟩ := Reading.andThen_eq_ok.1 h
  cases hn
  exact (functions_eq_ok.1 hf).numbered.node rfl

end Parser

open MicroC.Parser

/-- **The nodes of a program are numbered without gaps, parts first.** Whatever tokens a program is parsed from, its
nodes have different numbers, these are the numbers below the count of those given out, and a node has a larger number
than all nodes below it. The numbers fit in 32 bits for fewer than `2 ^ 31` tokens (`Parser.issued_le`). -/
theorem program_postorder {tokens : List Token} {p : Program} {s : Parser}
    (h : (program (.ofTokens tokens)).1 = (.ok p, s)) :
    p.nodeTree.ids.Nodup ∧ (∀ n : NodeId, n ∈ p.nodeTree.ids ↔ n.index < s.numbering.issued) ∧
      ∀ x ∈ p.nodeTree.subtrees, ∀ n ∈ x.descendants, n < x.id := by
  have hnumbered : Numbered 0 s.issued [p.nodeTree] := program_numbered h
  have hids : idsAll [p.nodeTree] = p.nodeTree.ids := List.append_nil _
  have hsubtrees : subtreesAll [p.nodeTree] = p.nodeTree.subtrees := List.append_nil _
  have hperm := hnumbered.perm
  rw [hids] at hperm
  have hnodup : (p.nodeTree.ids.map NodeId.index).Nodup := hperm.nodup_iff.2 List.nodup_range'
  have hids : p.nodeTree.ids.Nodup := (List.pairwise_map.1 hnodup).imp fun hne heq => hne (congrArg NodeId.index heq)
  refine ⟨hids, fun n => ?_, hsubtrees ▸ hnumbered.above⟩
  have hindex : n.index ∈ p.nodeTree.ids.map NodeId.index ↔ n.index < s.issued := by
    rw [hperm.mem_iff, List.mem_range'_1, Nat.sub_zero, Nat.zero_add]
    exact and_iff_right (Nat.zero_le _)
  refine Iff.trans ⟨List.mem_map_of_mem, fun hn => ?_⟩ hindex
  obtain ⟨⟨i⟩, hm, rfl⟩ := List.mem_map.1 hn
  exact hm

/-- The tokens of `void f(int x) { for (; x; x) x; }`, in no particular places. -/
def loopTokens : List Token :=
  let name (n : String) : Token := ⟨.identifier, n, .point 1 1⟩
  let mark (k : TokenKind) (m : String) : Token := ⟨k, m, .point 1 1⟩
  [name "void", name "f", mark .leftParen "(", name "int", name "x", mark .rightParen ")", mark .leftBrace "\x7b",
    mark .forKw "for", mark .leftParen "(", mark .semicolon ";", name "x", mark .semicolon ";", name "x",
    mark .rightParen ")", name "x", mark .semicolon ";", mark .rightBrace "\x7d"]

/-- The loop among them is spelled out, with two blocks, a statement for the step, a loop and a block around it. The
fourteen nodes have the numbers up to thirteen. -/
theorem program_postorder_loop : ∃ p s, (program (.ofTokens loopTokens)).1 = (.ok p, s) ∧
    s.numbering.issued = 14 ∧ p.nodeTree.ids.Nodup ∧ (∀ n : NodeId, n ∈ p.nodeTree.ids ↔ n.index < 14) := by
  obtain ⟨fs, t, hfs, ht⟩ : ∃ fs t, YieldsFuncs (.ofTokens loopTokens) fs t ∧ t.issued = 13 := by
    refine ⟨?fs, ?t, ?parsed, ?issued⟩
    case parsed =>
      refine .cons ?_ (.mk ?_ ?_ ?_ (.some ?_ (.last (.mk ?_ ?_) ?_)) ?_ (.mk ?_ (.cons ?_ (.forLoop ?_ ?_ (.empty ?_)
        (.ofAtom (.var ?_ ?_ ?_) ?_ ?_) ?_ (.ofAtom (.var ?_ ?_ ?_) ?_ ?_) ?_ (.simple ?_ (.expr ?_ ?_
          (.ofAtom (.var ?_ ?_ ?_) ?_ ?_) ?_))) (.nil ?_)) ?_)) (.nil ?_)
      all_goals decide +kernel
    all_goals decide +kernel
  have hf := functions_eq_ok.2 hfs
  obtain ⟨p, s, hp, hs⟩ : ∃ p s, (program (.ofTokens loopTokens)).1 = (.ok p, s) ∧ s.issued = t.issued + 1 := by
    rw [program]
    exact ⟨_, _, Reading.andThen_eq_ok.2 ⟨fs, t, Reading.size_le_of_ok hf, hf, rfl⟩, rfl⟩
  have hissued : s.numbering.issued = 14 := hs.trans (congrArg (· + 1) ht)
  obtain ⟨hnodup, hids, -⟩ := program_postorder hp
  rw [hissued] at hids
  exact ⟨p, s, hp, hissued, hnodup, hids⟩

end MicroC
