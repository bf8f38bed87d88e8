import MicroC.Proofs.Parser.Language

/-!
# The numbers of nodes

Tables are keyed by the numbers of nodes, so no two nodes may share one. A parser only ever gives out the
next number, and the nodes read between two of its states have the numbers given out between them.

* `Expr.nodes`, `Stmt.nodes`, `Func.nodes`: the nodes that have a type.
* `Stmt.bare`, `Func.bare`, `Program.bare`: those that have none.
* `Issued`: numbers given out between two states, each once.
* **`nodup_numbers_of_parseProgram`**: all nodes of a parsed program have different numbers.
* `parseProgram_names`: the names of its functions are identifiers.
-/

namespace MicroC

/-! ## Nodes -/

mutual

/-- The nodes of an expression. -/
def Expr.nodes : Expr → List NodeId
  | .int s _ | .float s _ | .string s _ | .var s _ => [s.id]
  | .index s _ i => s.id :: i.nodes
  | .call s _ args => s.id :: Expr.nodesList args
  | .unary s _ _ x => s.id :: x.nodes
  | .binary s _ _ x y => s.id :: (x.nodes ++ y.nodes)

/-- The nodes of expressions. -/
def Expr.nodesList : List Expr → List NodeId
  | [] => []
  | e :: es => e.nodes ++ Expr.nodesList es

end

theorem Expr.id_mem_nodes (e : Expr) : e.id ∈ e.nodes := by
  cases e <;> exact List.mem_cons_self

/-- The nodes of an expression that may be missing. -/
def Expr.nodesOption : Option Expr → List NodeId
  | none => []
  | some e => e.nodes

mutual

/-- The nodes of a statement that have a type. -/
def Stmt.nodes : Stmt → List NodeId
  | .empty _ => []
  | .ite _ c t none => c.nodes ++ t.nodes
  | .ite _ c t (some e) => c.nodes ++ (t.nodes ++ e.nodes)
  | .loop _ c b => c.nodes ++ b.nodes
  | .ret _ v => Expr.nodesOption v
  | .expr _ e => e.nodes
  | .decl b init => b.site.id :: Expr.nodesOption init
  | .array b n => [b.site.id, n.site.id]
  | .block _ body => Stmt.nodesList body

/-- The nodes of statements that have a type. -/
def Stmt.nodesList : List Stmt → List NodeId
  | [] => []
  | s :: ss => s.nodes ++ Stmt.nodesList ss

end

/-- The nodes of a function that have a type. -/
def Func.nodes (f : Func) : List NodeId := f.params.map (·.site.id) ++ Stmt.nodesList f.body

mutual

/-- The nodes of a statement that have no type: all statements that are not declarations. -/
def Stmt.bare : Stmt → List NodeId
  | .empty s | .ret s _ | .expr s _ => [s.id]
  | .ite s _ t none => s.id :: t.bare
  | .ite s _ t (some e) => s.id :: (t.bare ++ e.bare)
  | .loop s _ b => s.id :: b.bare
  | .decl .. | .array .. => []
  | .block s body => s.id :: Stmt.bareList body

/-- The nodes of statements that have no type. -/
def Stmt.bareList : List Stmt → List NodeId
  | [] => []
  | s :: ss => s.bare ++ Stmt.bareList ss

end

/-- The nodes of a function that have no type: itself, its body and statements in it. -/
def Func.bare (f : Func) : List NodeId := f.id :: f.bodySite.id :: Stmt.bareList f.body

/-- The nodes of a program that have no type. -/
def Program.bare (p : Program) : List NodeId := p.site.id :: p.functions.flatMap Func.bare

namespace Parser

/-! ## Numbers given out -/

/-- How many numbers were given out. -/
def issued (s : Parser) : Nat := s.numbering.issued

@[simp] theorem issued_advance (s : Parser) : s.advance.issued = s.issued := by
  unfold advance
  split
  · rfl
  · split <;> rfl

@[simp] theorem issued_fresh (s : Parser) (span : Span) : (s.fresh span).2.issued = s.issued + 1 := rfl

@[simp] theorem index_fresh (s : Parser) (span : Span) : (s.fresh span).1.id.index = s.issued := rfl

/-- Numbers from `lo` up to `hi`, each once. -/
structure Issued (lo hi : Nat) (ns : List NodeId) : Prop where
  le : lo ≤ hi
  nodup : ns.Nodup
  range : ∀ n ∈ ns, lo ≤ n.index ∧ n.index < hi

namespace Issued

variable {lo mid hi : Nat} {ms ns : List NodeId}

theorem nil (n : Nat) : Issued n n [] := ⟨Nat.le_refl _, List.nodup_nil, nofun⟩

theorem append (h : Issued lo mid ms) (h' : Issued mid hi ns) : Issued lo hi (ms ++ ns) := by
  refine ⟨Nat.le_trans h.le h'.le, ?_, fun n hn => ?_⟩
  · rw [List.nodup_append]
    refine ⟨h.nodup, h'.nodup, ?_⟩
    rintro m hm _ hn rfl
    have := h.range m hm
    have := h'.range m hn
    omega
  · rcases List.mem_append.1 hn with hn | hn
    · have := h.range n hn
      have := h'.le
      omega
    · have := h'.range n hn
      have := h.le
      omega

theorem of_count (h : Issued lo hi ms) (hc : ∀ n, ns.count n = ms.count n) : Issued lo hi ns := by
  have hp : ms.Perm ns := List.perm_iff_count.2 fun n => (hc n).symm
  exact ⟨h.le, hp.nodup h.nodup, fun n hn => h.range n (hp.mem_iff.2 hn)⟩

theorem node (h : Issued lo hi ns) {n : NodeId} (hn : n.index = hi) : Issued lo (hi + 1) (n :: ns) := by
  refine ⟨Nat.le_succ_of_le h.le, List.nodup_cons.2 ⟨fun hmem => ?_, h.nodup⟩, fun m hm => ?_⟩
  · have := h.range n hmem
    omega
  · have := h.le
    rcases List.mem_cons.1 hm with rfl | hm
    · omega
    · have := h.range m hm
      omega

theorem cons (h : Issued (lo + 1) hi ns) {n : NodeId} (hn : n.index = lo) : Issued lo hi (n :: ns) := by
  have hone : Issued lo (lo + 1) [n] := (Issued.nil lo).node hn
  exact hone.append h

end Issued

/-! ## Expressions -/

mutual

theorem Yields.issued {l : Level} {s t : Parser} {e : Expr} (h : Yields l s e t) :
    Issued s.issued t.issued e.nodes := by
  match h with
  | .layer _ hx ho => exact ho.issued hx.issued
  | .signed _ hx =>
    have := hx.issued
    rw [issued_advance] at this
    exact this.node rfl
  | .unsigned _ hx => exact hx.issued
  | .int .. | .float .. | .string .. | .var .. =>
    rw [issued_fresh, issued_advance]
    exact (Issued.nil _).node (issued_advance s)
  | .paren _ he _ =>
    have := he.issued
    rw [issued_advance] at this
    rw [issued_advance]
    exact this
  | .index (t := t) _ _ hi _ =>
    have := hi.issued
    rw [issued_advance, issued_advance] at this
    rw [issued_fresh, issued_advance]
    exact this.node (issued_advance t)
  | .call (t := t) _ _ ha _ =>
    have := ha.issued
    rw [issued_advance, issued_advance] at this
    rw [issued_fresh, issued_advance]
    exact this.node (issued_advance t)

theorem Continues.issued {l : Level} {lhs e : Expr} {s t : Parser} (h : Continues l lhs s e t)
    {lo : Nat} (hl : Issued lo s.issued lhs.nodes) : Issued lo t.issued e.nodes := by
  match h with
  | .stop _ => exact hl
  | .right _ _ hx | .once _ _ hx _ =>
    have := hx.issued
    rw [issued_advance] at this
    exact (hl.append this).node rfl
  | .left _ _ hx ho =>
    have := hx.issued
    rw [issued_advance] at this
    exact ho.issued ((hl.append this).node rfl)

theorem Arguments.issued {s t : Parser} {es : List Expr} (h : Arguments s es t) :
    Issued s.issued t.issued (Expr.nodesList es) := by
  match h with
  | .none _ => exact .nil _
  | .some _ he => exact he.issued

theorem ArgumentList.issued {s t : Parser} {es : List Expr} (h : ArgumentList s es t) :
    Issued s.issued t.issued (Expr.nodesList es) := by
  match h with
  | .last he _ =>
    have := he.issued
    rwa [Expr.nodesList, Expr.nodesList, List.append_nil]
  | .more he _ hes =>
    have hrest := hes.issued
    rw [issued_advance] at hrest
    exact he.issued.append hrest

end

/-! ## Statements -/

theorem YieldsSimple.issued {s t : Parser} {x : Stmt} (h : YieldsSimple s x t) :
    Issued s.issued t.issued (x.bare ++ x.nodes) := by
  cases h with
  | empty h =>
    rw [issued_fresh, issued_advance]
    exact (Issued.nil _).node (by simp)
  | @expr t e _ _ he _ =>
    rw [issued_fresh, issued_advance]
    exact he.issued.node (issued_advance t)
  | decl _ _ =>
    simp only [issued_fresh, issued_advance]
    exact (Issued.nil _).node (by simp)
  | @init t e _ _ he _ =>
    have := he.issued
    simp only [issued_advance] at this
    simp only [issued_fresh, issued_advance]
    exact this.node (issued_advance t)
  | @array a t v _ _ ha _ _ ht _ _ =>
    subst ha ht
    simp only [issued_fresh, issued_advance]
    exact ((Issued.nil s.issued).node (by simp)).node (by simp)

/-- The statements around the parts of a loop get their numbers last, from the inside out. -/
theorem issued_unrolledFor {s : Parser} {init : Stmt} {c step : Expr} {body : Stmt} {lo : Nat}
    (h : Issued lo s.issued (init.bare ++ init.nodes ++ (c.nodes ++ (step.nodes ++ (body.bare ++ body.nodes)))))
    (span : Span) : Issued lo (s.unrolledFor init c step body span).2.issued
      ((s.unrolledFor init c step body span).1.bare ++ (s.unrolledFor init c step body span).1.nodes) := by
  have hall := ((((h.node (n := ⟨s.issued⟩) rfl).node (n := ⟨s.issued + 1⟩) rfl).node (n := ⟨s.issued + 2⟩) rfl).node
    (n := ⟨s.issued + 3⟩) rfl).node (n := ⟨s.issued + 4⟩) rfl
  refine hall.of_count fun n => ?_
  show ((⟨s.issued + 4⟩ :: (init.bare ++ (⟨s.issued + 3⟩ :: ⟨s.issued + 2⟩ :: ((⟨s.issued⟩ :: (body.bare ++ [])) ++
    ([⟨s.issued + 1⟩] ++ [])) ++ []))) ++ (init.nodes ++ (c.nodes ++ (body.nodes ++ [] ++ (step.nodes ++ [])) ++
      [])) : List NodeId).count n = _
  simp only [List.append_nil, List.count_append, List.count_cons, List.count_nil]
  omega

mutual

theorem YieldsStmt.issued {s t : Parser} {x : Stmt} (h : YieldsStmt s x t) :
    Issued s.issued t.issued (x.bare ++ x.nodes) := by
  match h with
  | .simple _ h => exact h.issued
  | .ret .. =>
    simp only [issued_fresh, issued_advance]
    exact (Issued.nil _).node (by simp)
  | .retValue (t := t) _ _ he _ =>
    have := he.issued
    rw [issued_advance] at this
    rw [issued_fresh, issued_advance]
    exact this.node (issued_advance t)
  | .ifThen _ _ hc _ hx _ =>
    have h1 := hc.issued
    have h2 := hx.issued
    simp only [issued_advance] at h1 h2
    rw [issued_fresh]
    refine Issued.node ((h1.append h2).of_count fun n => ?_) rfl
    simp only [List.append_eq, Stmt.nodes, List.count_append]
    omega
  | .ifElse _ _ hc _ hx _ hy =>
    have h1 := hc.issued
    have h2 := hx.issued
    have h3 := hy.issued
    simp only [issued_advance] at h1 h2 h3
    rw [issued_fresh]
    refine Issued.node ((h1.append (h2.append h3)).of_count fun n => ?_) rfl
    simp only [List.append_eq, Stmt.nodes, List.count_append]
    omega
  | .loop _ _ hc _ hx =>
    have h1 := hc.issued
    have h2 := hx.issued
    simp only [issued_advance] at h1 h2
    rw [issued_fresh]
    refine Issued.node ((h1.append h2).of_count fun n => ?_) rfl
    simp only [List.append_eq, Stmt.nodes, List.count_append]
    omega
  | .forLoop _ _ hi hc _ hn _ hb =>
    have h1 := hi.issued
    have h2 := hc.issued
    have h3 := hn.issued
    have h4 := hb.issued
    simp only [issued_advance] at h1 h2 h3 h4
    -- The step is read in front of the body.
    exact issued_unrolledFor (h1.append (h2.append (h3.append h4))) _
  | .block hb => exact hb.issued

theorem YieldsBlock.issued {s t : Parser} {b : Site × List Stmt} (h : YieldsBlock s b t) :
    Issued s.issued t.issued (b.1.id :: (Stmt.bareList b.2 ++ Stmt.nodesList b.2)) := by
  match h with
  | .mk (t := t) _ hb _ =>
    have := hb.issued
    rw [issued_advance] at this
    rw [issued_fresh, issued_advance]
    exact this.node (issued_advance t)

theorem YieldsStmts.issued {s t : Parser} {xs : List Stmt} (h : YieldsStmts s xs t) :
    Issued s.issued t.issued (Stmt.bareList xs ++ Stmt.nodesList xs) := by
  match h with
  | .nil _ => exact .nil _
  | .cons _ hx hxs =>
    refine (hx.issued.append hxs.issued).of_count fun n => ?_
    simp only [Stmt.bareList, Stmt.nodesList, List.count_append]
    omega

end

/-! ## Programs -/

theorem YieldsParamList.issued {s t : Parser} {ps : List Binder} (h : YieldsParamList s ps t) :
    Issued s.issued t.issued (ps.map (·.site.id)) := by
  induction h with
  | last hp _ =>
    cases hp
    simp only [issued_fresh, issued_advance]
    exact (Issued.nil _).node (by simp)
  | @more s t u p ps hp _ hps ih =>
    cases hp
    simp only [issued_fresh, issued_advance] at ih
    exact ih.cons (by simp)

theorem YieldsParams.issued {s t : Parser} {ps : List Binder} (h : YieldsParams s ps t) :
    Issued s.issued t.issued (ps.map (·.site.id)) := by
  cases h with
  | none _ => exact .nil _
  | some _ hps => exact hps.issued

theorem YieldsFunc.issued {s t : Parser} {f : Func} (h : YieldsFunc s f t) :
    Issued s.issued t.issued (f.bare ++ f.nodes) := by
  cases h with
  | mk _ _ _ hps _ hb =>
    have h1 := hps.issued
    have h2 := hb.issued
    simp only [issued_advance] at h1 h2
    rw [issued_fresh]
    refine Issued.node ((h1.append h2).of_count fun n => ?_) rfl
    simp only [List.append_eq, Func.nodes, List.count_append, List.count_cons]
    omega

theorem YieldsFuncs.issued {s t : Parser} {fs : List Func} (h : YieldsFuncs s fs t) :
    Issued s.issued t.issued (fs.flatMap Func.bare ++ fs.flatMap Func.nodes) := by
  induction h with
  | nil _ => exact .nil _
  | cons _ hf _ ih =>
    refine (hf.issued.append ih).of_count fun n => ?_
    simp only [List.flatMap_cons, List.count_append]
    omega

/-- The number of a program is given out last. -/
theorem program_issued {s t : Parser} {p : Program} (h : (program s).1 = (.ok p, t)) :
    Issued s.issued t.issued (p.bare ++ p.functions.flatMap Func.nodes) := by
  rw [program] at h
  obtain ⟨fs, u, hu, hf, hn⟩ := Reading.andThen_eq_ok.1 h
  cases hn
  exact (functions_eq_ok.1 hf).issued.node rfl

end Parser

open MicroC.Parser

/-- **All nodes of a parsed program have different numbers**, those with a type and those without. -/
theorem nodup_numbers_of_parseProgram {source : String} {p : Program} (h : parseProgram source = .ok p) :
    (p.bare ++ p.functions.flatMap Func.nodes).Nodup := by
  obtain ⟨-, s, hp, -⟩ := parseSource_eq_ok.1 h
  exact (program_issued hp).nodup

theorem nodup_nodes_of_parseProgram {source : String} {p : Program} (h : parseProgram source = .ok p) :
    (p.functions.flatMap Func.nodes).Nodup := (List.nodup_append.1 (nodup_numbers_of_parseProgram h)).2.1

/-! ## Names -/

/-- A text that can name something. -/
def IsName (n : String) : Prop :=
  ∃ c cs, n.toList = c :: cs ∧ c.isAlpha = true ∧ ∀ d ∈ c :: cs, Piece.continuesName d = true

theorem isName_of_routines {b : Bool} {ts : List Token} {rs : List Grammar.Routine}
    (h : Grammar.Routines b ts rs) (hts : ∀ t ∈ ts, t.Regular) : ∀ r ∈ rs, IsName r.name := by
  induction h with
  | nil => nofun
  | cons _ hn _ _ _ _ _ _ _ ih =>
    simp only [List.cons_append, List.mem_cons, List.mem_append] at hts
    intro r hr
    rcases List.mem_cons.1 hr with rfl | hr
    · exact (hts _ (.inr (.inl rfl))).name hn
    · exact ih (fun t ht => hts t (by simp [ht])) r hr

theorem parseProgram_names {source : String} {p : Program} (h : parseProgram source = .ok p) :
    ∀ f ∈ p.functions, IsName f.name.name := by
  obtain ⟨-, hd⟩ := (parseProgram_iff source _).1 ⟨p, h, rfl⟩
  intro f hf
  exact isName_of_routines hd (fun t ht => regular_of_mem_tokens ht) f.routine (List.mem_map_of_mem hf)

end MicroC
