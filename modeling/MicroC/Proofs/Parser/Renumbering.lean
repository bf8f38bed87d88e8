import Mathlib.Data.List.Forall2
import Mathlib.Data.List.Nodup
import MicroC.Proofs.Parser.Numbering

/-!
# Programs up to their numbers

Two sources with the same tree are parsed to programs that differ in the numbers and the places of their
nodes only, and their numbers correspond one to one.

* `OneToOne`: a correspondence of numbers.
* `Expr.Like`, `Stmt.Like`, `Func.Like`: the same trees, with numbers that correspond.
* **`like_of_routines`**: programs with the same tree are alike.
-/

namespace MicroC

open Grammar

/-! ## Correspondence -/

/-- No number corresponds to two others, in either direction. -/
def OneToOne (R : NodeId → NodeId → Prop) : Prop :=
  ∀ ⦃i i' j j' : NodeId⦄, R i i' → R j j' → (i = j ↔ i' = j')

theorem OneToOne.eq : OneToOne Eq := by
  rintro i _ j _ rfl rfl
  exact Iff.rfl

mutual

/-- Expressions that differ in numbers and places only. -/
inductive Expr.Like (R : NodeId → NodeId → Prop) : Expr → Expr → Prop
  | int {s s' : Site} {v : Int64} (hs : R s.id s'.id) : Expr.Like R (.int s v) (.int s' v)
  | float {s s' : Site} {v : Binary64} (hs : R s.id s'.id) : Expr.Like R (.float s v) (.float s' v)
  | string {s s' : Site} {v : String} (hs : R s.id s'.id) : Expr.Like R (.string s v) (.string s' v)
  | var {s s' : Site} {n n' : Ident} (hs : R s.id s'.id) (hn : n.name = n'.name) :
      Expr.Like R (.var s n) (.var s' n')
  | index {s s' : Site} {n n' : Ident} {x x' : Expr} (hs : R s.id s'.id) (hn : n.name = n'.name)
      (hx : Expr.Like R x x') : Expr.Like R (.index s n x) (.index s' n' x')
  | call {s s' : Site} {n n' : Ident} {xs xs' : List Expr} (hs : R s.id s'.id) (hn : n.name = n'.name)
      (hxs : Expr.LikeList R xs xs') : Expr.Like R (.call s n xs) (.call s' n' xs')
  | unary {s s' : Site} {op : UnaryOp} {o o' : Span} {x x' : Expr} (hs : R s.id s'.id)
      (hx : Expr.Like R x x') : Expr.Like R (.unary s op o x) (.unary s' op o' x')
  | binary {s s' : Site} {op : BinaryOp} {o o' : Span} {x x' y y' : Expr} (hs : R s.id s'.id)
      (hx : Expr.Like R x x') (hy : Expr.Like R y y') :
      Expr.Like R (.binary s op o x y) (.binary s' op o' x' y')

inductive Expr.LikeList (R : NodeId → NodeId → Prop) : List Expr → List Expr → Prop
  | nil : Expr.LikeList R [] []
  | cons {x x' : Expr} {xs xs' : List Expr} (hx : Expr.Like R x x') (hxs : Expr.LikeList R xs xs') :
      Expr.LikeList R (x :: xs) (x' :: xs')

end

/-- Declared names that differ in number and place only. -/
structure Binder.Like (R : NodeId → NodeId → Prop) (b b' : Binder) : Prop where
  site : R b.site.id b'.site.id
  type : b.type.name = b'.type.name
  name : b.name.name = b'.name.name

mutual

/-- Statements that differ in numbers and places only. Numbers that no table holds need not correspond. -/
inductive Stmt.Like (R : NodeId → NodeId → Prop) : Stmt → Stmt → Prop
  | empty {s s' : Site} : Stmt.Like R (.empty s) (.empty s')
  | ifThen {s s' : Site} {c c' : Expr} {x x' : Stmt} (hc : c.Like R c') (hx : Stmt.Like R x x') :
      Stmt.Like R (.ite s c x none) (.ite s' c' x' none)
  | ifElse {s s' : Site} {c c' : Expr} {x x' y y' : Stmt} (hc : c.Like R c') (hx : Stmt.Like R x x')
      (hy : Stmt.Like R y y') : Stmt.Like R (.ite s c x (some y)) (.ite s' c' x' (some y'))
  | loop {s s' : Site} {c c' : Expr} {x x' : Stmt} (hc : c.Like R c') (hx : Stmt.Like R x x') :
      Stmt.Like R (.loop s c x) (.loop s' c' x')
  | ret {s s' : Site} : Stmt.Like R (.ret s none) (.ret s' none)
  | retValue {s s' : Site} {e e' : Expr} (he : e.Like R e') : Stmt.Like R (.ret s (some e)) (.ret s' (some e'))
  | expr {s s' : Site} {e e' : Expr} (he : e.Like R e') : Stmt.Like R (.expr s e) (.expr s' e')
  | decl {b b' : Binder} (hb : b.Like R b') : Stmt.Like R (.decl b none) (.decl b' none)
  | init {b b' : Binder} {e e' : Expr} (hb : b.Like R b') (he : e.Like R e') :
      Stmt.Like R (.decl b (some e)) (.decl b' (some e'))
  | array {b b' : Binder} {s s' : Site} {v : Int64} (hb : b.Like R b') (hs : R s.id s'.id) :
      Stmt.Like R (.array b ⟨s, v⟩) (.array b' ⟨s', v⟩)
  | block {s s' : Site} {xs xs' : List Stmt} (hxs : Stmt.LikeList R xs xs') :
      Stmt.Like R (.block s xs) (.block s' xs')

inductive Stmt.LikeList (R : NodeId → NodeId → Prop) : List Stmt → List Stmt → Prop
  | nil : Stmt.LikeList R [] []
  | cons {x x' : Stmt} {xs xs' : List Stmt} (hx : Stmt.Like R x x') (hxs : Stmt.LikeList R xs xs') :
      Stmt.LikeList R (x :: xs) (x' :: xs')

end

/-- Functions that differ in numbers and places only. -/
structure Func.Like (R : NodeId → NodeId → Prop) (f f' : Func) : Prop where
  returns : f.returns.name = f'.returns.name
  name : f.name.name = f'.name.name
  params : List.Forall₂ (Binder.Like R) f.params f'.params
  body : Stmt.LikeList R f.body f'.body

open MicroC.Parser

/-! ## Programs with the same tree -/

/-- Numbers that stand side by side in two lists correspond, and that is enough for `P`. -/
def Matches (ns ns' : List NodeId) (P : (NodeId → NodeId → Prop) → Prop) : Prop :=
  ∃ zs : List (NodeId × NodeId), zs.map Prod.fst = ns ∧ zs.map Prod.snd = ns' ∧
    ∀ R : NodeId → NodeId → Prop, (∀ z ∈ zs, R z.1 z.2) → P R

namespace Matches

variable {ns ns' ms ms' : List NodeId} {P Q : (NodeId → NodeId → Prop) → Prop}

theorem nil (h : ∀ R, P R) : Matches [] [] P := ⟨[], rfl, rfl, fun R _ => h R⟩

theorem mono (h : Matches ns ns' P) (hPQ : ∀ R, P R → Q R) : Matches ns ns' Q := by
  obtain ⟨zs, hfst, hsnd, hzs⟩ := h
  exact ⟨zs, hfst, hsnd, fun R hR => hPQ R (hzs R hR)⟩

theorem append (h : Matches ns ns' P) (h' : Matches ms ms' Q) :
    Matches (ns ++ ms) (ns' ++ ms') fun R => P R ∧ Q R := by
  obtain ⟨zs, rfl, rfl, hzs⟩ := h
  obtain ⟨ws, rfl, rfl, hws⟩ := h'
  refine ⟨zs ++ ws, List.map_append, List.map_append, fun R hR => ⟨hzs R ?_, hws R ?_⟩⟩
  · exact fun z hz => hR z (List.mem_append_left _ hz)
  · exact fun z hz => hR z (List.mem_append_right _ hz)

theorem cons (h : Matches ns ns' P) (i i' : NodeId) : Matches (i :: ns) (i' :: ns') fun R => R i i' ∧ P R := by
  obtain ⟨zs, rfl, rfl, hzs⟩ := h
  exact ⟨(i, i') :: zs, rfl, rfl, fun R hR => ⟨hR _ List.mem_cons_self, hzs R fun z hz => hR z (.tail _ hz)⟩⟩

theorem one (i i' : NodeId) : Matches [i] [i'] fun R => R i i' :=
  ((nil (P := fun _ => True) fun _ => trivial).cons i i').mono fun _ h => h.1

theorem oneToOne (h : Matches ns ns' P) (hns : ns.Nodup) (hns' : ns'.Nodup) : ∃ R, OneToOne R ∧ P R := by
  obtain ⟨zs, rfl, rfl, hzs⟩ := h
  refine ⟨fun i i' => (i, i') ∈ zs, ?_, hzs _ fun z hz => hz⟩
  intro i i' j j' hi hj
  constructor
  · intro heq
    exact congrArg Prod.snd (List.inj_on_of_nodup_map hns hi hj heq)
  · intro heq
    exact congrArg Prod.fst (List.inj_on_of_nodup_map hns' hi hj heq)

theorem self (h : Matches ns ns P) : P Eq := by
  obtain ⟨zs, hfst, hsnd, hzs⟩ := h
  refine hzs Eq fun z hz => ?_
  exact List.map_inj_left.1 (hfst.trans hsnd.symm) z hz

end Matches

mutual

theorem Expr.like_of_term (e e' : Expr) (h : e.term = e'.term) :
    Matches e.nodes e'.nodes fun R => e.Like R e' := by
  match e with
  | .int s v =>
    cases e' <;> simp only [Expr.term, reduceCtorEq, Term.int.injEq] at h
    case int s' v' =>
    obtain rfl := Int64.toInt_inj.1 h
    exact (Matches.one s.id s'.id).mono fun _ => .int
  | .float s v =>
    cases e' <;> simp only [Expr.term, reduceCtorEq, Term.float.injEq, Option.some.injEq] at h
    case float s' v' =>
    subst h
    exact (Matches.one s.id s'.id).mono fun _ => .float
  | .string s v =>
    cases e' <;> simp only [Expr.term, reduceCtorEq, Term.string.injEq] at h
    case string s' v' =>
    subst h
    exact (Matches.one s.id s'.id).mono fun _ => .string
  | .var s n =>
    cases e' <;> simp only [Expr.term, reduceCtorEq, Term.var.injEq] at h
    case var s' n' =>
    exact (Matches.one s.id s'.id).mono fun _ hs => .var hs h
  | .index s n x =>
    cases e' <;> simp only [Expr.term, reduceCtorEq, Term.index.injEq] at h
    case index s' n' x' =>
    exact ((Expr.like_of_term x x' h.2).cons s.id s'.id).mono fun _ hR => .index hR.1 h.1 hR.2
  | .call s n xs =>
    cases e' <;> simp only [Expr.term, reduceCtorEq, Term.call.injEq] at h
    case call s' n' xs' =>
    exact ((Expr.likeList_of_terms h.2).cons s.id s'.id).mono fun _ hR => .call hR.1 h.1 hR.2
  | .unary s op _ x =>
    cases e' <;> simp only [Expr.term, reduceCtorEq, Term.unary.injEq] at h
    case unary s' op' _ x' =>
    obtain ⟨rfl, hx⟩ := h
    exact ((Expr.like_of_term x x' hx).cons s.id s'.id).mono fun _ hR => .unary hR.1 hR.2
  | .binary s op _ x y =>
    cases e' <;> simp only [Expr.term, reduceCtorEq, Term.binary.injEq] at h
    case binary s' op' _ x' y' =>
    obtain ⟨rfl, hx, hy⟩ := h
    have hxy := (Expr.like_of_term x x' hx).append (Expr.like_of_term y y' hy)
    exact (hxy.cons s.id s'.id).mono fun _ hR => .binary hR.1 hR.2.1 hR.2.2

theorem Expr.likeList_of_terms {es es' : List Expr} (h : Expr.terms es = Expr.terms es') :
    Matches (Expr.nodesList es) (Expr.nodesList es') fun R => Expr.LikeList R es es' := by
  match es with
  | [] =>
    cases es' <;> simp only [Expr.terms, reduceCtorEq] at h
    exact .nil fun _ => .nil
  | x :: xs =>
    cases es' <;> simp only [Expr.terms, reduceCtorEq, List.cons.injEq] at h
    case cons x' xs' =>
    have hxs := (Expr.like_of_term x x' h.1).append (Expr.likeList_of_terms h.2)
    exact hxs.mono fun _ hR => .cons hR.1 hR.2

end

theorem Binder.like_of_names {b b' : Binder} (htype : b.type.name = b'.type.name)
    (hname : b.name.name = b'.name.name) : Matches [b.site.id] [b'.site.id] fun R => b.Like R b' :=
  (Matches.one _ _).mono fun _ hs => ⟨hs, htype, hname⟩

mutual

theorem Stmt.like_of_phrase (x x' : Stmt) (h : x.phrase = x'.phrase) :
    Matches x.nodes x'.nodes fun R => x.Like R x' := by
  match x with
  | .empty s =>
    fun_cases Stmt.phrase x' <;> simp only [Stmt.phrase, reduceCtorEq] at h
    exact .nil fun _ => .empty
  | .ite s c y none =>
    fun_cases Stmt.phrase x' <;> simp only [Stmt.phrase, reduceCtorEq, Phrase.ite.injEq, and_true, and_false] at h
    rename_i s' c' y'
    have hc := Expr.like_of_term c c' h.1
    exact (hc.append (Stmt.like_of_phrase y y' h.2)).mono fun _ hR => .ifThen hR.1 hR.2
  | .ite s c y (some z) =>
    fun_cases Stmt.phrase x' <;>
      simp only [Stmt.phrase, reduceCtorEq, Phrase.ite.injEq, Option.some.injEq, and_false] at h
    rename_i s' c' y' z'
    have hc := Expr.like_of_term c c' h.1
    have hy := Stmt.like_of_phrase y y' h.2.1
    have hz := Stmt.like_of_phrase z z' h.2.2
    exact (hc.append (hy.append hz)).mono fun _ hR => .ifElse hR.1 hR.2.1 hR.2.2
  | .loop s c y =>
    fun_cases Stmt.phrase x' <;> simp only [Stmt.phrase, reduceCtorEq, Phrase.loop.injEq] at h
    rename_i s' c' y'
    have hc := Expr.like_of_term c c' h.1
    exact (hc.append (Stmt.like_of_phrase y y' h.2)).mono fun _ hR => .loop hR.1 hR.2
  | .ret s none =>
    fun_cases Stmt.phrase x' <;> simp only [Stmt.phrase, reduceCtorEq, Phrase.ret.injEq] at h
    exact .nil fun _ => .ret
  | .ret s (some e) =>
    fun_cases Stmt.phrase x' <;> simp only [Stmt.phrase, reduceCtorEq, Phrase.ret.injEq, Option.some.injEq] at h
    rename_i s' e'
    exact (Expr.like_of_term e e' h).mono fun _ => .retValue
  | .expr s e =>
    fun_cases Stmt.phrase x' <;> simp only [Stmt.phrase, reduceCtorEq, Phrase.expr.injEq] at h
    rename_i s' e'
    exact (Expr.like_of_term e e' h).mono fun _ => .expr
  | .decl b none =>
    fun_cases Stmt.phrase x' <;> simp only [Stmt.phrase, reduceCtorEq, Phrase.decl.injEq, and_true, and_false] at h
    rename_i b'
    exact (Binder.like_of_names h.1 h.2).mono fun _ => .decl
  | .decl b (some e) =>
    fun_cases Stmt.phrase x' <;>
      simp only [Stmt.phrase, reduceCtorEq, Phrase.decl.injEq, Option.some.injEq, and_false] at h
    rename_i b' e'
    have hb := Binder.like_of_names h.1 h.2.1
    exact (hb.append (Expr.like_of_term e e' h.2.2)).mono fun _ hR => .init hR.1 hR.2
  | .array b ⟨s, v⟩ =>
    fun_cases Stmt.phrase x' <;> simp only [Stmt.phrase, reduceCtorEq, Phrase.array.injEq] at h
    rename_i b' n'
    obtain ⟨s', v'⟩ := n'
    obtain rfl := Int64.toInt_inj.1 h.2.2
    have hb := Binder.like_of_names h.1 h.2.1
    exact (hb.append (.one s.id s'.id)).mono fun _ hR => .array hR.1 hR.2
  | .block s ys =>
    fun_cases Stmt.phrase x' <;> simp only [Stmt.phrase, reduceCtorEq, Phrase.block.injEq] at h
    rename_i s' ys'
    exact (Stmt.likeList_of_phrases ys ys' h).mono fun _ => .block

theorem Stmt.likeList_of_phrases (xs xs' : List Stmt) (h : Stmt.phrases xs = Stmt.phrases xs') :
    Matches (Stmt.nodesList xs) (Stmt.nodesList xs') fun R => Stmt.LikeList R xs xs' := by
  match xs with
  | [] =>
    cases xs' <;> simp only [Stmt.phrases, reduceCtorEq] at h
    exact .nil fun _ => .nil
  | x :: xs =>
    cases xs' <;> simp only [Stmt.phrases, reduceCtorEq, List.cons.injEq] at h
    case cons x' xs' =>
    have hx := Stmt.like_of_phrase x x' h.1
    exact (hx.append (Stmt.likeList_of_phrases xs xs' h.2)).mono fun _ hR => .cons hR.1 hR.2

end

theorem Binder.likes_of_params {bs bs' : List Binder} (h : bs.map Binder.param = bs'.map Binder.param) :
    Matches (bs.map (·.site.id)) (bs'.map (·.site.id)) fun R => List.Forall₂ (Binder.Like R) bs bs' := by
  induction bs generalizing bs' with
  | nil =>
    obtain rfl := List.map_eq_nil_iff.1 h.symm
    exact .nil fun _ => .nil
  | cons b bs ih =>
    obtain ⟨b', bs', rfl, hb, hbs⟩ := List.map_eq_cons_iff.1 h.symm
    obtain ⟨htype, hname⟩ := Param.mk.inj hb.symm
    exact ((Binder.like_of_names htype hname).append (ih hbs.symm)).mono fun _ hR => .cons hR.1 hR.2

theorem Func.like_of_routine {f f' : Func} (h : f.routine = f'.routine) :
    Matches f.nodes f'.nodes fun R => f.Like R f' := by
  obtain ⟨hreturns, hname, hparams, hbody⟩ := Routine.mk.inj h
  have hbody := Stmt.likeList_of_phrases _ _ hbody
  exact ((Binder.likes_of_params hparams).append hbody).mono fun _ hR => ⟨hreturns, hname, hR.1, hR.2⟩

theorem Func.like_self (f : Func) : f.Like Eq f := (Func.like_of_routine rfl).self

theorem Func.likes_of_routines {fs fs' : List Func} (h : fs.map Func.routine = fs'.map Func.routine) :
    Matches (fs.flatMap Func.nodes) (fs'.flatMap Func.nodes) fun R => List.Forall₂ (Func.Like R) fs fs' := by
  induction fs generalizing fs' with
  | nil =>
    obtain rfl := List.map_eq_nil_iff.1 h.symm
    exact .nil fun _ => .nil
  | cons f fs ih =>
    obtain ⟨f', fs', rfl, hf, hfs⟩ := List.map_eq_cons_iff.1 h.symm
    rw [List.flatMap_cons, List.flatMap_cons]
    exact ((Func.like_of_routine hf.symm).append (ih hfs.symm)).mono fun _ hR => .cons hR.1 hR.2

/-- **Parsed programs with the same tree differ in numbers and places only.** -/
theorem like_of_routines {source source' : String} {p p' : Program} (h : parseProgram source = .ok p)
    (h' : parseProgram source' = .ok p') (ht : p.routines = p'.routines) :
    ∃ R, OneToOne R ∧ List.Forall₂ (Func.Like R) p.functions p'.functions :=
  (Func.likes_of_routines ht).oneToOne (nodup_nodes_of_parseProgram h) (nodup_nodes_of_parseProgram h')

end MicroC
