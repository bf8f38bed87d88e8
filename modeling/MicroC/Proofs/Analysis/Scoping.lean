import Mathlib.Data.List.Nodup
import Mathlib.Data.List.Pairwise
import MicroC.Proofs.Analysis.Calls

/-!
# Lexical scoping

Which declaration a use of a variable refers to, told by where the use stands: each scope around it has
declarations in front of the use, and the innermost scope with one of that name counts. The analysis
records just that.

* `Expr.uses`, `Stmt.uses`: the uses of variables.
* `Stmt.declares`, `Stmt.scopes`: what a statement declares, and the scopes inside it.
* `Stmt.Uses`: a use, with the declarations in front of it in all scopes around it.
* `Refers`: the declaration that a name refers to.
* `binds_resolve`: what the pass does with the uses of functions.
* **`resolved_lexically`**: it succeeds exactly when every use refers to a declaration and no scope declares
  a name twice, and records each use with the declaration it refers to.
-/

namespace MicroC

/-! ## Uses and declarations -/

/-- A use of a variable. -/
structure Use where
  id : NodeId
  name : String
deriving DecidableEq

mutual

/-- The uses of variables in an expression. -/
def Expr.uses : Expr → List Use
  | .int .. | .float .. | .string .. => []
  | .var s n => [⟨s.id, n.name⟩]
  | .index s n i => i.uses ++ [⟨s.id, n.name⟩]
  | .call _ _ args => Expr.usesList args
  | .unary _ _ _ x => x.uses
  | .binary _ _ _ x y => x.uses ++ y.uses

def Expr.usesList : List Expr → List Use
  | [] => []
  | e :: es => e.uses ++ Expr.usesList es

end

def Expr.usesOption : Option Expr → List Use
  | none => []
  | some e => e.uses

mutual

/-- The uses of variables in a statement. -/
def Stmt.uses : Stmt → List Use
  | .empty _ | .array .. => []
  | .ite _ c t none => c.uses ++ t.uses
  | .ite _ c t (some e) => c.uses ++ (t.uses ++ e.uses)
  | .loop _ c b => c.uses ++ b.uses
  | .ret _ v => Expr.usesOption v
  | .expr _ e => e.uses
  | .decl _ init => Expr.usesOption init
  | .block _ body => Stmt.usesList body

def Stmt.usesList : List Stmt → List Use
  | [] => []
  | s :: ss => s.uses ++ Stmt.usesList ss

end

/-- What a statement declares in the scope it stands in. -/
def Stmt.declares : Stmt → List Binder
  | .decl b _ | .array b _ => [b]
  | _ => []

/-- What statements declare in the scope they stand in. -/
def Stmt.declaresAll (ss : List Stmt) : List Binder := ss.flatMap Stmt.declares

mutual

/-- The scopes inside a statement, each with all its declarations. -/
def Stmt.scopes : Stmt → List (List Binder)
  | .empty _ | .ret .. | .expr .. | .decl .. | .array .. => []
  | .ite _ _ t none => t.declares :: t.scopes
  | .ite _ _ t (some e) => t.declares :: (t.scopes ++ e.declares :: e.scopes)
  | .loop _ _ b => b.declares :: b.scopes
  | .block _ body => Stmt.declaresAll body :: Stmt.scopesAll body

def Stmt.scopesAll : List Stmt → List (List Binder)
  | [] => []
  | s :: ss => s.scopes ++ Stmt.scopesAll ss

end

namespace Func

def uses (f : Func) : List Use := Stmt.usesList f.body

/-- The parameters are a scope, and the body is one inside it. -/
def scopes (f : Func) : List (List Binder) := f.params :: Stmt.declaresAll f.body :: Stmt.scopesAll f.body

/-- All declarations of a function. -/
def binders (f : Func) : List Binder := f.scopes.flatten

end Func

/-! ## Where uses stand -/

mutual

/-- A use in a statement. The scopes around the statement and those around the use are told from the inside
out, each with its declarations in front of the statement or the use. -/
inductive Stmt.Uses : List (List Binder) → Stmt → List (List Binder) → Use → Prop
  | condition {ds : List (List Binder)} {s : Site} {c : Expr} {t : Stmt} {e : Option Stmt} {u : Use}
      (h : u ∈ c.uses) : Stmt.Uses ds (.ite s c t e) ds u
  | thenBranch {ds around : List (List Binder)} {s : Site} {c : Expr} {t : Stmt} {e : Option Stmt} {u : Use}
      (h : Stmt.Uses ([] :: ds) t around u) : Stmt.Uses ds (.ite s c t e) around u
  | elseBranch {ds around : List (List Binder)} {s : Site} {c : Expr} {t e : Stmt} {u : Use}
      (h : Stmt.Uses ([] :: ds) e around u) : Stmt.Uses ds (.ite s c t (some e)) around u
  | guard {ds : List (List Binder)} {s : Site} {c : Expr} {b : Stmt} {u : Use} (h : u ∈ c.uses) :
      Stmt.Uses ds (.loop s c b) ds u
  | body {ds around : List (List Binder)} {s : Site} {c : Expr} {b : Stmt} {u : Use}
      (h : Stmt.Uses ([] :: ds) b around u) : Stmt.Uses ds (.loop s c b) around u
  | ret {ds : List (List Binder)} {s : Site} {e : Expr} {u : Use} (h : u ∈ e.uses) :
      Stmt.Uses ds (.ret s (some e)) ds u
  | expr {ds : List (List Binder)} {s : Site} {e : Expr} {u : Use} (h : u ∈ e.uses) :
      Stmt.Uses ds (.expr s e) ds u
  /-- A declaration does not stand in front of its own initial value. -/
  | init {ds : List (List Binder)} {b : Binder} {e : Expr} {u : Use} (h : u ∈ e.uses) :
      Stmt.Uses ds (.decl b (some e)) ds u
  | block {ds around : List (List Binder)} {s : Site} {body : List Stmt} {u : Use}
      (h : Stmt.UsesIn ([] :: ds) body around u) : Stmt.Uses ds (.block s body) around u

/-- A use in one of some statements. -/
inductive Stmt.UsesIn : List (List Binder) → List Stmt → List (List Binder) → Use → Prop
  | here {ds around : List (List Binder)} {x : Stmt} {xs : List Stmt} {u : Use}
      (h : Stmt.Uses ds x around u) : Stmt.UsesIn ds (x :: xs) around u
  | later {d : List Binder} {ds around : List (List Binder)} {x : Stmt} {xs : List Stmt} {u : Use}
      (h : Stmt.UsesIn ((d ++ x.declares) :: ds) xs around u) : Stmt.UsesIn (d :: ds) (x :: xs) around u

end

/-- A use in a function, with the declarations in front of it in all scopes around it. -/
def Func.Uses (f : Func) (around : List (List Binder)) (u : Use) : Prop :=
  Stmt.UsesIn [[], f.params] f.body around u

/-- The declaration that a name refers to: one of that name in the innermost scope that has any. -/
inductive Refers (name : String) : List (List Binder) → Binder → Prop
  | here {scope : List Binder} {outer : List (List Binder)} {b : Binder} (hb : b ∈ scope)
      (hn : b.name.name = name) : Refers name (scope :: outer) b
  | outside {scope : List Binder} {outer : List (List Binder)} {b : Binder}
      (hno : ∀ c ∈ scope, c.name.name ≠ name) (h : Refers name outer b) : Refers name (scope :: outer) b

/-- The names that are declared. -/
def names (bs : List Binder) : List String := bs.map (·.name.name)

/-! ## The scopes of the analysis -/

/-- A scope of the analysis has the latest declaration first. -/
def scopeOf (bs : List Binder) : Scope := (bs.map fun b => (b.name.name, b.site.id)).reverse

/-- The scopes around a place, inside a global one without declarations. -/
def scopesOf (d : List Binder) (ds : List (List Binder)) : Scopes := ⟨scopeOf d, ds.map scopeOf ++ [[]]⟩

section Lookup

variable {n : String} {d : List Binder} {ds : List (List Binder)}

theorem scopeOf_append (b : Binder) : scopeOf (d ++ [b]) = (b.name.name, b.site.id) :: scopeOf d := by
  simp [scopeOf]

theorem lookup_eq_none {es : Scope} : es.lookup n = none ↔ ∀ e ∈ es, e.1 ≠ n := by
  induction es with
  | nil => simp
  | cons e es ih =>
    rw [Table.lookup_cons_ite]
    by_cases hn : n = e.1
    · simp [hn]
    · rw [if_neg hn, ih]
      simp [Ne.symm hn]

theorem mem_of_lookup {es : Scope} {i : NodeId} (h : es.lookup n = some i) : (n, i) ∈ es := by
  induction es with
  | nil => cases h
  | cons e es ih =>
    rw [Table.lookup_cons_ite] at h
    by_cases hn : n = e.1
    · rw [if_pos hn] at h
      cases h
      rw [hn]
      exact List.mem_cons_self
    · rw [if_neg hn] at h
      exact List.mem_cons_of_mem _ (ih h)

theorem mem_scopeOf {e : String × NodeId} : e ∈ scopeOf d ↔ ∃ b ∈ d, (b.name.name, b.site.id) = e := by
  rw [scopeOf, List.mem_reverse, List.mem_map]

theorem lookup_scopeOf_eq_none : (scopeOf d).lookup n = none ↔ n ∉ names d := by
  rw [lookup_eq_none, names, List.mem_map]
  constructor
  · rintro h ⟨b, hb, hn⟩
    exact h (b.name.name, b.site.id) (mem_scopeOf.2 ⟨b, hb, rfl⟩) hn
  · rintro h e he rfl
    obtain ⟨b, hb, rfl⟩ := mem_scopeOf.1 he
    exact h ⟨b, hb, rfl⟩

theorem lookup_scopeOf {i : NodeId} (h : (scopeOf d).lookup n = some i) :
    ∃ b ∈ d, b.name.name = n ∧ b.site.id = i := by
  obtain ⟨b, hb, heq⟩ := mem_scopeOf.1 (mem_of_lookup h)
  cases heq
  exact ⟨b, hb, rfl, rfl⟩

/-- What is found is a declaration that the name refers to. -/
theorem refers_of_find? {i : NodeId} (h : (scopesOf d ds).find? n = some i) :
    ∃ b, Refers n (d :: ds) b ∧ b.site.id = i := by
  rw [Scopes.find?, scopesOf] at h
  induction ds generalizing d with
  | nil =>
    rw [List.findSome?_cons] at h
    cases hd : (scopeOf d).lookup n with
    | some j =>
      rw [hd] at h
      cases h
      obtain ⟨b, hb, hn, rfl⟩ := lookup_scopeOf hd
      exact ⟨b, .here hb hn, rfl⟩
    | none =>
      rw [hd] at h
      simp at h
  | cons d' ds ih =>
    rw [List.findSome?_cons] at h
    cases hd : (scopeOf d).lookup n with
    | some j =>
      rw [hd] at h
      cases h
      obtain ⟨b, hb, hn, rfl⟩ := lookup_scopeOf hd
      exact ⟨b, .here hb hn, rfl⟩
    | none =>
      rw [hd] at h
      obtain ⟨b, hb, hi⟩ := ih h
      refine ⟨b, .outside (fun c hc hn => ?_) hb, hi⟩
      exact lookup_scopeOf_eq_none.1 hd (hn ▸ List.mem_map_of_mem hc)

/-- What a name refers to is found. -/
theorem Refers.find?_isSome {b : Binder} (h : Refers n (d :: ds) b) :
    ∃ i, (scopesOf d ds).find? n = some i := by
  rw [Scopes.find?, scopesOf]
  induction ds generalizing d with
  | nil =>
    cases h with
    | here hb hn =>
      cases hd : (scopeOf d).lookup n with
      | some j => exact ⟨j, by simp [hd]⟩
      | none => exact absurd (hn ▸ List.mem_map_of_mem hb) (lookup_scopeOf_eq_none.1 hd)
    | outside _ h => cases h
  | cons d' ds ih =>
    cases hd : (scopeOf d).lookup n with
    | some j => exact ⟨j, by simp [hd]⟩
    | none =>
      cases h with
      | here hb hn => exact absurd (hn ▸ List.mem_map_of_mem hb) (lookup_scopeOf_eq_none.1 hd)
      | outside _ h =>
        obtain ⟨i, hi⟩ := ih h
        exact ⟨i, by rw [List.findSome?_cons, hd]; exact hi⟩

end Lookup

/-! ## Passes that bind uses -/

open Pass

/-- What a pass does with uses of variables, each with the declarations around it. It yields `v` if it
succeeds, and that it does exactly when `ok` holds and every use refers to a declaration. Then the table has
all uses with their declarations, and is the same otherwise. -/
structure Binds {α : Type} (x : Pass SymbolTable α) (v : α) (ok : Prop)
    (occurs : List (List Binder) → Use → Prop) (us : List Use) : Prop where
  mem : ∀ around u, occurs around u → u ∈ us
  success : ok → (∀ around u, occurs around u → ∃ b, Refers u.name around b) →
    ∀ t, ∃ t', x.run t = (.ok v, t')
  fine : ∀ {t w t'}, x.run t = (.ok w, t') →
    w = v ∧ ok ∧ ∀ around u, occurs around u → ∃ b, Refers u.name around b
  bound : ∀ {t w t'}, x.run t = (.ok w, t') → (us.map Use.id).Nodup → ∀ around u, occurs around u →
    ∃ b, Refers u.name around b ∧ t'.get? u.id = some b.site.id
  other : ∀ {t w t'}, x.run t = (.ok w, t') → ∀ i, i ∉ us.map Use.id → t'.get? i = t.get? i

namespace Binds

variable {α β : Type} {x : Pass SymbolTable α} {v : α} {ok ok' : Prop}
  {occurs occurs' : List (List Binder) → Use → Prop} {us vs : List Use}

theorem congr (h : Binds x v ok occurs us) (hok : ok' ↔ ok)
    (hocc : ∀ around u, occurs' around u ↔ occurs around u) (hus : vs = us) : Binds x v ok' occurs' vs := by
  subst hus
  refine ⟨fun a u hu => h.mem a u ((hocc a u).1 hu), fun hk hr => ?_, ?_, ?_, h.other⟩
  · exact h.success (hok.1 hk) fun a u hu => hr a u ((hocc a u).2 hu)
  · intro t w t' hrun
    obtain ⟨hv, hk, hr⟩ := h.fine hrun
    exact ⟨hv, hok.2 hk, fun a u hu => hr a u ((hocc a u).1 hu)⟩
  · intro t w t' hrun hn a u hu
    exact h.bound hrun hn a u ((hocc a u).1 hu)

theorem pure (v : α) : Binds (Pure.pure v) v True (fun _ _ => False) [] := by
  refine ⟨nofun, fun _ _ t => ⟨t, rfl⟩, ?_, nofun, ?_⟩
  · intro t w t' hrun
    exact ⟨(pure_eq_ok.1 hrun).1.symm, trivial, nofun⟩
  · intro t w t' hrun i _
    rw [(pure_eq_ok.1 hrun).2]

theorem bind {f : α → Pass SymbolTable β} {w : β} (h : Binds x v ok occurs us)
    (hf : Binds (f v) w ok' occurs' vs) :
    Binds (x >>= f) w (ok ∧ ok') (fun a u => occurs a u ∨ occurs' a u) (us ++ vs) where
  mem a u hu := by
    rw [List.mem_append]
    exact hu.imp (h.mem a u) (hf.mem a u)
  success hk hr t := by
    obtain ⟨t₁, h₁⟩ := h.success hk.1 (fun a u hu => hr a u (.inl hu)) t
    obtain ⟨t₂, h₂⟩ := hf.success hk.2 (fun a u hu => hr a u (.inr hu)) t₁
    exact ⟨t₂, bind_eq_ok.2 ⟨v, t₁, h₁, h₂⟩⟩
  fine hrun := by
    obtain ⟨v', t₁, h₁, h₂⟩ := bind_eq_ok.1 hrun
    obtain ⟨rfl, hk, hr⟩ := h.fine h₁
    obtain ⟨rfl, hk', hr'⟩ := hf.fine h₂
    exact ⟨rfl, ⟨hk, hk'⟩, fun a u hu => hu.elim (hr a u) (hr' a u)⟩
  bound hrun hn a u hu := by
    obtain ⟨v', t₁, h₁, h₂⟩ := bind_eq_ok.1 hrun
    obtain ⟨rfl, -, -⟩ := h.fine h₁
    rw [List.map_append, List.nodup_append] at hn
    rcases hu with hu | hu
    · -- What was recorded for the first uses is not touched any more.
      obtain ⟨b, hb, hget⟩ := h.bound h₁ hn.1 a u hu
      refine ⟨b, hb, ?_⟩
      rw [hf.other h₂ u.id fun hmem => hn.2.2 _ (List.mem_map_of_mem (h.mem a u hu)) _ hmem rfl]
      exact hget
    · exact hf.bound h₂ hn.2.1 a u hu
  other hrun i hi := by
    obtain ⟨v', t₁, h₁, h₂⟩ := bind_eq_ok.1 hrun
    obtain ⟨rfl, -, -⟩ := h.fine h₁
    rw [List.map_append, List.mem_append, not_or] at hi
    rw [hf.other h₂ i hi.2, h.other h₁ i hi.1]

theorem next {y : Pass SymbolTable β} {w : β} (h : Binds x v ok occurs us) (hy : Binds y w ok' occurs' vs) :
    Binds (x >>= fun _ => y) w (ok ∧ ok') (fun a u => occurs a u ∨ occurs' a u) (us ++ vs) := h.bind hy

theorem yields (h : Binds x v ok occurs us) {w : β} : Binds (x >>= fun _ => Pure.pure w) w ok occurs us :=
  (h.next (.pure w)).congr (and_iff_left trivial).symm (fun _ _ => (or_iff_left id).symm) (List.append_nil us).symm

end Binds

section Passes

variable {d : List Binder} {ds : List (List Binder)}

theorem binds_bindUse (i : NodeId) (n : Ident) :
    Binds ((scopesOf d ds).bindUse i n) () True (fun a u => a = d :: ds ∧ u ∈ [(⟨i, n.name⟩ : Use)])
      [⟨i, n.name⟩] := by
  have hrun : ∀ {t w t'}, ((scopesOf d ds).bindUse i n).run t = (.ok w, t') →
      ∃ b, Refers n.name (d :: ds) b ∧ t' = t.insert i b.site.id := by
    intro t w t' h
    unfold Scopes.bindUse at h
    split at h
    · next j hj =>
      obtain ⟨b, hb, rfl⟩ := refers_of_find? hj
      cases h
      exact ⟨b, hb, rfl⟩
    · exact absurd h reject_ne_ok
  refine ⟨fun a u hu => hu.2, fun _ hr t => ?_, fun h => ?_, fun h _ a u hu => ?_, fun h j hj => ?_⟩
  · obtain ⟨b, hb⟩ := hr _ ⟨i, n.name⟩ ⟨rfl, List.mem_cons_self⟩
    obtain ⟨j, hj⟩ := hb.find?_isSome
    refine ⟨t.insert i j, ?_⟩
    unfold Scopes.bindUse
    rw [hj]
    rfl
  · obtain ⟨b, hb, -⟩ := hrun h
    refine ⟨rfl, trivial, fun a u hu => ?_⟩
    obtain ⟨rfl, hu⟩ := hu
    obtain rfl := List.mem_singleton.1 hu
    exact ⟨b, hb⟩
  · obtain ⟨b, hb, rfl⟩ := hrun h
    obtain ⟨rfl, hu⟩ := hu
    obtain rfl := List.mem_singleton.1 hu
    exact ⟨b, hb, Table.get?_insert_self _ _ _⟩
  · obtain ⟨b, -, rfl⟩ := hrun h
    rw [Table.get?_insert, if_neg (by simpa using hj)]

mutual

theorem binds_resolveExpr (e : Expr) :
    Binds (resolveExpr (scopesOf d ds) e) () True (fun a u => a = d :: ds ∧ u ∈ e.uses) e.uses := by
  match e with
  | .int .. | .float .. | .string .. =>
    refine (Binds.pure ()).congr Iff.rfl (fun a u => ?_) rfl
    simp [Expr.uses]
  | .var s n => exact binds_bindUse s.id n
  | .index s n i =>
    refine ((binds_resolveExpr i).bind (binds_bindUse s.id n)).congr (by simp) (fun a u => ?_) rfl
    simp only [Expr.uses, List.mem_append, and_or_left]
  | .call _ _ args => exact binds_resolveExprs args
  | .unary _ _ _ x => exact binds_resolveExpr x
  | .binary _ _ _ x y =>
    refine ((binds_resolveExpr x).bind (binds_resolveExpr y)).congr (by simp) (fun a u => ?_) rfl
    simp only [Expr.uses, List.mem_append, and_or_left]

theorem binds_resolveExprs (es : List Expr) :
    Binds (resolveExprs (scopesOf d ds) es) () True (fun a u => a = d :: ds ∧ u ∈ Expr.usesList es)
      (Expr.usesList es) := by
  match es with
  | [] =>
    refine (Binds.pure ()).congr Iff.rfl (fun a u => ?_) rfl
    simp [Expr.usesList]
  | e :: es =>
    refine ((binds_resolveExpr e).bind (binds_resolveExprs es)).congr (by simp) (fun a u => ?_) rfl
    simp only [Expr.usesList, List.mem_append, and_or_left]

end

theorem binds_resolveOption (v : Option Expr) :
    Binds (resolveOption (scopesOf d ds) v) () True (fun a u => a = d :: ds ∧ u ∈ Expr.usesOption v)
      (Expr.usesOption v) := by
  cases v with
  | none =>
    refine (Binds.pure ()).congr Iff.rfl (fun a u => ?_) rfl
    simp [Expr.usesOption]
  | some e => exact binds_resolveExpr e

/-- More declarations in a scope, none of which has a name that is declared there already. -/
def Extends (d bs : List Binder) : Prop := (names bs).Nodup ∧ ∀ n ∈ names bs, n ∉ names d

theorem names_append (bs cs : List Binder) : names (bs ++ cs) = names bs ++ names cs := List.map_append

theorem extends_nil (d : List Binder) : Extends d [] := ⟨List.nodup_nil, nofun⟩

theorem nil_extends {bs : List Binder} : Extends [] bs ↔ (names bs).Nodup :=
  ⟨And.left, fun h => ⟨h, fun _ _ => List.not_mem_nil⟩⟩

theorem extends_singleton {b : Binder} : Extends d [b] ↔ b.name.name ∉ names d := by
  constructor
  · exact fun h => h.2 _ List.mem_cons_self
  · intro h
    refine ⟨List.nodup_cons.2 ⟨List.not_mem_nil, List.nodup_nil⟩, fun n hn => ?_⟩
    obtain rfl := List.mem_singleton.1 hn
    exact h

theorem extends_append {bs cs : List Binder} : Extends d (bs ++ cs) ↔ Extends d bs ∧ Extends (d ++ bs) cs := by
  unfold Extends
  rw [names_append, names_append, List.nodup_append]
  constructor
  · rintro ⟨⟨hbs, hcs, hdisj⟩, hd⟩
    refine ⟨⟨hbs, fun n hn => hd n (List.mem_append_left _ hn)⟩, hcs, fun n hn hmem => ?_⟩
    rcases List.mem_append.1 hmem with hmem | hmem
    · exact hd n (List.mem_append_right _ hn) hmem
    · exact hdisj n hmem n hn rfl
  · rintro ⟨⟨hbs, hd⟩, hcs, hd'⟩
    refine ⟨⟨hbs, hcs, fun n hn m hm hnm => ?_⟩, fun n hn => ?_⟩
    · exact hd' m hm (List.mem_append_right _ (hnm ▸ hn))
    · rcases List.mem_append.1 hn with hn | hn
      · exact hd n hn
      · exact fun hmem => hd' n hn (List.mem_append_left _ hmem)

theorem binds_define (b : Binder) :
    Binds ((scopesOf d ds).define b.name b.site.id) (scopesOf (d ++ [b]) ds) (Extends d [b]) (fun _ _ => False) [] := by
  have hnext : scopesOf (d ++ [b]) ds =
      { scopesOf d ds with inner := (b.name.name, b.site.id) :: (scopesOf d ds).inner } := by
    simp [scopesOf, scopeOf_append]
  have hrun : ∀ {t w t'}, ((scopesOf d ds).define b.name b.site.id).run t = (.ok w, t') →
      Extends d [b] ∧ w = scopesOf (d ++ [b]) ds ∧ t = t' := by
    intro t w t' h
    unfold Scopes.define at h
    split at h
    · exact absurd h reject_ne_ok
    · next hnone =>
      obtain ⟨hw, ht⟩ := pure_eq_ok.1 h
      refine ⟨extends_singleton.2 (lookup_scopeOf_eq_none.1 ?_), hw.symm.trans hnext.symm, ht⟩
      exact Option.not_isSome_iff_eq_none.1 hnone
  refine ⟨nofun, fun hk _ t => ⟨t, ?_⟩, fun h => ?_, nofun, fun h i _ => ?_⟩
  · have hnone : (scopesOf d ds).inner.lookup b.name.name = none :=
      lookup_scopeOf_eq_none.2 (extends_singleton.1 hk)
    unfold Scopes.define
    rw [hnone, hnext]
    rfl
  · exact ⟨(hrun h).2.1, (hrun h).1, nofun⟩
  · rw [(hrun h).2.2]

theorem binds_defineAll (bs : List Binder) :
    Binds ((scopesOf d ds).defineAll bs) (scopesOf (d ++ bs) ds) (Extends d bs) (fun _ _ => False) [] := by
  induction bs generalizing d with
  | nil =>
    rw [List.append_nil]
    exact (Binds.pure _).congr (iff_true_intro (extends_nil d)) (fun _ _ => Iff.rfl) rfl
  | cons b bs ih =>
    rw [List.append_cons]
    have happend : Extends d ([b] ++ bs) ↔ Extends d [b] ∧ Extends (d ++ [b]) bs := extends_append
    exact ((binds_define b).bind ih).congr happend (fun _ _ => (or_self_iff).symm) rfl

theorem scopesOf_enter : (scopesOf d ds).enter = scopesOf [] (d :: ds) := rfl

/-- All scopes declare each name once. -/
def Unambiguous (scopes : List (List Binder)) : Prop := ∀ scope ∈ scopes, (names scope).Nodup

theorem unambiguous_nil : Unambiguous [] := nofun

theorem unambiguous_cons {scope : List Binder} {scopes : List (List Binder)} :
    Unambiguous (scope :: scopes) ↔ (names scope).Nodup ∧ Unambiguous scopes := List.forall_mem_cons

theorem unambiguous_append {scopes scopes' : List (List Binder)} :
    Unambiguous (scopes ++ scopes') ↔ Unambiguous scopes ∧ Unambiguous scopes' := List.forall_mem_append

mutual

/-- **Statements are resolved by the scopes around them.** -/
theorem binds_resolveStmt (d : List Binder) (ds : List (List Binder)) (x : Stmt) :
    Binds (resolveStmt (scopesOf d ds) x) (scopesOf (d ++ x.declares) ds)
      (Extends d x.declares ∧ Unambiguous x.scopes) (fun a u => x.Uses (d :: ds) a u) x.uses := by
  match x with
  | .empty _ =>
    show Binds _ (scopesOf (d ++ []) ds) _ _ _
    rw [List.append_nil]
    exact (Binds.pure _).congr (iff_true_intro ⟨extends_nil d, unambiguous_nil⟩)
      (fun a u => iff_false_intro nofun) rfl
  | .ite s c t none =>
    show Binds _ (scopesOf (d ++ []) ds) _ _ _
    rw [List.append_nil, resolveStmt, scopesOf_enter]
    refine ((binds_resolveExpr c).next (binds_resolveStmt [] (d :: ds) t).yields).congr ?_ (fun a u => ?_) rfl
    · rw [Stmt.scopes, unambiguous_cons, nil_extends]
      simp [Stmt.declares, extends_nil]
    · constructor
      · intro h
        cases h with
        | condition h => exact .inl ⟨rfl, h⟩
        | thenBranch h => exact .inr h
      · rintro (⟨rfl, h⟩ | h)
        · exact .condition h
        · exact .thenBranch h
  | .ite s c t (some e) =>
    show Binds _ (scopesOf (d ++ []) ds) _ _ _
    rw [List.append_nil, resolveStmt, scopesOf_enter]
    refine ((binds_resolveExpr c).next ((binds_resolveStmt [] (d :: ds) t).next
      (binds_resolveStmt [] (d :: ds) e).yields)).congr ?_ (fun a u => ?_) rfl
    · rw [Stmt.scopes, unambiguous_cons, unambiguous_append, unambiguous_cons, nil_extends, nil_extends]
      simp [Stmt.declares, extends_nil, and_assoc]
    · constructor
      · intro h
        cases h with
        | condition h => exact .inl ⟨rfl, h⟩
        | thenBranch h => exact .inr (.inl h)
        | elseBranch h => exact .inr (.inr h)
      · rintro (⟨rfl, h⟩ | h | h)
        · exact .condition h
        · exact .thenBranch h
        · exact .elseBranch h
  | .loop s c b =>
    show Binds _ (scopesOf (d ++ []) ds) _ _ _
    rw [List.append_nil, resolveStmt, scopesOf_enter]
    refine ((binds_resolveExpr c).next (binds_resolveStmt [] (d :: ds) b).yields).congr ?_ (fun a u => ?_) rfl
    · rw [Stmt.scopes, unambiguous_cons, nil_extends]
      simp [Stmt.declares, extends_nil]
    · constructor
      · intro h
        cases h with
        | guard h => exact .inl ⟨rfl, h⟩
        | body h => exact .inr h
      · rintro (⟨rfl, h⟩ | h)
        · exact .guard h
        · exact .body h
  | .ret s v =>
    show Binds _ (scopesOf (d ++ []) ds) _ _ _
    rw [List.append_nil, resolveStmt]
    refine (binds_resolveOption v).yields.congr ?_ (fun a u => ?_) rfl
    · simp [Stmt.declares, extends_nil, Stmt.scopes, unambiguous_nil]
    · constructor
      · intro h
        cases h with
        | ret h => exact ⟨rfl, h⟩
      · rintro ⟨rfl, h⟩
        cases v with
        | none => cases h
        | some e => exact .ret h
  | .expr s e =>
    show Binds _ (scopesOf (d ++ []) ds) _ _ _
    rw [List.append_nil, resolveStmt]
    refine (binds_resolveExpr e).yields.congr ?_ (fun a u => ?_) rfl
    · simp [Stmt.declares, extends_nil, Stmt.scopes, unambiguous_nil]
    · constructor
      · intro h
        cases h with
        | expr h => exact ⟨rfl, h⟩
      · rintro ⟨rfl, h⟩
        exact .expr h
  | .decl b init =>
    rw [resolveStmt]
    refine ((binds_resolveOption init).next (binds_define b)).congr ?_ (fun a u => ?_) ?_
    · simp [Stmt.declares, Stmt.scopes, unambiguous_nil]
    · constructor
      · intro h
        cases h with
        | init h => exact .inl ⟨rfl, h⟩
      · rintro (⟨rfl, h⟩ | h)
        · cases init with
          | none => cases h
          | some e => exact .init h
        · cases h
    · rw [Stmt.uses, List.append_nil]
  | .array b n =>
    rw [resolveStmt]
    refine (binds_define b).congr ?_ (fun a u => iff_false_intro nofun) rfl
    simp [Stmt.declares, Stmt.scopes, unambiguous_nil]
  | .block s body =>
    show Binds _ (scopesOf (d ++ []) ds) _ _ _
    rw [List.append_nil, resolveStmt, scopesOf_enter]
    refine (binds_resolveStmts [] (d :: ds) body).yields.congr ?_ (fun a u => ?_) rfl
    · rw [Stmt.scopes, unambiguous_cons, nil_extends]
      simp [Stmt.declares, extends_nil]
    · constructor
      · intro h
        cases h with
        | block h => exact h
      · exact .block

theorem binds_resolveStmts (d : List Binder) (ds : List (List Binder)) (xs : List Stmt) :
    Binds (resolveStmts (scopesOf d ds) xs) () (Extends d (Stmt.declaresAll xs) ∧ Unambiguous (Stmt.scopesAll xs))
      (fun a u => Stmt.UsesIn (d :: ds) xs a u) (Stmt.usesList xs) := by
  match xs with
  | [] =>
    exact (Binds.pure _).congr (iff_true_intro ⟨extends_nil d, unambiguous_nil⟩)
      (fun a u => iff_false_intro nofun) rfl
  | x :: xs =>
    rw [resolveStmts]
    refine ((binds_resolveStmt d ds x).bind (binds_resolveStmts _ ds xs)).congr ?_ (fun a u => ?_) rfl
    · rw [Stmt.scopesAll, unambiguous_append, Stmt.declaresAll, List.flatMap_cons, extends_append]
      exact and_and_and_comm
    · constructor
      · rintro (h | h)
        · exact .inl h
        · exact .inr h
      · rintro (h | h)
        · exact .here h
        · exact .later h

end

theorem binds_resolveFunction (f : Func) :
    Binds (resolveFunction f) () (Unambiguous f.scopes) f.Uses f.uses := by
  have henter : Scopes.root.enter = scopesOf [] [] := rfl
  rw [resolveFunction, henter]
  refine ((binds_defineAll f.params).bind (binds_resolveStmts [] [f.params] f.body)).congr ?_ (fun a u => ?_) rfl
  · rw [Func.scopes, unambiguous_cons, unambiguous_cons, nil_extends]
    exact and_congr_right' (and_congr_left' nil_extends.symm)
  · rw [false_or]
    exact Iff.rfl

theorem binds_resolve (fs : List Func) :
    Binds (resolve fs) () (∀ f ∈ fs, Unambiguous f.scopes) (fun a u => ∃ f ∈ fs, f.Uses a u)
      (fs.flatMap Func.uses) := by
  induction fs with
  | nil => exact (Binds.pure _).congr (iff_true_intro nofun) (fun a u => by simp) rfl
  | cons f fs ih =>
    rw [resolve]
    refine ((binds_resolveFunction f).next ih).congr List.forall_mem_cons (fun a u => ?_) rfl
    simp

end Passes

/-! ## Where declarations stand -/

section Places

theorem scope_mem_of_enter {scope d : List Binder} {ds inner all : List (List Binder)}
    (h : scope ∈ [] :: ds ∨ ∃ whole ∈ inner, scope <+: whole) (hd : d ∈ all) (hsub : inner ⊆ all) :
    scope ∈ ds ∨ ∃ whole ∈ all, scope <+: whole := by
  rcases h with h | ⟨whole, hw, hpre⟩
  · rcases List.mem_cons.1 h with rfl | h
    · exact .inr ⟨d, hd, List.nil_prefix⟩
    · exact .inl h
  · exact .inr ⟨whole, hsub hw, hpre⟩

mutual

/-- The scopes around a use are scopes around the statement, or begin scopes inside it. -/
theorem Stmt.Uses.scope_mem {ds around : List (List Binder)} {x : Stmt} {u : Use} (h : x.Uses ds around u) :
    ∀ scope ∈ around, scope ∈ ds ∨ ∃ whole ∈ x.scopes, scope <+: whole := by
  intro scope hs
  match x, h with
  | _, .condition _ | _, .guard _ | _, .ret _ | _, .expr _ | _, .init _ => exact .inl hs
  | .ite s c t none, .thenBranch h =>
    exact scope_mem_of_enter (h.scope_mem scope hs) List.mem_cons_self (List.subset_cons_self _ _)
  | .ite s c t (some e), .thenBranch h =>
    refine scope_mem_of_enter (h.scope_mem scope hs) List.mem_cons_self ?_
    exact List.subset_cons_of_subset _ (List.subset_append_left _ _)
  | .ite s c t (some e), .elseBranch h =>
    have hsub : e.declares :: e.scopes ⊆ (Stmt.ite s c t (some e)).scopes :=
      List.subset_cons_of_subset _ (List.subset_append_right _ _)
    exact scope_mem_of_enter (h.scope_mem scope hs) (hsub List.mem_cons_self)
      fun _ hw => hsub (List.mem_cons_of_mem _ hw)
  | .loop s c b, .body h =>
    exact scope_mem_of_enter (h.scope_mem scope hs) List.mem_cons_self (List.subset_cons_self _ _)
  | .block s body, .block h => exact h.scope_mem scope hs

/-- The innermost scope goes on with what the statements declare. -/
theorem Stmt.UsesIn.scope_mem {d : List Binder} {ds around : List (List Binder)} {xs : List Stmt} {u : Use}
    (h : Stmt.UsesIn (d :: ds) xs around u) : ∀ scope ∈ around, scope ∈ ds ∨
      ∃ whole ∈ (d ++ Stmt.declaresAll xs) :: Stmt.scopesAll xs, scope <+: whole := by
  intro scope hs
  match xs, h with
  | x :: xs, .here h =>
    rcases h.scope_mem scope hs with hmem | ⟨whole, hw, hpre⟩
    · rcases List.mem_cons.1 hmem with rfl | hmem
      · exact .inr ⟨_, List.mem_cons_self, List.prefix_append _ _⟩
      · exact .inl hmem
    · exact .inr ⟨whole, List.mem_cons_of_mem _ (List.mem_append_left _ hw), hpre⟩
  | x :: xs, .later h =>
    rcases h.scope_mem scope hs with hmem | ⟨whole, hw, hpre⟩
    · exact .inl hmem
    · refine .inr ⟨whole, ?_, hpre⟩
      rw [List.append_assoc] at hw
      rcases List.mem_cons.1 hw with rfl | hw
      · exact List.mem_cons_self
      · exact List.mem_cons_of_mem _ (List.mem_append_right _ hw)

end

variable {around : List (List Binder)} {u : Use}

/-- The scopes around a use begin scopes of its function. -/
theorem Func.Uses.scope_mem {f : Func} (h : f.Uses around u) :
    ∀ scope ∈ around, ∃ whole ∈ f.scopes, scope <+: whole := by
  intro scope hs
  rcases Stmt.UsesIn.scope_mem h scope hs with hmem | ⟨whole, hw, hpre⟩
  · rw [List.mem_singleton.1 hmem]
    exact ⟨f.params, List.mem_cons_self, List.prefix_refl _⟩
  · exact ⟨whole, List.mem_cons_of_mem _ hw, hpre⟩

theorem Refers.mem {n : String} {b : Binder} (h : Refers n around b) :
    b.name.name = n ∧ ∃ scope ∈ around, b ∈ scope := by
  induction h with
  | here hb hn => exact ⟨hn, _, List.mem_cons_self, hb⟩
  | outside _ _ ih => exact ⟨ih.1, ih.2.imp fun _ h => ⟨List.mem_cons_of_mem _ h.1, h.2⟩⟩

/-- Where no scope declares a name twice, it refers to one declaration. -/
theorem Refers.unique {n : String} {b c : Binder} (hb : Refers n around b) (hc : Refers n around c)
    (hu : Unambiguous around) : b = c := by
  induction hb with
  | here hb hn =>
    cases hc with
    | here hc hn' => exact List.inj_on_of_nodup_map (unambiguous_cons.1 hu).1 hb hc (hn.trans hn'.symm)
    | outside hno _ => exact absurd hn (hno _ hb)
  | outside hno _ ih =>
    cases hc with
    | here hc hn => exact absurd hn (hno _ hc)
    | outside _ hc => exact ih hc (unambiguous_cons.1 hu).2

theorem Func.Uses.unambiguous {f : Func} (h : f.Uses around u) (hf : Unambiguous f.scopes) : Unambiguous around := by
  intro scope hs
  obtain ⟨whole, hw, hpre⟩ := h.scope_mem scope hs
  exact (hf whole hw).sublist (hpre.map _).sublist

theorem Func.Uses.mem_binders {f : Func} {b : Binder} (h : f.Uses around u) (hb : Refers u.name around b) :
    b ∈ f.binders := by
  obtain ⟨-, scope, hs, hmem⟩ := hb.mem
  obtain ⟨whole, hw, hpre⟩ := h.scope_mem scope hs
  exact List.mem_flatten.2 ⟨whole, hw, hpre.subset hmem⟩

mutual

/-- Every use stands somewhere. -/
theorem Stmt.exists_uses {x : Stmt} (ds : List (List Binder)) (h : u ∈ x.uses) : ∃ around, x.Uses ds around u := by
  match x with
  | .empty _ | .array .. => cases h
  | .ite s c t none =>
    rcases List.mem_append.1 h with h | h
    · exact ⟨ds, .condition h⟩
    · exact (Stmt.exists_uses ([] :: ds) h).imp fun _ => .thenBranch
  | .ite s c t (some e) =>
    rcases List.mem_append.1 h with h | h
    · exact ⟨ds, .condition h⟩
    · rcases List.mem_append.1 h with h | h
      · exact (Stmt.exists_uses ([] :: ds) h).imp fun _ => .thenBranch
      · exact (Stmt.exists_uses ([] :: ds) h).imp fun _ => .elseBranch
  | .loop s c b =>
    rcases List.mem_append.1 h with h | h
    · exact ⟨ds, .guard h⟩
    · exact (Stmt.exists_uses ([] :: ds) h).imp fun _ => .body
  | .ret s (some e) => exact ⟨ds, .ret h⟩
  | .expr s e => exact ⟨ds, .expr h⟩
  | .decl b (some e) => exact ⟨ds, .init h⟩
  | .block s body => exact (Stmt.exists_usesIn [] ds h).imp fun _ => .block

theorem Stmt.exists_usesIn {xs : List Stmt} (d : List Binder) (ds : List (List Binder)) (h : u ∈ Stmt.usesList xs) :
    ∃ around, Stmt.UsesIn (d :: ds) xs around u := by
  match xs with
  | x :: xs =>
    rcases List.mem_append.1 h with h | h
    · exact (Stmt.exists_uses _ h).imp fun _ => .here
    · exact (Stmt.exists_usesIn _ _ h).imp fun _ => .later

end

end Places

/-! ## Their numbers -/

section Numbers

variable (i : NodeId)

/-- How many uses and declarations have a number. -/
def countIds (us : List Use) (bs : List Binder) : Nat := (us.map Use.id).count i + (bs.map (·.site.id)).count i

theorem countIds_append (us vs : List Use) (bs cs : List Binder) :
    countIds i (us ++ vs) (bs ++ cs) = countIds i us bs + countIds i vs cs := by
  simp only [countIds, List.map_append, List.count_append]
  omega

theorem countIds_append_uses (us vs : List Use) (bs : List Binder) :
    countIds i (us ++ vs) bs = countIds i us [] + countIds i vs bs := countIds_append i us vs [] bs

mutual

theorem Expr.countIds_le (e : Expr) : countIds i e.uses [] ≤ e.nodes.count i := by
  match e with
  | .int .. | .float .. | .string .. => exact Nat.zero_le _
  | .var s n => exact Nat.le_refl _
  | .index s n x =>
    have := x.countIds_le
    have hperm : (x.nodes ++ [s.id]).count i = (s.id :: x.nodes).count i :=
      (List.perm_append_singleton s.id x.nodes).count_eq i
    rw [Expr.uses, countIds_append_uses, Expr.nodes, ← hperm, List.count_append]
    exact Nat.add_le_add this (Nat.le_refl _)
  | .call s n args => exact Nat.le_trans (Expr.countIdsList_le args) (List.count_le_count_cons)
  | .unary s op sp x => exact Nat.le_trans x.countIds_le (List.count_le_count_cons)
  | .binary s op sp x y =>
    have := x.countIds_le
    have := y.countIds_le
    rw [Expr.uses, Expr.nodes, List.count_cons, List.count_append, countIds_append_uses]
    omega

theorem Expr.countIdsList_le (es : List Expr) : countIds i (Expr.usesList es) [] ≤ (Expr.nodesList es).count i := by
  match es with
  | [] => exact Nat.zero_le _
  | e :: es =>
    have := e.countIds_le
    have := Expr.countIdsList_le es
    rw [Expr.usesList, Expr.nodesList, List.count_append, countIds_append_uses]
    omega

end

theorem Expr.countIdsOption_le (o : Option Expr) :
    countIds i (Expr.usesOption o) [] ≤ (Expr.nodesOption o).count i := by
  cases o with
  | none => exact Nat.zero_le _
  | some e => exact e.countIds_le i

mutual

theorem Stmt.countIds_le (x : Stmt) : countIds i x.uses (x.declares ++ x.scopes.flatten) ≤ x.nodes.count i := by
  match x with
  | .empty _ => exact Nat.zero_le _
  | .ite _ c t none =>
    have := c.countIds_le i
    have := t.countIds_le
    show countIds i (c.uses ++ t.uses) (t.declares ++ t.scopes.flatten) ≤ (c.nodes ++ t.nodes).count i
    rw [countIds_append_uses, List.count_append]
    omega
  | .ite _ c t (some e) =>
    have := c.countIds_le i
    have := t.countIds_le
    have := e.countIds_le
    have hflat : (t.declares :: (t.scopes ++ e.declares :: e.scopes)).flatten =
      (t.declares ++ t.scopes.flatten) ++ (e.declares ++ e.scopes.flatten) := by simp
    show countIds i (c.uses ++ (t.uses ++ e.uses)) (t.declares :: (t.scopes ++ e.declares :: e.scopes)).flatten ≤
      (c.nodes ++ (t.nodes ++ e.nodes)).count i
    rw [countIds_append_uses, hflat, countIds_append, List.count_append, List.count_append]
    omega
  | .loop _ c b =>
    have := c.countIds_le i
    have := b.countIds_le
    show countIds i (c.uses ++ b.uses) (b.declares ++ b.scopes.flatten) ≤ (c.nodes ++ b.nodes).count i
    rw [countIds_append_uses, List.count_append]
    omega
  | .ret _ v => exact Expr.countIdsOption_le i v
  | .expr _ e => exact e.countIds_le i
  | .decl b init =>
    have hinit := Expr.countIdsOption_le i init
    have hsplit := countIds_append i [] (Expr.usesOption init) [b] []
    show countIds i ([] ++ Expr.usesOption init) ([b] ++ []) ≤ ([b.site.id] ++ Expr.nodesOption init).count i
    rw [hsplit, List.count_append]
    exact Nat.add_le_add (Nat.le_of_eq (Nat.zero_add _)) hinit
  | .array b n =>
    show 0 + [b.site.id].count i ≤ ([b.site.id] ++ [n.site.id]).count i
    rw [Nat.zero_add, List.count_append]
    exact Nat.le_add_right _ _
  | .block _ body => exact Stmt.countIdsList_le body

theorem Stmt.countIdsList_le (xs : List Stmt) :
    countIds i (Stmt.usesList xs) (Stmt.declaresAll xs ++ (Stmt.scopesAll xs).flatten) ≤
      (Stmt.nodesList xs).count i := by
  match xs with
  | [] => exact Nat.zero_le _
  | x :: xs =>
    have hx := x.countIds_le
    have hxs := Stmt.countIdsList_le xs
    have hflat : Stmt.declaresAll (x :: xs) ++ (Stmt.scopesAll (x :: xs)).flatten =
        x.declares ++ (Stmt.declaresAll xs ++ (x.scopes.flatten ++ (Stmt.scopesAll xs).flatten)) := by
      simp [Stmt.declaresAll, Stmt.scopesAll]
    simp only [countIds, Stmt.usesList, hflat, Stmt.nodesList, List.map_append, List.count_append] at *
    omega

end

theorem Func.countIds_le (f : Func) : countIds i f.uses f.binders ≤ f.nodes.count i := by
  have := Stmt.countIdsList_le i f.body
  have hsplit := countIds_append i [] f.uses f.params (Stmt.declaresAll f.body ++ (Stmt.scopesAll f.body).flatten)
  show countIds i ([] ++ f.uses) (f.params ++ (Stmt.declaresAll f.body ++ (Stmt.scopesAll f.body).flatten)) ≤
    (f.params.map (·.site.id) ++ Stmt.nodesList f.body).count i
  rw [hsplit, List.count_append]
  exact Nat.add_le_add (Nat.le_of_eq (Nat.zero_add _)) this

theorem Func.mem_nodes {i : NodeId} {f : Func} (h : i ∈ f.uses.map Use.id ∨ i ∈ f.binders.map (·.site.id)) :
    i ∈ f.nodes := by
  rw [← List.count_pos_iff, ← List.count_pos_iff] at h
  rw [← List.count_pos_iff]
  have := f.countIds_le i
  rw [countIds] at this
  omega

end Numbers

theorem Func.nodup_ids {f : Func} (h : f.nodes.Nodup) :
    (f.uses.map Use.id).Nodup ∧ (f.binders.map (·.site.id)).Nodup := by
  rw [List.nodup_iff_count_le_one] at h
  have hle : ∀ i, (f.uses.map Use.id).count i + (f.binders.map (·.site.id)).count i ≤ 1 :=
    fun i => Nat.le_trans (f.countIds_le i) (h i)
  constructor <;> rw [List.nodup_iff_count_le_one]
  · exact fun i => Nat.le_trans (Nat.le_add_right _ _) (hle i)
  · exact fun i => Nat.le_trans (Nat.le_add_left _ _) (hle i)

section Distinct

variable {fs : List Func} (h : (fs.flatMap Func.nodes).Nodup)
include h

theorem nodup_uses : ((fs.flatMap Func.uses).map Use.id).Nodup := by
  rw [List.map_flatMap]
  rw [List.nodup_flatMap] at h ⊢
  refine ⟨fun f hf => (Func.nodup_ids (h.1 f hf)).1, h.2.imp fun hdisj i hi hj => ?_⟩
  exact hdisj (Func.mem_nodes (.inl hi)) (Func.mem_nodes (.inl hj))

/-- No two declarations share a number. -/
theorem eq_of_binder_id {f g : Func} (hf : f ∈ fs) (hg : g ∈ fs) {b c : Binder} (hb : b ∈ f.binders)
    (hc : c ∈ g.binders) (hid : c.site.id = b.site.id) : g = f ∧ c = b := by
  rw [List.nodup_flatMap] at h
  have hsymm : Std.Symm (Function.onFun List.Disjoint Func.nodes) := ⟨fun _ _ hd _ hg hf => hd hf hg⟩
  have hfg : g = f := by
    by_contra hne
    have hdisj := h.2.forall hg hf hne
    exact hdisj (Func.mem_nodes (.inr (List.mem_map_of_mem hc)))
      (hid ▸ Func.mem_nodes (.inr (List.mem_map_of_mem hb)))
  subst hfg
  exact ⟨rfl, List.inj_on_of_nodup_map (f := fun x : Binder => x.site.id) (Func.nodup_ids (h.1 g hg)).2 hc hb hid⟩

end Distinct

/-! ## Resolution -/

/-- **Variables are resolved lexically.** The analysis of scopes succeeds exactly when every use refers to a
declaration and no scope declares a name twice. It then records the uses and nothing else, and each with the
one declaration that it refers to, which is in the same function. -/
theorem resolved_lexically {source : String} {p : Program} (h : parseProgram source = .ok p) :
    ((∃ t, (resolve p.functions).run .empty = (.ok (), t)) ↔ ∀ f ∈ p.functions,
      (∀ around u, f.Uses around u → ∃ b, Refers u.name around b) ∧ Unambiguous f.scopes) ∧
    ∀ t, (resolve p.functions).run .empty = (.ok (), t) →
      (∀ i, (t.get? i).isSome ↔ ∃ f ∈ p.functions, ∃ u ∈ f.uses, u.id = i) ∧
      ∀ f ∈ p.functions, (∀ u ∈ f.uses, ∃ around, f.Uses around u) ∧ ∀ around u, f.Uses around u →
        ∃ b, (∀ c, Refers u.name around c ↔ c = b) ∧ t.get? u.id = some b.site.id ∧ b ∈ f.binders ∧
          ∀ g ∈ p.functions, ∀ c ∈ g.binders, c.site.id = b.site.id → g = f ∧ c = b := by
  have hnodes := nodup_nodes_of_parseProgram h
  have hall := binds_resolve p.functions
  refine ⟨⟨?_, ?_⟩, fun t ht => ⟨fun i => ⟨fun hi => ?_, ?_⟩, fun f hf => ⟨?_, ?_⟩⟩⟩
  · rintro ⟨t, ht⟩ f hf
    obtain ⟨-, hok, hrefers⟩ := hall.fine ht
    exact ⟨fun around u hu => hrefers around u ⟨f, hf, hu⟩, hok f hf⟩
  · intro hok
    refine hall.success (fun f hf => (hok f hf).2) (fun around u hu => ?_) .empty
    obtain ⟨f, hf, hu⟩ := hu
    exact (hok f hf).1 around u hu
  · -- A number that no use has is not in the table.
    by_contra hno
    have hi' : i ∉ (p.functions.flatMap Func.uses).map Use.id := by
      intro hmem
      obtain ⟨u, hu, rfl⟩ := List.mem_map.1 hmem
      obtain ⟨f, hf, hu⟩ := List.mem_flatMap.1 hu
      exact hno ⟨f, hf, u, hu, rfl⟩
    rw [hall.other ht i hi'] at hi
    cases hi
  · rintro ⟨f, hf, u, hu, rfl⟩
    obtain ⟨around, haround⟩ := Stmt.exists_usesIn [] [f.params] hu
    obtain ⟨b, -, hget⟩ := hall.bound ht (nodup_uses hnodes) around u ⟨f, hf, haround⟩
    rw [hget]
    rfl
  · exact fun u hu => Stmt.exists_usesIn _ _ hu
  · intro around u hu
    obtain ⟨b, hb, hget⟩ := hall.bound ht (nodup_uses hnodes) around u ⟨f, hf, hu⟩
    have hmem : b ∈ f.binders := hu.mem_binders hb
    have hscopes := hu.unambiguous ((hall.fine ht).2.1 f hf)
    refine ⟨b, fun c => ⟨fun hc => hc.unique hb hscopes, fun hc => hc ▸ hb⟩, hget, hmem, ?_⟩
    exact fun g hg c hc hid => eq_of_binder_id hnodes hf hg hmem hc hid

section Sample

open MicroC.Parser

/-- A variable with the name of a parameter, which its initial value uses. -/
def shadowingSource : String := "int f(int x)\x7bint x=x;return x;\x7d"

def shadowingTokens : List Token :=
  [⟨.identifier, "int", ⟨1, 1, 3⟩⟩, ⟨.identifier, "f", ⟨1, 5, 1⟩⟩, ⟨.leftParen, "(", ⟨1, 6, 1⟩⟩,
    ⟨.identifier, "int", ⟨1, 7, 3⟩⟩, ⟨.identifier, "x", ⟨1, 11, 1⟩⟩, ⟨.rightParen, ")", ⟨1, 12, 1⟩⟩,
    ⟨.leftBrace, "\x7b", ⟨1, 13, 1⟩⟩, ⟨.identifier, "int", ⟨1, 14, 3⟩⟩, ⟨.identifier, "x", ⟨1, 18, 1⟩⟩,
    ⟨.equals, "=", ⟨1, 19, 1⟩⟩, ⟨.identifier, "x", ⟨1, 20, 1⟩⟩, ⟨.semicolon, ";", ⟨1, 21, 1⟩⟩,
    ⟨.returnKw, "return", ⟨1, 22, 6⟩⟩, ⟨.identifier, "x", ⟨1, 29, 1⟩⟩, ⟨.semicolon, ";", ⟨1, 30, 1⟩⟩,
    ⟨.rightBrace, "\x7d", ⟨1, 31, 1⟩⟩]

theorem scan_shadowing : scan shadowingSource = ⟨shadowingTokens, []⟩ := by decide +kernel

theorem functions_shadowing : ∃ fs t, YieldsFuncs (.ofTokens shadowingTokens) fs t ∧ t.ahead = [] ∧
    ((resolve fs).run .empty).1.isOk = true ∧ fs.map (·.uses.length) = [2] ∧
    (analyze .runtime ⟨default, fs⟩).isOk = true := by
  refine ⟨?fs, ?t, ?parsed, ?done, ?resolved, ?uses, ?analysed⟩
  case parsed =>
    refine .cons ?_ (.mk ?_ ?_ ?_ (.some ?_ (.last (.mk ?_ ?_) ?_)) ?_ (.mk ?_ (.cons ?_ (.simple ?_ (.init ?_ ?_
      (.ofAtom (.var ?_ ?_ ?_) ?_ ?_) ?_)) (.cons ?_ (.retValue ?_ ?_ (.ofAtom (.var ?_ ?_ ?_) ?_ ?_) ?_)
        (.nil ?_))) ?_)) (.nil ?_)
    all_goals decide +kernel
  all_goals decide +kernel

theorem resolved_lexically_shadowing : ∃ p t, parseProgram shadowingSource = .ok p ∧
    (resolve p.functions).run .empty = (.ok (), t) ∧ p.functions.map (·.uses.length) = [2] ∧
    ∀ f ∈ p.functions, ∀ around u, f.Uses around u →
      ∃ b, (∀ c, Refers u.name around c ↔ c = b) ∧ t.get? u.id = some b.site.id := by
  obtain ⟨fs, u, hfs, hdone, hok, huses, -⟩ := functions_shadowing
  obtain ⟨site, hparse⟩ : ∃ site, parseProgram shadowingSource = .ok ⟨site, fs⟩ :=
    parseProgram_of_yieldsFuncs (by rw [scan_shadowing]) (by rw [scan_shadowing]; exact hfs) hdone
  cases hrun : (resolve fs).run .empty with
  | mk r t =>
    rw [hrun] at hok
    cases r with
    | error e => cases hok
    | ok _ =>
      refine ⟨⟨site, fs⟩, t, hparse, hrun, huses, fun f hf around u hu => ?_⟩
      obtain ⟨-, hall⟩ := resolved_lexically hparse
      obtain ⟨b, hb, hget, -⟩ := ((hall t hrun).2 f hf).2 around u hu
      exact ⟨b, hb, hget⟩

end Sample

end MicroC
