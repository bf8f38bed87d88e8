import MicroC.Proofs.Emission.Tidy

/-!
# Names of blocks

Labels inside functions have a number of their own, and so have the blocks that they start: no two blocks have one
name.

* `Fresh`: labels with numbers from one up to another, each once.
* `ExprCode.fresh`, `StmtCode.fresh`: the labels of expressions and statements are.
* **`wellNamed_of_programCode`**: the blocks of a program have different names.
-/

namespace MicroC

open Convention Emit

/-! ## Numbers of labels -/

/-- Labels with numbers from `lo` up to `hi`, each once. -/
structure Fresh (lo hi : Nat) (ls : List String) : Prop where
  le : lo ≤ hi
  nodup : ls.Nodup
  named : ∀ l ∈ ls, ∃ i s, l = labelName i s ∧ lo ≤ i ∧ i < hi ∧ '.' ∉ s.toList

namespace Fresh

variable {lo mid hi : Nat} {ks ls : List String}

theorem nil (n : Nat) : Fresh n n [] := ⟨Nat.le_refl _, List.nodup_nil, nofun⟩

theorem one (n : Nat) {s : String} (hs : '.' ∉ s.toList) : Fresh n (n + 1) [labelName n s] := by
  refine ⟨Nat.le_succ n, List.nodup_cons.2 ⟨nofun, List.nodup_nil⟩, fun l hl => ?_⟩
  rw [List.mem_singleton.1 hl]
  exact ⟨n, s, rfl, Nat.le_refl n, Nat.lt_succ_self n, hs⟩

theorem append (h : Fresh lo mid ks) (h' : Fresh mid hi ls) : Fresh lo hi (ks ++ ls) := by
  refine ⟨Nat.le_trans h.le h'.le, List.nodup_append.2 ⟨h.nodup, h'.nodup, ?_⟩, fun l hl => ?_⟩
  · intro k hk l hl heq
    obtain ⟨i, s, rfl, -, hi, -⟩ := h.named k hk
    obtain ⟨j, t, rfl, hj, -, -⟩ := h'.named l hl
    have := labelName_inj heq
    omega
  · rcases List.mem_append.1 hl with hl | hl
    · obtain ⟨i, s, heq, hlo, hhi, hs⟩ := h.named l hl
      exact ⟨i, s, heq, hlo, Nat.lt_of_lt_of_le hhi h'.le, hs⟩
    · obtain ⟨i, s, heq, hlo, hhi, hs⟩ := h'.named l hl
      exact ⟨i, s, heq, Nat.le_trans h.le hlo, hhi, hs⟩

theorem perm (h : Fresh lo hi ks) (hp : ks.Perm ls) : Fresh lo hi ls :=
  ⟨h.le, hp.nodup h.nodup, fun l hl => h.named l (hp.mem_iff.2 hl)⟩

end Fresh

/-- The names of the labels of items. -/
def labelNames (is : List Item) : List String := (labels is).map Prod.fst

@[simp] theorem labelNames_append (is js : List Item) :
    labelNames (is ++ js) = labelNames is ++ labelNames js := by
  simp [labelNames]

@[simp] theorem labelNames_nil : labelNames [] = [] := rfl

@[simp] theorem labelNames_op (o : Op) (is : List Item) : labelNames (.op o :: is) = labelNames is := rfl

@[simp] theorem labelNames_label (l : String) (ks : List Kind) (is : List Item) :
    labelNames (.label l ks :: is) = l :: labelNames is := rfl

@[simp] theorem labelNames_shrinkItems (n : Nat) : labelNames (shrinkItems n) = [] := by
  cases n <;> rfl

@[simp] theorem labelNames_growItems (n : Nat) : labelNames (growItems n) = [] := by
  induction n with
  | zero => rfl
  | succ n ih => exact ih

@[simp] theorem labelNames_popItems (rs : List Reg) : labelNames (popItems rs) = [] := by
  induction rs with
  | nil => rfl
  | cons r rs ih => exact ih

@[simp] theorem labelNames_release (p q : Spot) : labelNames (p.release q) = [] :=
  labelNames_shrinkItems _

@[simp] theorem labelNames_alignItems (p : Spot) : labelNames p.alignItems = [] := by
  unfold Spot.alignItems
  split <;> rfl

@[simp] theorem labelNames_callItems (f : String) (n p : Nat) (κ : Kind) :
    labelNames (callItems f n p κ) = [] := by
  simp [callItems]

@[simp] theorem labelNames_branchItems (l : String) : labelNames (branchItems l) = [] := rfl

theorem fresh_operatorItems (ks : List Kind) (n : Nat) (κ : Kind) (op : BinaryOp) :
    Fresh n (n + operatorLabels op) (labelNames (operatorItems ks n κ op)) := by
  cases op with
  | pow => exact (Fresh.one n (by decide)).append (Fresh.one (n + 1) (by decide))
  | _ => exact .nil n

section Labels

variable {c : Meaning} {slots : List NodeId}

mutual

theorem ExprCode.fresh {ks : List Kind} {n n' : Nat} {κ : Kind} {e : Expr} {is : List Item}
    (h : ExprCode c slots ks n κ e is n') : Fresh n n' (labelNames is) := by
  match h with
  | .narrow _ | .wide _ | .var _ => exact .nil n
  | .plus hx => exact hx.fresh
  | .neg hx =>
    rw [labelNames_append]
    exact hx.fresh.append (.nil n')
  | .assign _ hy =>
    rw [labelNames_append]
    exact hy.fresh.append (.nil n')
  | .binary _ hx hy =>
    rw [labelNames_append, labelNames_append]
    exact hx.fresh.append (hy.fresh.append (fresh_operatorItems ..))
  | .call _ _ hargs => simpa using hargs.fresh

theorem ArgsCode.fresh {ks : List Kind} {n n' : Nat} {es : List Expr} {is : List Item}
    (h : ArgsCode c slots ks n es is n') : Fresh n n' (labelNames is) := by
  match h with
  | .nil => exact .nil n
  | .cons hes he =>
    rw [labelNames_append]
    exact hes.fresh.append he.fresh

end

mutual

theorem StmtCode.fresh {p q : Spot} {n n' : Nat} {s : Stmt} {is : List Item}
    (h : StmtCode c p n s is q n') : Fresh n n' (labelNames is) := by
  match h with
  | .empty | .leave => exact .nil n
  | @StmtCode.ifThen _ _ _ _ n₁ _ _ _ _ is js he ht =>
    have hall := he.fresh.append (((Fresh.one n₁ (s := "then") (by decide)).append
      (Fresh.one (n₁ + 1) (s := "endif") (by decide))).append ht.fresh)
    refine hall.perm ?_
    simp only [labelNames_append, labelNames_label, labelNames_branchItems, labelNames_release,
      labelNames_nil, List.nil_append, List.cons_append]
    exact .append_left _ (.cons _ (List.perm_append_singleton _ _).symm)
  | @StmtCode.ifElse _ _ _ _ _ n₁ _ _ _ _ _ _ is js ls he ht hu =>
    have hall := he.fresh.append (((Fresh.one n₁ (s := "then") (by decide)).append
      ((Fresh.one (n₁ + 1) (s := "else") (by decide)).append
        (Fresh.one (n₁ + 2) (s := "endif") (by decide)))).append (ht.fresh.append hu.fresh))
    refine hall.perm ?_
    simp only [labelNames_append, labelNames_label, labelNames_op, labelNames_branchItems,
      labelNames_release, labelNames_nil, List.nil_append, List.cons_append]
    refine .append_left _ (.cons _ (.symm (List.perm_middle.trans (.cons _ ?_))))
    rw [← List.append_assoc]
    exact List.perm_append_singleton _ _
  | @StmtCode.loop _ _ _ n n₁ _ _ _ _ is js he hb =>
    have hall := ((Fresh.one n (s := "while_cond") (by decide)).append
      ((Fresh.one (n + 1) (s := "while_body") (by decide)).append
        (Fresh.one (n + 2) (s := "while_end") (by decide)))).append (he.fresh.append hb.fresh)
    refine hall.perm ?_
    simp only [labelNames_append, labelNames_label, labelNames_op, labelNames_branchItems,
      labelNames_release, labelNames_nil, List.nil_append, List.cons_append]
    refine .cons _ (.symm (List.perm_middle.trans (.cons _ ?_)))
    rw [← List.append_assoc]
    exact List.perm_append_singleton _ _
  | .ret he | .expr he =>
    rw [labelNames_append]
    exact he.fresh.append (.nil n')
  | .init he _ => simpa using he.fresh
  | .bare _ =>
    simp only [labelNames_append, labelNames_growItems, labelNames_alignItems, List.nil_append]
    exact .nil n
  | .block hs => simpa using hs.fresh

theorem StmtsCode.fresh {p q : Spot} {n n' : Nat} {ss : List Stmt} {is : List Item}
    (h : StmtsCode c p n ss is q n') : Fresh n n' (labelNames is) := by
  match h with
  | .nil => exact .nil n
  | .cons hs hss =>
    rw [labelNames_append]
    exact hs.fresh.append hss.fresh

end

end Labels

/-! ## Blocks of programs -/

/-- A name of a block of functions whose labels have numbers from `lo` up to `hi`. -/
inductive BlockName (fs : List Func) (lo hi : Nat) : String → Prop
  | function {f : Func} (hf : f ∈ fs) : BlockName fs lo hi f.name.name
  | exit {f : Func} (hf : f ∈ fs) : BlockName fs lo hi (exitLabel f.name.name)
  | label {i : Nat} {s : String} (hlo : lo ≤ i) (hhi : i < hi) (hs : '.' ∉ s.toList) :
      BlockName fs lo hi (labelName i s)

theorem RoutineCode.fresh {c : Meaning} {n n' : Nat} {f : Func} {r : Subroutine}
    (h : RoutineCode c n f r n') : r.name = f.name.name ∧ Fresh n n' (labelNames r.body) := by
  cases h with
  | mk hs =>
    refine ⟨rfl, ?_⟩
    have hspill : labelNames (spillItems 0 f.params.length) = [] := by
      rw [labelNames, labels_spillItems]
      rfl
    simpa [hspill] using hs.fresh

theorem RoutineCode.names {c : Meaning} {n n' : Nat} {f : Func} {r : Subroutine}
    (h : RoutineCode c n f r n') (hf : IsName f.name.name) :
    r.names.Nodup ∧ ∀ l ∈ r.names, BlockName [f] n n' l := by
  obtain ⟨hname, hfresh⟩ := h.fresh
  rw [Subroutine.names, hname]
  show (f.name.name :: (labelNames r.body ++ [exitLabel f.name.name])).Nodup ∧ _
  have hexit : f.name.name ≠ exitLabel f.name.name := by
    intro heq
    exact hf.not_point ((congrArg String.toList heq).trans (toList_exitLabel _))
  refine ⟨List.nodup_cons.2 ⟨?_, List.nodup_append.2 ⟨hfresh.nodup, by simp, ?_⟩⟩, fun l hl => ?_⟩
  · intro hmem
    rcases List.mem_append.1 hmem with hmem | hmem
    · obtain ⟨i, s, heq, -⟩ := hfresh.named _ hmem
      exact hf.not_point ((congrArg String.toList heq).trans (toList_labelName i s))
    · exact hexit (List.mem_singleton.1 hmem)
  · intro l hl l' hl' heq
    obtain ⟨i, s, rfl, -, -, hs⟩ := hfresh.named l hl
    rw [List.mem_singleton.1 hl'] at heq
    exact labelName_ne_exitLabel hs heq
  · rcases List.mem_cons.1 hl with rfl | hl
    · exact .function List.mem_cons_self
    · rcases List.mem_append.1 hl with hl | hl
      · obtain ⟨i, s, rfl, hlo, hhi, hs⟩ := hfresh.named l hl
        exact .label hlo hhi hs
      · rw [List.mem_singleton.1 hl]
        exact .exit List.mem_cons_self

theorem BlockName.ne {f : Func} {fs : List Func} {lo mid hi : Nat} {l l' : String}
    (h : BlockName [f] lo mid l) (h' : BlockName fs mid hi l') (hf : IsName f.name.name)
    (hfs : ∀ g ∈ fs, IsName g.name.name) (hne : ∀ g ∈ fs, f.name.name ≠ g.name.name) : l ≠ l' := by
  have hone : ∀ {g : Func}, g ∈ [f] → g = f := fun hg => List.mem_singleton.1 hg
  intro heq
  cases h with
  | function hg =>
    cases hone hg
    cases h' with
    | function hk => exact hne _ hk heq
    | exit hk => exact hf.ne_exitLabel _ heq
    | label => exact hf.ne_labelName _ _ heq
  | exit hg =>
    cases hone hg
    cases h' with
    | function hk => exact (hfs _ hk).ne_exitLabel _ heq.symm
    | exit hk => exact hne _ hk (exitLabel_inj heq)
    | label _ _ hs => exact labelName_ne_exitLabel hs heq.symm
  | label hlo hhi hs =>
    cases h' with
    | function hk => exact (hfs _ hk).ne_labelName _ _ heq.symm
    | exit hk => exact labelName_ne_exitLabel hs heq
    | label hlo' hhi' hs' =>
      have := labelName_inj heq
      omega

theorem BlockName.mono {fs gs : List Func} {lo hi lo' hi' : Nat} {l : String} (h : BlockName fs lo hi l)
    (hsub : ∀ f ∈ fs, f ∈ gs) (hlo : lo' ≤ lo) (hhi : hi ≤ hi') : BlockName gs lo' hi' l := by
  cases h with
  | function hf => exact .function (hsub _ hf)
  | exit hf => exact .exit (hsub _ hf)
  | label h h' hs => exact .label (Nat.le_trans hlo h) (Nat.lt_of_lt_of_le h' hhi) hs

theorem ProgramCode.names {c : Meaning} {n n' : Nat} {fs : List Func} {rs : List Subroutine}
    (h : ProgramCode c n fs rs n') (hfs : ∀ f ∈ fs, IsName f.name.name)
    (hnodup : (fs.map (·.name.name)).Nodup) :
    n ≤ n' ∧ (rs.flatMap Subroutine.names).Nodup ∧ ∀ l ∈ rs.flatMap Subroutine.names, BlockName fs n n' l := by
  induction h with
  | nil => exact ⟨Nat.le_refl _, List.nodup_nil, nofun⟩
  | @cons n n₁ n₂ f fs r rs hf _ ih =>
    rw [List.map_cons, List.nodup_cons] at hnodup
    have hname := hfs f List.mem_cons_self
    have hrest : ∀ g ∈ fs, IsName g.name.name := fun g hg => hfs g (List.mem_cons_of_mem _ hg)
    obtain ⟨hr, hrn⟩ := hf.names hname
    obtain ⟨hle, hrs, hrsn⟩ := ih hrest hnodup.2
    have hle₁ := hf.fresh.2.le
    refine ⟨Nat.le_trans hle₁ hle, List.nodup_append.2 ⟨hr, hrs, fun l hl l' hl' => ?_⟩, fun l hl => ?_⟩
    · refine (hrn l hl).ne (hrsn l' hl') hname hrest fun g hg heq => hnodup.1 ?_
      exact heq ▸ List.mem_map_of_mem (f := fun g : Func => g.name.name) hg
    · rcases List.mem_append.1 hl with hl | hl
      · refine (hrn l hl).mono (fun g hg => ?_) (Nat.le_refl _) hle
        rw [List.mem_singleton.1 hg]
        exact List.mem_cons_self
      · exact (hrsn l hl).mono (fun g hg => List.mem_cons_of_mem _ hg) hle₁ (Nat.le_refl _)

theorem intrinsic_not_point {l : String} {cs : List Char} (h : l.toList = '.' :: cs) :
    Intrinsic.ofName? l = none := by
  cases hi : Intrinsic.ofName? l with
  | none => rfl
  | some i =>
    unfold Intrinsic.ofName? at hi
    split at hi
    any_goals cases hi
    all_goals exact absurd h nofun

/-- **The blocks of a program have different names**, none of them that of a function of the host. -/
theorem wellNamed_of_programCode {c : Meaning} {n n' : Nat} {p : Program} {rs : List Subroutine}
    {functions : FunctionTable} (h : ProgramCode c n p.functions rs n')
    (hfs : ∀ f ∈ p.functions, IsName f.name.name) (hd : Declared .runtime p.functions functions) :
    WellNamed rs := by
  obtain ⟨-, hnodup, hnames⟩ := h.names hfs hd.names
  refine ⟨hnodup, fun hmem => ?_, fun l hl => ?_⟩
  · have hempty : ∀ l, BlockName p.functions n n' l → l.toList ≠ [] := by
      intro l hl
      cases hl with
      | function hf =>
        obtain ⟨ch, cs, hch, -⟩ := hfs _ hf
        rw [hch]
        nofun
      | exit hf =>
        rw [toList_exitLabel]
        nofun
      | label =>
        rw [toList_labelName]
        nofun
    exact hempty _ (hnames _ hmem) rfl
  · cases hnames l hl with
    | @function f hf =>
      cases hi : Intrinsic.ofName? f.name.name with
      | none => rfl
      | some i => exact absurd (hd.fresh f hf) (runtime_of_intrinsic hi)
    | exit hf => exact intrinsic_not_point (toList_exitLabel _)
    | label => exact intrinsic_not_point (toList_labelName _ _)

end MicroC
