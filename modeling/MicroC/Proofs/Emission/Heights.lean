import MicroC.Proofs.Analysis.Rules
import MicroC.Proofs.Emission.Program
import MicroC.Proofs.Routine.Level

/-!
# The stack in the code of expressions and statements

The code of an expression puts one word on the stack and that of a statement leads from the words of one place
to those of the next. Neither changes words that were there before, but for those of variables that are
assigned to. A variable that is declared may get the word of padding.

* `Expr.Sets`, `Stmt.Sets`: the words of the variables that are assigned to.
* **`ExprCode.walk`**, **`StmtCode.walk`**: what the code of expressions and statements does to the stack.
* `RoutineCode.leveled`: a routine has one number of words at every place.
-/

namespace MicroC

open Convention

/-! ## Assignments -/

/-- A word is that of a variable that some of the expressions assigns to. -/
def Expr.Sets (symbols : SymbolTable) (slots : List NodeId) (es : List Expr) (i : Nat) : Prop :=
  ∃ s sp s' x y d, Expr.binary s .assign sp (.var s' x) y ∈ es ∧ symbols.get? s'.id = some d ∧
    Frame.slotNumber? d slots = some (i + 1)

theorem Meaning.slot?_eq_some {c : Meaning} {slots : List NodeId} {use : NodeId} {m : Nat}
    (h : c.slot? slots use = some m) :
    ∃ d, c.symbols.get? use = some d ∧ Frame.slotNumber? d slots = some (m + 1) := by
  obtain ⟨n, hn, rfl⟩ := Option.map_eq_some_iff.1 h
  obtain ⟨d, hd, hn⟩ := Option.bind_eq_some_iff.1 hn
  rw [Nat.sub_add_cancel (slotNumber?_pos hn)]
  exact ⟨d, hd, hn⟩

/-- The variables behind a statement, the latest first. -/
def Stmt.slots (slots : List NodeId) : Stmt → List NodeId
  | .decl b _ => b.site.id :: slots
  | _ => slots

mutual

/-- A word is that of a variable that a statement assigns to. The initial value of a declaration becomes the
word below the variables. -/
def Stmt.Sets (symbols : SymbolTable) (slots : List NodeId) : Stmt → Nat → Prop
  | .empty _, _ | .ret _ none, _ | .decl _ none, _ | .array .., _ => False
  | .ite _ e t none, i => Expr.Sets symbols slots e.subs i ∨ t.Sets symbols slots i
  | .ite _ e t (some u), i => Expr.Sets symbols slots e.subs i ∨ t.Sets symbols slots i ∨ u.Sets symbols slots i
  | .loop _ e b, i => Expr.Sets symbols slots e.subs i ∨ b.Sets symbols slots i
  | .ret _ (some e), i | .expr _ e, i => Expr.Sets symbols slots e.subs i
  | .decl _ (some e), i => Expr.Sets symbols slots e.subs i ∨ i = slots.length
  | .block _ body, i => Stmt.SetsAll symbols slots body i

def Stmt.SetsAll (symbols : SymbolTable) (slots : List NodeId) : List Stmt → Nat → Prop
  | [], _ => False
  | s :: ss, i => s.Sets symbols slots i ∨ Stmt.SetsAll symbols (s.slots slots) ss i

end

/-- Words to be kept are none of those that are set. -/
def Spares (keep sets : Nat → Prop) : Prop := ∀ i, keep i → ¬ sets i

theorem Spares.mono {keep sets sets' : Nat → Prop} (h : Spares keep sets) (hsub : ∀ i, sets' i → sets i) :
    Spares keep sets' := fun i hi hset => h i hi (hsub i hset)

theorem Spares.of_subset {keep : Nat → Prop} {symbols : SymbolTable} {slots : List NodeId} {es fs : List Expr}
    (h : Spares keep (Expr.Sets symbols slots fs)) (hsub : ∀ e ∈ es, e ∈ fs) :
    Spares keep (Expr.Sets symbols slots es) := by
  rintro i hi ⟨s, sp, s', x, y, d, hmem, hd⟩
  exact h i hi ⟨s, sp, s', x, y, d, hsub _ hmem, hd⟩

theorem Spares.none {sets : Nat → Prop} : Spares (fun _ => False) sets := fun _ hi => hi.elim

/-- Words to be kept have fewer than a number of words below them. -/
def Under (keep : Nat → Prop) (d : Nat) : Prop := ∀ i, keep i → i < d

theorem Under.mono {keep : Nat → Prop} {d n : Nat} (h : Under keep d) (hn : d ≤ n) : Under keep n :=
  fun i hi => Nat.lt_of_lt_of_le (h i hi) hn

theorem Under.none {d : Nat} : Under (fun _ => False) d := fun _ hi => hi.elim

/-! ## Templates -/

section Templates

variable {keep : Nat → Prop} {ls : List (String × List Kind)} {d : Nat}

theorem walk_growItems (hd : Under keep d) (n : Nat) : Walk keep ls d (growItems n) (d + n) := by
  induction n generalizing d with
  | zero => exact rfl
  | succ n ih =>
    have hrest := ih (hd.mono (Nat.le_succ d))
    rw [Nat.succ_add_eq_add_succ] at hrest
    exact ⟨trivial, hd.mono (Nat.le_succ d), hrest⟩

theorem walk_shrinkItems (hd : Under keep d) (n : Nat) : Walk keep ls (d + n) (shrinkItems n) d := by
  cases n with
  | zero => exact rfl
  | succ n =>
    have hheight : (Op.shrink n).height (d + (n + 1)) = d := Nat.add_sub_cancel d (n + 1)
    refine ⟨trivial, ?_, hheight⟩
    rw [hheight]
    exact hd

theorem walk_popItems (hd : Under keep d) (rs : List Reg) : Walk keep ls (d + rs.length) (popItems rs) d := by
  induction rs with
  | nil => exact rfl
  | cons r rs ih => exact ⟨trivial, hd.mono (Nat.le_add_right _ _), ih⟩

theorem walk_negationItems (hd : Under keep d) (κ : Kind) : Walk keep ls (d + 1) (negationItems κ) (d + 1) :=
  ⟨trivial, hd, trivial, hd, trivial, hd.mono (Nat.le_add_right _ _), rfl⟩

theorem walk_storeItems {m : Nat} (hd : Under keep d) (hm : ¬ keep m) : Walk keep ls d (storeItems m) d :=
  ⟨trivial, hd, hm, hd, rfl⟩

theorem walk_arithmeticItems (hd : Under keep d) (f : Arith) (κ : Kind) :
    Walk keep ls (d + 2) (arithmeticItems f κ) (d + 1) :=
  ⟨trivial, hd.mono (Nat.le_add_right _ _), trivial, hd, trivial, hd, trivial, hd.mono (Nat.le_add_right _ _), rfl⟩

theorem walk_divisionItems (hd : Under keep d) (r : Reg) (κ : Kind) :
    Walk keep ls (d + 2) (divisionItems r κ) (d + 1) :=
  ⟨trivial, hd.mono (Nat.le_add_right _ _), trivial, hd, trivial, hd, trivial, hd, trivial,
    hd.mono (Nat.le_add_right _ _), rfl⟩

theorem walk_comparisonItems (hd : Under keep d) (o : Order) (κ : Kind) :
    Walk keep ls (d + 2) (comparisonItems o κ) (d + 1) :=
  ⟨trivial, hd.mono (Nat.le_add_right _ _), trivial, hd, trivial, hd, trivial, hd, trivial, hd, trivial, hd, trivial,
    hd.mono (Nat.le_add_right _ _), rfl⟩

/-- Both labels of a power stand where its operands are off the stack. -/
theorem walk_powerItems {ks : List Kind} {n : Nat} (hd : Under keep ks.length) (κ : Kind)
    (hl : ∀ x ∈ labels (powerItems ks n κ), x ∈ ls) :
    Walk keep ls (ks.length + 2) (powerItems ks n κ) (ks.length + 1) := by
  have hloop : (labelName n "pow_loop", ks) ∈ ls := hl _ List.mem_cons_self
  have hend : (labelName (n + 1) "pow_end", ks) ∈ ls := hl _ (List.mem_cons_of_mem _ List.mem_cons_self)
  exact ⟨trivial, hd.mono (Nat.le_add_right _ _), trivial, hd, trivial, hd, rfl, trivial, hd, ⟨_, hend, rfl⟩, hd,
    trivial, hd, trivial, hd, ⟨_, hloop, rfl⟩, hd, rfl, trivial, hd.mono (Nat.le_add_right _ _), rfl⟩

theorem walk_operatorItems {ks : List Kind} {n : Nat} (hd : Under keep ks.length) (κ : Kind) (op : BinaryOp)
    (hl : ∀ x ∈ labels (operatorItems ks n κ op), x ∈ ls) :
    Walk keep ls (ks.length + 2) (operatorItems ks n κ op) (ks.length + 1) := by
  cases op with
  | add => exact walk_arithmeticItems hd .add κ
  | sub => exact walk_arithmeticItems hd .sub κ
  | mul => exact walk_arithmeticItems hd .mul κ
  | div => exact walk_divisionItems hd .rax κ
  | mod => exact walk_divisionItems hd .rdx κ
  | pow => exact walk_powerItems hd κ hl
  | _ => exact walk_comparisonItems hd _ κ

/-- The arguments in registers are popped, the others and the padding dropped behind the call. -/
theorem walk_callItems (hd : Under keep d) (f : String) (arity padding : Nat) (κ : Kind) :
    Walk keep ls (d + padding + arity) (callItems f arity padding κ) (d + 1) := by
  have hregs : d + padding + arity =
      d + (stackArguments arity + padding) + (Reg.arguments.take arity).length := by
    rw [List.length_take, stackArguments, show argumentRegisters.length = 6 from rfl,
      show Reg.arguments.length = 6 from rfl, Nat.min_def]
    split <;> omega
  have hd' : Under keep (d + (stackArguments arity + padding)) := hd.mono (Nat.le_add_right _ _)
  rw [hregs]
  refine (walk_popItems hd' _).append ⟨trivial, hd', (walk_shrinkItems hd _).append ?_⟩
  exact ⟨trivial, hd.mono (Nat.le_succ d), rfl⟩

theorem walk_branchItems {ks : List Kind} {target : String} (hd : Under keep ks.length)
    (hl : (target, ks) ∈ ls) : Walk keep ls (ks.length + 1) (branchItems target) ks.length :=
  ⟨trivial, hd, trivial, hd, ⟨ks, hl, rfl⟩, hd, rfl⟩

end Templates

/-! ## Expressions -/

section Expressions

variable {keep : Nat → Prop} {ls : List (String × List Kind)} {c : Meaning} {slots : List NodeId}

mutual

/-- **The code of an expression puts one word on the stack.** -/
theorem ExprCode.walk {ks : List Kind} {n n' : Nat} {κ : Kind} {e : Expr} {is : List Item}
    (h : ExprCode c slots ks n κ e is n') (hd : Under keep ks.length)
    (hs : Spares keep (Expr.Sets c.symbols slots e.subs))
    (hl : ∀ x ∈ labels is, x ∈ ls) : Walk keep ls ks.length is (ks.length + 1) := by
  have hd' : Under keep (ks.length + 1) := hd.mono (Nat.le_succ _)
  match h with
  | .narrow _ => exact ⟨trivial, hd', rfl⟩
  | .wide _ => exact ⟨trivial, hd, trivial, hd', rfl⟩
  | .var _ => exact ⟨trivial, hd', rfl⟩
  | .plus hx => exact hx.walk hd (hs.of_subset fun _ he => List.mem_cons_of_mem _ he) hl
  | .neg hx =>
    rw [labels_append] at hl
    exact (hx.walk hd (hs.of_subset fun _ he => List.mem_cons_of_mem _ he) fun x hx => hl x (List.mem_append_left _ hx)).append
      (walk_negationItems hd _)
  | .assign hm hy =>
    rw [labels_append] at hl
    refine (hy.walk hd (hs.of_subset fun _ he => List.mem_cons_of_mem _ (List.mem_append_right _ he))
      fun x hx => hl x (List.mem_append_left _ hx)).append (walk_storeItems hd' fun hi => hs _ hi ?_)
    obtain ⟨d, hd, hn⟩ := Meaning.slot?_eq_some hm
    exact ⟨_, _, _, _, _, d, List.mem_cons_self, hd, hn⟩
  | @ExprCode.binary _ _ ks n n₁ n₂ κ s op sp x y is js hop hx hy =>
    rw [labels_append, labels_append] at hl
    refine (hx.walk hd (hs.of_subset fun _ he => List.mem_cons_of_mem _ (List.mem_append_left _ he))
      fun x hx => hl x (List.mem_append_left _ hx)).append (Walk.append (m := ks.length + 2) ?_ ?_)
    · exact hy.walk hd' (hs.of_subset fun _ he => List.mem_cons_of_mem _ (List.mem_append_right _ he))
        fun x hx => hl x (List.mem_append_right _ (List.mem_append_left _ hx))
    · exact walk_operatorItems hd κ op fun x hx => hl x (List.mem_append_right _ (List.mem_append_right _ hx))
  | @ExprCode.call _ _ ks n n' p κ s f args is hf hp hargs =>
    rw [labels_append, labels_append] at hl
    have hlen : (List.replicate p Kind.pad ++ ks).length = ks.length + p := by
      rw [List.length_append, List.length_replicate, Nat.add_comm]
    have hwalk := hargs.walk (hlen ▸ hd.mono (Nat.le_add_right _ p))
      (hs.of_subset fun _ he => List.mem_cons_of_mem _ he)
      fun x hx => hl x (List.mem_append_right _ (List.mem_append_left _ hx))
    rw [hlen] at hwalk
    exact (walk_growItems hd p).append (hwalk.append (walk_callItems hd _ _ _ κ))

theorem ArgsCode.walk {ks : List Kind} {n n' : Nat} {es : List Expr} {is : List Item}
    (h : ArgsCode c slots ks n es is n') (hd : Under keep ks.length)
    (hs : Spares keep (Expr.Sets c.symbols slots (Expr.subsList es)))
    (hl : ∀ x ∈ labels is, x ∈ ls) : Walk keep ls ks.length is (ks.length + es.length) := by
  match h with
  | .nil => exact rfl
  | @ArgsCode.cons _ _ ks n n₁ n₂ e es is js hes he =>
    rw [labels_append] at hl
    have hlen : (List.replicate es.length Kind.temp ++ ks).length = ks.length + es.length := by
      rw [List.length_append, List.length_replicate, Nat.add_comm]
    have hwalk := he.walk (hlen ▸ hd.mono (Nat.le_add_right _ _)) (hs.of_subset fun _ he => List.mem_append_left _ he)
      fun x hx => hl x (List.mem_append_right _ hx)
    rw [hlen] at hwalk
    exact (hes.walk hd (hs.of_subset fun _ he => List.mem_append_right _ he) fun x hx => hl x (List.mem_append_left _ hx)).append
      hwalk

end

end Expressions

/-! ## Places -/

namespace Spot

variable {keep : Nat → Prop} {ls : List (String × List Kind)} {c : Meaning} {p q r : Spot}

/-- Behind some statements there are more variables. -/
def Grows (p q : Spot) : Prop := q = p ∨ ∃ ds d, q.slots = ds ++ d :: p.slots

theorem Grows.refl (p : Spot) : p.Grows p := .inl rfl

theorem Grows.slots (h : p.Grows q) : ∃ ds, q.slots = ds ++ p.slots := by
  rcases h with rfl | ⟨ds, d, h⟩
  · exact ⟨[], rfl⟩
  · exact ⟨ds ++ [d], by rw [h, List.append_assoc]; rfl⟩

theorem Grows.trans (h : p.Grows q) (h' : q.Grows r) : p.Grows r := by
  rcases h' with rfl | ⟨ds, d, hr⟩
  · exact h
  · obtain ⟨es, hq⟩ := h.slots
    right
    rcases List.eq_nil_or_concat es with rfl | ⟨es, e, rfl⟩
    · exact ⟨ds, d, by rw [hr, hq]; rfl⟩
    · exact ⟨ds ++ d :: es, e, by rw [hr, hq]; simp⟩

/-- One more variable takes the place of padding. -/
theorem Grows.length_le (h : p.Grows q) (hp : p.Filled) (hq : q.Filled) : p.words.length ≤ q.words.length := by
  rcases h with rfl | ⟨ds, d, h⟩
  · exact Nat.le_refl _
  · have hpad : p.padded.toNat ≤ 1 := Bool.toNat_le _
    rw [hp, hq, h, List.length_append, List.length_cons]
    omega

theorem even_align (p : Spot) : p.align.words.length % 2 = 0 := by
  unfold align
  split
  · next h => simpa [isAligned] using h
  · next h =>
    have : ¬ p.words.length % 2 = 0 := by simpa [isAligned] using h
    rw [List.length_cons]
    omega

theorem slots_align (p : Spot) : p.align.slots = p.slots := by
  unfold align
  split <;> rfl

theorem walk_alignItems (hd : Under keep p.words.length) :
    Walk keep ls p.words.length p.alignItems p.align.words.length := by
  unfold align alignItems
  split
  · exact rfl
  · exact ⟨trivial, hd.mono (Nat.le_succ _), rfl⟩

theorem walk_release (h : p.Grows q) (hp : p.Filled) (hq : q.Filled) (hd : Under keep p.words.length) :
    Walk keep ls q.words.length (p.release q) p.words.length := by
  have hlen := h.length_le hp hq
  have hwalk := @walk_shrinkItems keep ls _ hd (q.words.length - p.words.length)
  rwa [Nat.add_sub_cancel' hlen] at hwalk

end Spot

/-! ## Statements -/

section Statements

variable {keep : Nat → Prop} {ls : List (String × List Kind)} {c : Meaning}

theorem walk_branch {p q : Spot} {is : List Item} (hp : p.Filled) (hd : Under keep p.words.length)
    (h : q.Filled ∧ p.Grows q ∧ Walk keep ls p.words.length is q.words.length) {m : Nat} {k : List Item}
    (hk : Walk keep ls p.words.length k m) : Walk keep ls p.words.length (is ++ (p.release q ++ k)) m :=
  h.2.2.append ((Spot.walk_release h.2.1 hp h.1 hd).append hk)

/-- A variable that takes the place of padding, if there is any. -/
theorem walk_declare {p q : Spot} {d : NodeId} {κ : Kind} (hp : p.Filled) (hd : Under keep (p.slots.length + 1))
    (hq : q = p.declare d (κ :: p.base)) : q.align.Filled ∧ p.Grows q.align ∧
      Walk keep ls (p.slots.length + 1) q.alignItems q.align.words.length := by
  have hlen : q.words.length = p.slots.length + 1 := by
    rw [hq, ← hp.length_base]
    rfl
  refine ⟨?_, .inr ⟨[], d, ?_⟩, ?_⟩
  · refine Spot.filled_align (hq ▸ Spot.filled_declare hp d κ) ?_
    rw [hq]
    rfl
  · rw [Spot.slots_align, hq]
    rfl
  · rw [← hlen]
    exact Spot.walk_alignItems (hlen ▸ hd)

theorem StmtCode.slots {p q : Spot} {n n' : Nat} {s : Stmt} {is : List Item} (h : StmtCode c p n s is q n') :
    q.slots = s.slots p.slots := by
  cases h with
  | init _ hq => rw [Spot.slots_align, hq]; rfl
  | bare hq => rw [Spot.slots_align, hq]; rfl
  | _ => rfl

mutual

/-- **The code of a statement leads from the words of its place to those of the next.** -/
theorem StmtCode.walk {p q : Spot} {n n' : Nat} {s : Stmt} {is : List Item} (h : StmtCode c p n s is q n')
    (hp : p.Filled) (hd : Under keep p.words.length) (hs : Spares keep (s.Sets c.symbols p.slots))
    (hl : ∀ x ∈ labels is, x ∈ ls) :
    q.Filled ∧ p.Grows q ∧ Walk keep ls p.words.length is q.words.length := by
  have hlen : p.words.length = p.slots.length + p.padded.toNat := hp
  match h with
  | .empty => exact ⟨hp, .refl p, rfl⟩
  | @StmtCode.ifThen _ _ q n n₁ n' s e t is js he ht =>
    simp only [labels_append, labels, List.mem_append, List.mem_cons, branchItems] at hl
    refine ⟨hp, .refl p, ?_⟩
    have hwalk := he.walk hd (hs.mono fun _ => .inl) fun x hx => hl x (by simp [hx])
    have hbranch := ht.walk hp hd (hs.mono fun _ => .inr) fun x hx => hl x (by simp [hx])
    refine hwalk.append ((walk_branchItems hd (hl _ (by simp))).append ⟨rfl, walk_branch hp hd hbranch ?_⟩)
    exact ⟨rfl, rfl⟩
  | @StmtCode.ifElse _ _ q r n n₁ n₂ n' s e t u is js ks he ht hu =>
    simp only [labels_append, labels, List.mem_append, List.mem_cons, branchItems] at hl
    refine ⟨hp, .refl p, ?_⟩
    have hwalk := he.walk hd (hs.mono fun _ => .inl) fun x hx => hl x (by simp [hx])
    have hbranch := ht.walk hp hd (hs.mono fun _ h => .inr (.inl h)) fun x hx => hl x (by simp [hx])
    have hbranch' := hu.walk hp hd (hs.mono fun _ h => .inr (.inr h)) fun x hx => hl x (by simp [hx])
    refine hwalk.append ((walk_branchItems hd (hl _ (by simp))).append ⟨rfl, walk_branch hp hd hbranch ?_⟩)
    have hend : (labelName (n₁ + 2) "endif", p.words) ∈ ls := hl _ (by simp)
    exact ⟨⟨_, hend, rfl⟩, hd, rfl, walk_branch hp hd hbranch' ⟨rfl, rfl⟩⟩
  | @StmtCode.loop _ _ q n n₁ n' s e b is js he hb =>
    simp only [labels_append, labels, List.mem_append, List.mem_cons, branchItems] at hl
    refine ⟨hp, .refl p, rfl, ?_⟩
    have hwalk := he.walk hd (hs.mono fun _ => .inl) fun x hx => hl x (by simp [hx])
    have hbranch := hb.walk hp hd (hs.mono fun _ => .inr) fun x hx => hl x (by simp [hx])
    refine hwalk.append ((walk_branchItems hd (hl _ (by simp))).append ⟨rfl, walk_branch hp hd hbranch ?_⟩)
    have hcond : (labelName n "while_cond", p.words) ∈ ls := hl _ (by simp)
    exact ⟨⟨_, hcond, rfl⟩, hd, rfl, rfl⟩
  | .leave => exact ⟨hp, .refl p, trivial, hd, rfl⟩
  | .ret he =>
    rw [labels_append] at hl
    refine ⟨hp, .refl p, (he.walk hd hs fun x hx => hl x (List.mem_append_left _ hx)).append ?_⟩
    exact ⟨trivial, hd, trivial, hd, rfl⟩
  | .expr he =>
    rw [labels_append] at hl
    refine ⟨hp, .refl p, (he.walk hd hs fun x hx => hl x (List.mem_append_left _ hx)).append ?_⟩
    exact ⟨trivial, hd, rfl⟩
  | @StmtCode.init _ _ q n n' b e is he hq =>
    rw [labels_append, labels_append] at hl
    -- The initial value gets the word of padding, if there is any.
    have hbase : Under keep p.slots.length := by
      intro i hi
      have hlt := hd i hi
      have hne : i ≠ p.slots.length := fun heq => hs i hi (.inr heq)
      have hpad : p.padded.toNat ≤ 1 := Bool.toNat_le _
      omega
    obtain ⟨hfilled, hgrows, halign⟩ := @walk_declare keep ls _ _ _ _ hp (hbase.mono (Nat.le_succ _)) hq
    refine ⟨hfilled, hgrows, ?_⟩
    have hwalk := @ExprCode.walk _ ls _ _ _ _ _ _ _ _ he (hp.length_base.symm ▸ hbase) (hs.mono fun _ => .inl)
      fun x hx => hl x (List.mem_append_right _ (List.mem_append_left _ hx))
    rw [hp.length_base] at hwalk
    rw [hlen]
    exact (walk_shrinkItems hbase _).append (hwalk.append halign)
  | @StmtCode.bare _ _ q n b hq =>
    have hgrown : p.words.length + (1 - p.padded.toNat) = p.slots.length + 1 := by
      have hpad : p.padded.toNat ≤ 1 := Bool.toNat_le _
      omega
    obtain ⟨hfilled, hgrows, halign⟩ :=
      @walk_declare keep ls _ _ _ _ hp (hgrown ▸ hd.mono (Nat.le_add_right _ _)) hq
    have hgrow := @walk_growItems keep ls _ hd (1 - p.padded.toNat)
    rw [hgrown] at hgrow
    exact ⟨hfilled, hgrows, hgrow.append halign⟩
  | @StmtCode.block _ _ q n n' s body is h =>
    rw [labels_append] at hl
    have hbody := h.walk hp hd hs fun x hx => hl x (List.mem_append_left _ hx)
    refine ⟨hp, .refl p, ?_⟩
    have := @walk_branch keep ls _ _ _ hp hd hbody _ [] rfl
    rwa [List.append_nil] at this

theorem StmtsCode.walk {p q : Spot} {n n' : Nat} {ss : List Stmt} {is : List Item}
    (h : StmtsCode c p n ss is q n') (hp : p.Filled) (hd : Under keep p.words.length)
    (hs : Spares keep (Stmt.SetsAll c.symbols p.slots ss)) (hl : ∀ x ∈ labels is, x ∈ ls) :
    q.Filled ∧ p.Grows q ∧ Walk keep ls p.words.length is q.words.length := by
  match h with
  | .nil => exact ⟨hp, .refl p, rfl⟩
  | .cons h h' =>
    rw [labels_append] at hl
    obtain ⟨hq, hgrows, hwalk⟩ := h.walk hp hd (hs.mono fun _ => .inl) fun x hx => hl x (List.mem_append_left _ hx)
    obtain ⟨hr, hgrows', hwalk'⟩ := h'.walk hq (hd.mono (hgrows.length_le hp hq))
      (h.slots ▸ hs.mono fun _ => .inr) fun x hx => hl x (List.mem_append_right _ hx)
    exact ⟨hr, hgrows.trans hgrows', hwalk.append hwalk'⟩

end

theorem StmtCode.filled {p q : Spot} {n n' : Nat} {s : Stmt} {is : List Item} (h : StmtCode c p n s is q n')
    (hp : p.Filled) : q.Filled := (h.walk hp .none .none fun _ => id).1

theorem StmtsCode.filled {p q : Spot} {n n' : Nat} {ss : List Stmt} {is : List Item}
    (h : StmtsCode c p n ss is q n') (hp : p.Filled) : q.Filled := (h.walk hp .none .none fun _ => id).1

/-- Between statements there is an even number of words. -/
theorem StmtCode.even {p q : Spot} {n n' : Nat} {s : Stmt} {is : List Item} (h : StmtCode c p n s is q n')
    (hp : p.words.length % 2 = 0) : q.words.length % 2 = 0 := by
  cases h with
  | init _ _ => exact Spot.even_align _
  | bare _ => exact Spot.even_align _
  | _ => exact hp

theorem StmtsCode.even {p q : Spot} {n n' : Nat} {ss : List Stmt} {is : List Item}
    (h : StmtsCode c p n ss is q n') (hp : p.words.length % 2 = 0) : q.words.length % 2 = 0 := by
  match h with
  | .nil => exact hp
  | .cons h h' => exact h'.even (h.even hp)

end Statements

/-! ## Functions -/

section Functions

variable {c : Meaning} {n n' : Nat}

theorem walk_spillItems (ls : List (String × List Kind)) (d i n : Nat) :
    Walk (fun _ => False) ls d (spillItems i n) (d + n) := by
  induction n generalizing d i with
  | zero => exact rfl
  | succ n ih =>
    have hrest := ih (d + 1) (i + 1)
    rw [Nat.succ_add_eq_add_succ] at hrest
    exact ⟨trivial, Under.none, hrest⟩

theorem Func.walk_place (f : Func) (ls : List (String × List Kind)) :
    Walk (fun _ => False) ls 0 (spillItems 0 f.params.length ++ f.place.alignItems) f.place.align.words.length := by
  have hlen : f.place.words.length = f.params.length := List.length_replicate
  have hspill := walk_spillItems ls 0 0 f.params.length
  rw [Nat.zero_add] at hspill
  have halign : Walk (fun _ => False) ls f.params.length f.place.alignItems f.place.align.words.length := by
    rw [← hlen]
    exact Spot.walk_alignItems .none
  exact hspill.append halign

/-- **A routine has a number of words at every place.** -/
theorem RoutineCode.leveled {f : Func} {r : Subroutine} (h : RoutineCode c n f r n') : r.Leveled := by
  cases h with
  | @mk _ _ is q hs =>
    refine ⟨f.place.align.words.length, ?_⟩
    dsimp only
    rw [← List.append_assoc]
    have hfilled : f.place.align.Filled := Spot.filled_align f.filled_place rfl
    refine (f.walk_place _).append (walk_branch hfilled .none (hs.walk hfilled .none .none fun x hx => ?_)
      ⟨trivial, Under.none, rfl⟩)
    rw [labels_append, labels_append]
    exact List.mem_append_right _ (by rw [labels_append]; exact List.mem_append_left _ hx)

theorem ProgramCode.leveled {fs : List Func} {rs : List Subroutine} (h : ProgramCode c n fs rs n') :
    ∀ r ∈ rs, r.Leveled := by
  induction h with
  | nil => exact fun _ => nofun
  | cons hf _ ih => exact List.forall_mem_cons.2 ⟨hf.leveled, ih⟩

end Functions

end MicroC
