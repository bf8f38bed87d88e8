import MicroC.Proofs.Emission.Heights

/-!
# In the course of an emission

The emission of a program turns from one part of it to the next. Each time the frame tells how deep the stack
is, and the lines emitted so far tell where the code of the part will stand.

* `Part`, `Part.emit`: what code is emitted for.
* `Part.Turns`, `Part.Visits`: the parts that an emission comes to, the lines in front of them, and the layouts.
* `ExprCode.unique`, `StmtCode.unique`: there is one list of items for each tree.
* **`Part.Visits.placed`**: where the items of a part stand.
-/

namespace MicroC

open Convention Emit

/-! ## Parts -/

/-- What code is emitted for. -/
inductive Part
  | functions (fs : List Func)
  | function (f : Func)
  | stmts (exit : String) (ss : List Stmt)
  | stmt (exit : String) (s : Stmt)
  /-- A branch or the body of a loop, which is a scope. -/
  | branch (exit : String) (s : Stmt)
  | arguments (es : List Expr)
  | expr (e : Expr)

/-- The emission of the code of a part. -/
def Part.emit (a : Analysis) : Part → Emit Unit
  | .functions fs => Emit.functions a fs
  | .function f => Emit.function a f
  | .stmts exit ss => Emit.stmts a exit ss
  | .stmt exit s => Emit.stmt a exit s
  | .branch exit s => Emit.scope (Emit.stmt a exit s)
  | .arguments es => Emit.arguments a es
  | .expr e => Emit.expr a e

/-- What is emitted for a function in front of its body. -/
def Emit.prologue (a : Analysis) (f : Func) : Emit Unit := do
  modifyFrame fun _ => {}
  label f.name.name s!"Entry point of function '{f.name.name}'" true
  saveRegisters calleeSaved.reverse
  instruction .pushq [framePointer] "Save caller frame pointer"
  instruction .movq [stackPointer, framePointer] "Set up frame pointer"
  spillParameters a 0 f.params
  alignFrame

/-- What is emitted for a call in front of its arguments. -/
def Emit.callPad (arity : Nat) : Emit Unit := do
  if ((← frame).depth + stackArguments arity) % 2 = 1 then
    growStack "Align stack for call"
    modifyFrame (·.pushTemps 1)

/-- What is emitted for a declaration in front of its initial value. -/
def Emit.reclaim : Emit Unit := do
  if (← frame).padded then
    shrinkStack 1 "Reclaim frame padding"
    modifyFrame (·.setPadded false)

/-- After some emission, that of a part turns to another part. -/
inductive Part.Turns (a : Analysis) : Part → Emit Unit → Part → Prop
  | function {f : Func} {fs : List Func} : Turns a (.functions (f :: fs)) (pure ()) (.function f)
  | functions {f : Func} {fs : List Func} : Turns a (.functions (f :: fs)) (Emit.function a f) (.functions fs)
  | body {f : Func} : Turns a (.function f) (prologue a f) (.stmts (exitLabel f.name.name) f.body)
  | head {exit : String} {s : Stmt} {ss : List Stmt} : Turns a (.stmts exit (s :: ss)) (pure ()) (.stmt exit s)
  | tail {exit : String} {s : Stmt} {ss : List Stmt} :
      Turns a (.stmts exit (s :: ss)) (Emit.stmt a exit s) (.stmts exit ss)
  | branch {exit : String} {s : Stmt} : Turns a (.branch exit s) (pure ()) (.stmt exit s)
  | condition {exit : String} {st : Site} {e : Expr} {t : Stmt} {u : Option Stmt} :
      Turns a (.stmt exit (.ite st e t u)) (pure ()) (.expr e)
  | thenOnly {exit : String} {st : Site} {e : Expr} {t : Stmt} :
      Turns a (.stmt exit (.ite st e t none)) (do
        Emit.expr a e
        let thenLabel ← freshLabel "then"
        let endLabel ← freshLabel "endif"
        branchUnlessTrue endLabel
        label thenLabel "Then branch") (.branch exit t)
  | thenBranch {exit : String} {st : Site} {e : Expr} {t u : Stmt} :
      Turns a (.stmt exit (.ite st e t (some u))) (do
        Emit.expr a e
        let thenLabel ← freshLabel "then"
        let elseLabel ← freshLabel "else"
        let _endLabel ← freshLabel "endif"
        branchUnlessTrue elseLabel
        label thenLabel "Then branch") (.branch exit t)
  | elseBranch {exit : String} {st : Site} {e : Expr} {t u : Stmt} :
      Turns a (.stmt exit (.ite st e t (some u))) (do
        Emit.expr a e
        let thenLabel ← freshLabel "then"
        let elseLabel ← freshLabel "else"
        let endLabel ← freshLabel "endif"
        branchUnlessTrue elseLabel
        label thenLabel "Then branch"
        scope (Emit.stmt a exit t)
        instruction .jmp [endLabel] "Skip else branch"
        label elseLabel "Else branch") (.branch exit u)
  | loopCondition {exit : String} {st : Site} {e : Expr} {b : Stmt} :
      Turns a (.stmt exit (.loop st e b)) (do
        let condLabel ← freshLabel "while_cond"
        let _bodyLabel ← freshLabel "while_body"
        let _endLabel ← freshLabel "while_end"
        label condLabel "Loop condition") (.expr e)
  | loopBody {exit : String} {st : Site} {e : Expr} {b : Stmt} :
      Turns a (.stmt exit (.loop st e b)) (do
        let condLabel ← freshLabel "while_cond"
        let bodyLabel ← freshLabel "while_body"
        let endLabel ← freshLabel "while_end"
        label condLabel "Loop condition"
        Emit.expr a e
        branchUnlessTrue endLabel
        label bodyLabel "Loop body") (.branch exit b)
  | returned {exit : String} {st : Site} {e : Expr} : Turns a (.stmt exit (.ret st (some e))) (pure ()) (.expr e)
  | discarded {exit : String} {st : Site} {e : Expr} : Turns a (.stmt exit (.expr st e)) (pure ()) (.expr e)
  | initial {exit : String} {b : Binder} {e : Expr} : Turns a (.stmt exit (.decl b (some e))) reclaim (.expr e)
  | block {exit : String} {st : Site} {body : List Stmt} :
      Turns a (.stmt exit (.block st body)) (pure ()) (.stmts exit body)
  | operand {st : Site} {op : UnaryOp} {sp : Span} {x : Expr} :
      Turns a (.expr (.unary st op sp x)) (pure ()) (.expr x)
  | assigned {st : Site} {sp : Span} {x y : Expr} : Turns a (.expr (.binary st .assign sp x y)) (pure ()) (.expr y)
  | left {st : Site} {op : BinaryOp} {sp : Span} {x y : Expr} (hop : op ≠ .assign) :
      Turns a (.expr (.binary st op sp x y)) (pure ()) (.expr x)
  | right {st : Site} {op : BinaryOp} {sp : Span} {x y : Expr} (hop : op ≠ .assign) :
      Turns a (.expr (.binary st op sp x y)) (Emit.expr a x) (.expr y)
  | arguments {st : Site} {f : Ident} {args : List Expr} :
      Turns a (.expr (.call st f args)) (callPad args.length) (.arguments args)
  | rest {e : Expr} {es : List Expr} : Turns a (.arguments (e :: es)) (pure ()) (.arguments es)
  | first {e : Expr} {es : List Expr} : Turns a (.arguments (e :: es)) (Emit.arguments a es) (.expr e)

/-- The emission of a part from a layout comes, behind some lines, to another part with another layout, and to
an end behind that. -/
inductive Part.Visits (a : Analysis) : Part → Layout → List Line → Part → Layout → Emitted Unit → Prop
  | here {P : Part} {l : Layout} {out : Emitted Unit} (h : P.emit a l = .ok out) : Visits a P l [] P l out
  | further {P Q R : Part} {before : Emit Unit} {l l' : Layout} {mid out : Emitted Unit} {lines : List Line}
      (h : P.Turns a before Q) (hb : before l = .ok mid) (hv : Visits a Q mid.layout lines R l' out) :
      Visits a P l (mid.lines ++ lines) R l' out

/-- The number of instructions among lines. -/
def codeLength : List Line → Nat
  | [] => 0
  | .label .. :: ls => codeLength ls
  | .code _ :: ls => codeLength ls + 1

theorem codeLength_append (ls ms : List Line) : codeLength (ls ++ ms) = codeLength ls + codeLength ms := by
  induction ls with
  | nil => exact (Nat.zero_add _).symm
  | cons l ls ih =>
    cases l with
    | label => exact ih
    | code i =>
      show codeLength (ls ++ ms) + 1 = codeLength ls + 1 + codeLength ms
      rw [ih]
      omega

theorem Written.codeLength {exit : String} {ls : List Line} {k : List Item} (h : Written exit ls k) :
    codeLength ls = width k := by
  induction h with
  | nil => rfl
  | op _ _ ih => rw [width_op, ← ih]; rfl
  | label _ ih => rw [width_label, ← ih]; rfl

theorem codeLength_splitLines (ls : List Line) :
    codeLength ls = (splitLines ls).1.length + blockWidth (splitLines ls).2 := by
  induction ls with
  | nil => rfl
  | cons l ls ih =>
    cases l with
    | label n c g =>
      show codeLength ls = 0 + ((splitLines ls).1.length + blockWidth (splitLines ls).2)
      rw [ih, Nat.zero_add]
    | code i =>
      show codeLength ls + 1 = ((splitLines ls).1.length + 1) + blockWidth (splitLines ls).2
      rw [ih]
      omega

/-! ## One list of items -/

section Unique

variable {c : Meaning} {slots : List NodeId}

mutual

/-- An expression has one list of items. -/
theorem ExprCode.unique {ks : List Kind} {n m m' : Nat} {κ : Kind} {e : Expr} {is js : List Item}
    (h : ExprCode c slots ks n κ e is m) (h' : ExprCode c slots ks n κ e js m') : is = js ∧ m = m' := by
  match h with
  | .narrow hv | .wide hv =>
    cases h' with
    | narrow hv' => first | exact ⟨rfl, rfl⟩ | exact absurd hv' (by simp [hv])
    | wide hv' => first | exact ⟨rfl, rfl⟩ | exact absurd hv' (by simp [hv])
  | .var hm =>
    cases h' with
    | var hm' =>
      cases hm.symm.trans hm'
      exact ⟨rfl, rfl⟩
  | .plus hx =>
    cases h' with
    | plus hx' => exact hx.unique hx'
  | .neg hx =>
    cases h' with
    | neg hx' =>
      obtain ⟨rfl, rfl⟩ := hx.unique hx'
      exact ⟨rfl, rfl⟩
  | .assign hm hy =>
    cases h' with
    | assign hm' hy' =>
      cases hm.symm.trans hm'
      obtain ⟨rfl, rfl⟩ := hy.unique hy'
      exact ⟨rfl, rfl⟩
    | binary hop => exact absurd rfl hop
  | .binary hop hx hy =>
    cases h' with
    | assign => exact absurd rfl hop
    | binary _ hx' hy' =>
      obtain ⟨rfl, rfl⟩ := hx.unique hx'
      obtain ⟨rfl, rfl⟩ := hy.unique hy'
      exact ⟨rfl, rfl⟩
  | .call hf hp hargs =>
    cases h' with
    | call hf' hp' hargs' =>
      cases hp.trans hp'.symm
      obtain ⟨rfl, rfl⟩ := hargs.unique hargs'
      exact ⟨rfl, rfl⟩

theorem ArgsCode.unique {ks : List Kind} {n m m' : Nat} {es : List Expr} {is js : List Item}
    (h : ArgsCode c slots ks n es is m) (h' : ArgsCode c slots ks n es js m') : is = js ∧ m = m' := by
  match h with
  | .nil =>
    cases h'
    exact ⟨rfl, rfl⟩
  | .cons hes he =>
    cases h' with
    | cons hes' he' =>
      obtain ⟨rfl, rfl⟩ := hes.unique hes'
      obtain ⟨rfl, rfl⟩ := he.unique he'
      exact ⟨rfl, rfl⟩

end

mutual

/-- A statement has one list of items, and leads to one place. -/
theorem StmtCode.unique {p q q' : Spot} {n m m' : Nat} {s : Stmt} {is js : List Item}
    (h : StmtCode c p n s is q m) (h' : StmtCode c p n s js q' m') : is = js ∧ q = q' ∧ m = m' := by
  match h with
  | .empty | .leave =>
    cases h'
    exact ⟨rfl, rfl, rfl⟩
  | .ifThen he ht =>
    cases h' with
    | ifThen he' ht' =>
      obtain ⟨rfl, rfl⟩ := he.unique he'
      obtain ⟨rfl, rfl, rfl⟩ := ht.unique ht'
      exact ⟨rfl, rfl, rfl⟩
  | .ifElse he ht hu =>
    cases h' with
    | ifElse he' ht' hu' =>
      obtain ⟨rfl, rfl⟩ := he.unique he'
      obtain ⟨rfl, rfl, rfl⟩ := ht.unique ht'
      obtain ⟨rfl, rfl, rfl⟩ := hu.unique hu'
      exact ⟨rfl, rfl, rfl⟩
  | .loop he hb =>
    cases h' with
    | loop he' hb' =>
      obtain ⟨rfl, rfl⟩ := he.unique he'
      obtain ⟨rfl, rfl, rfl⟩ := hb.unique hb'
      exact ⟨rfl, rfl, rfl⟩
  | .ret he =>
    cases h' with
    | ret he' =>
      obtain ⟨rfl, rfl⟩ := he.unique he'
      exact ⟨rfl, rfl, rfl⟩
  | .expr he =>
    cases h' with
    | expr he' =>
      obtain ⟨rfl, rfl⟩ := he.unique he'
      exact ⟨rfl, rfl, rfl⟩
  | .init he hq =>
    cases h' with
    | init he' hq' =>
      cases hq.trans hq'.symm
      obtain ⟨rfl, rfl⟩ := he.unique he'
      exact ⟨rfl, rfl, rfl⟩
  | .bare hq =>
    cases h' with
    | bare hq' =>
      cases hq.trans hq'.symm
      exact ⟨rfl, rfl, rfl⟩
  | .block h =>
    cases h' with
    | block h' =>
      obtain ⟨rfl, rfl, rfl⟩ := h.unique h'
      exact ⟨rfl, rfl, rfl⟩

theorem StmtsCode.unique {p q q' : Spot} {n m m' : Nat} {ss : List Stmt} {is js : List Item}
    (h : StmtsCode c p n ss is q m) (h' : StmtsCode c p n ss js q' m') : is = js ∧ q = q' ∧ m = m' := by
  match h with
  | .nil =>
    cases h'
    exact ⟨rfl, rfl, rfl⟩
  | .cons hs hss =>
    cases h' with
    | cons hs' hss' =>
      obtain ⟨rfl, rfl, rfl⟩ := hs.unique hs'
      obtain ⟨rfl, rfl, rfl⟩ := hss.unique hss'
      exact ⟨rfl, rfl, rfl⟩

end

end Unique

/-! ## The items of a part -/

section Coded

variable {a : Analysis} {arityOf : String → Option Nat}

variable (a arityOf) in
/-- The items of a part of a function, at a layout. -/
inductive Part.Coded : Part → Layout → List Item → Prop
  | stmts {exit : String} {ss : List Stmt} {p q : Spot} {n n' : Nat} {is : List Item} (hp : p.Filled)
      (heven : p.words.length % 2 = 0) (hc : Stmt.CalledAll a.functions a.types ss)
      (h : StmtsCode ⟨a.symbols, arityOf⟩ p n ss is q n') : Coded (.stmts exit ss) ⟨p.frame, n⟩ is
  | stmt {exit : String} {s : Stmt} {p q : Spot} {n n' : Nat} {is : List Item} (hp : p.Filled)
      (heven : p.words.length % 2 = 0) (hc : s.Called a.functions a.types)
      (h : StmtCode ⟨a.symbols, arityOf⟩ p n s is q n') : Coded (.stmt exit s) ⟨p.frame, n⟩ is
  | branch {exit : String} {s : Stmt} {p q : Spot} {n n' : Nat} {is : List Item} (hp : p.Filled)
      (heven : p.words.length % 2 = 0) (hc : s.Called a.functions a.types)
      (h : StmtCode ⟨a.symbols, arityOf⟩ p n s is q n') :
      Coded (.branch exit s) ⟨p.frame, n⟩ (is ++ p.release q)
  | arguments {es : List Expr} {ks : List Kind} {l : Layout} {n' : Nat} {is : List Item}
      (hlen : ks.length = l.frame.depth) (hc : Expr.CalledAll a.functions a.types es)
      (h : ArgsCode ⟨a.symbols, arityOf⟩ l.frame.slots ks l.labels es is n') : Coded (.arguments es) l is
  | expr {e : Expr} {ks : List Kind} {κ : Kind} {l : Layout} {n' : Nat} {is : List Item}
      (hlen : ks.length = l.frame.depth) (hc : e.Called a.functions a.types)
      (h : ExprCode ⟨a.symbols, arityOf⟩ l.frame.slots ks l.labels κ e is n') : Coded (.expr e) l is

/-- Items that lead from the words at one layout to those at another. -/
abbrev Climbs (ls : List (String × List Kind)) (l : Layout) (is : List Item) (l' : Layout) : Prop :=
  Walk (fun _ => False) ls l.frame.depth is l'.frame.depth

/-- Among some items those of a part stand behind lines that end in a layout. -/
def Part.Inside (a : Analysis) (arityOf : String → Option Nat) (l : Layout) (is : List Item) (lines : List Line)
    (l' : Layout) (P : Part) : Prop :=
  ∃ front inner back, is = front ++ (inner ++ back) ∧ P.Coded a arityOf l' inner ∧
    codeLength lines = width front ∧ ∀ ls, (∀ x ∈ labels is, x ∈ ls) → Climbs ls l front l'

theorem ExprCode.climbs {ks : List Kind} {κ : Kind} {e : Expr} {l l' : Layout} {c : Meaning} {n n' : Nat}
    {slots : List NodeId} {is : List Item} {ls : List (String × List Kind)} (h : ExprCode c slots ks n κ e is n')
    (hlen : ks.length = l.frame.depth) (hframe : l'.frame = l.frame.pushTemps 1) (hl : ∀ x ∈ labels is, x ∈ ls) :
    Climbs ls l is l' := by
  rw [Climbs, hframe, Frame.depth_pushTemps, ← hlen]
  exact h.walk .none .none hl

theorem ArgsCode.climbs {ks : List Kind} {es : List Expr} {l l' : Layout} {c : Meaning} {n n' : Nat}
    {slots : List NodeId} {is : List Item} {ls : List (String × List Kind)} (h : ArgsCode c slots ks n es is n')
    (hlen : ks.length = l.frame.depth) (hframe : l'.frame = l.frame.pushTemps es.length)
    (hl : ∀ x ∈ labels is, x ∈ ls) : Climbs ls l is l' := by
  rw [Climbs, hframe, Frame.depth_pushTemps, ← hlen]
  exact h.walk .none .none hl

theorem StmtCode.climbs {c : Meaning} {p q : Spot} {s : Stmt} {n n' m m' : Nat} {is : List Item}
    {ls : List (String × List Kind)} (h : StmtCode c p n s is q n') (hp : p.Filled)
    (hl : ∀ x ∈ labels is, x ∈ ls) : q.Filled ∧ p.Grows q ∧ Climbs ls ⟨p.frame, m⟩ is ⟨q.frame, m'⟩ := by
  obtain ⟨hq, hgrows, hwalk⟩ := h.walk hp .none .none hl
  rw [hp.depth, hq.depth] at hwalk
  exact ⟨hq, hgrows, hwalk⟩

/-! ## From a part to the next -/

variable {exit : String} {l l' : Layout} {P Q : Part} {before : Emit Unit} {mid : Emitted Unit} {is : List Item}

theorem emits_callPad (arity : Nat) : Emits exit (callPad arity) l (growItems (callPadding l.frame.depth arity))
    (l.push (callPadding l.frame.depth arity)) := by
  refine .ofFrame ?_
  unfold callPadding
  rcases Nat.mod_two_eq_zero_or_one (l.frame.depth + stackArguments arity) with h | h
  · rw [if_neg (by omega), h]
    exact emits_pure
  · rw [if_pos h, h]
    exact (emits_growStack _).bind (emits_modifyFrame _)

theorem emits_reclaim {p : Spot} (n : Nat) :
    Emits exit reclaim ⟨p.frame, n⟩ (shrinkItems p.padded.toNat) ⟨⟨p.slots, false, 0⟩, n⟩ := by
  refine .ofFrame ?_
  dsimp only
  cases hp : p.padded with
  | true =>
    rw [if_pos (show p.frame.padded = true from hp)]
    exact (emits_shrinkStack 1 _).bind (emits_modifyFrame _)
  | false =>
    rw [if_neg (show ¬ p.frame.padded = true by simp [Spot.frame, hp])]
    exact emits_pure.congr (by rw [Spot.frame, hp])

theorem Part.Inside.ofPure {inner : List Item} (hb : (pure () : Emit Unit) l = .ok mid)
    (hQ : Q.Coded a arityOf l inner) (back : List Item) :
    Q.Inside a arityOf l (inner ++ back) mid.lines mid.layout := by
  obtain rfl := Emit.pure_eq_ok.1 hb
  exact ⟨[], inner, back, rfl, hQ, rfl, fun _ _ => rfl⟩

theorem Part.Turns.inside_expr {e : Expr} (harity : Resolves a arityOf) (ht : Turns a (.expr e) before Q)
    (h : Coded a arityOf (.expr e) l is) (hb : before l = .ok mid) :
    Q.Inside a arityOf l is mid.lines mid.layout := by
  cases h with
  | @expr _ ks κ _ n' _ hlen hc hcode =>
    cases ht with
    | @operand st op sp x =>
      have hx : x.Called a.functions a.types := hc
      cases hcode with
      | plus hcode =>
        have := Part.Inside.ofPure hb (.expr hlen hx hcode) []
        rwa [List.append_nil] at this
      | neg hcode => exact .ofPure hb (.expr hlen hx hcode) _
    | assigned =>
      cases hcode with
      | assign hm hy => exact .ofPure hb (.expr hlen hc.2 hy) _
      | binary hop => exact absurd rfl hop
    | left hop =>
      cases hcode with
      | assign => exact absurd rfl hop
      | binary _ hx hy => exact .ofPure hb (.expr hlen hc.1 hx) _
    | right hop =>
      cases hcode with
      | assign => exact absurd rfl hop
      | binary _ hx hy =>
        obtain ⟨is', hx', hframe, hw⟩ := @exprCode_of_emit "" _ _ harity _ _ _ _ .temp hlen hc.1 hb
        obtain ⟨rfl, rfl⟩ := hx.unique hx'
        have hlen' : (Kind.temp :: ks).length = mid.layout.frame.depth := by
          rw [hframe, Frame.depth_pushTemps, List.length_cons, hlen]
        have hslots : mid.layout.frame.slots = l.frame.slots := by rw [hframe]; rfl
        refine ⟨_, _, _, rfl, .expr hlen' hc.2 (hslots ▸ hy), hw.codeLength, fun ls hl => ?_⟩
        rw [labels_append] at hl
        exact hx.climbs hlen hframe fun x hx => hl x (List.mem_append_left _ hx)
    | @arguments st f args =>
      cases hcode with
      | call hf hp hargs =>
        rw [hlen] at hp
        subst hp
        obtain ⟨hlayout, hw⟩ := @Emits.eq _ "" _ _ _ _ (emits_callPad args.length) hb
        rw [hlayout]
        have hdepth := Frame.depth_pushTemps l.frame (callPadding l.frame.depth args.length)
        refine ⟨_, _, _, rfl, .arguments ?_ hc.2 hargs, hw.codeLength, fun ls _ => ?_⟩
        · rw [hdepth, List.length_append, List.length_replicate, hlen, Nat.add_comm]
        · rw [Climbs, hdepth]
          exact walk_growItems .none _

theorem Part.Turns.inside_arguments {es : List Expr} (harity : Resolves a arityOf)
    (ht : Turns a (.arguments es) before Q) (h : Coded a arityOf (.arguments es) l is) (hb : before l = .ok mid) :
    Q.Inside a arityOf l is mid.lines mid.layout := by
  cases h with
  | @arguments _ ks _ n' _ hlen hc hcode =>
    cases ht with
    | rest =>
      cases hcode with
      | cons hes he => exact .ofPure hb (.arguments hlen hc.2 hes) _
    | @first e es =>
      cases hcode with
      | cons hes he =>
        obtain ⟨js, hes', hframe, hw⟩ := @argsCode_of_emit "" _ _ harity _ _ _ _ hlen hc.2 hb
        obtain ⟨rfl, rfl⟩ := hes.unique hes'
        have hlen' : (List.replicate es.length Kind.temp ++ ks).length = mid.layout.frame.depth := by
          rw [hframe, Frame.depth_pushTemps, List.length_append, List.length_replicate, hlen, Nat.add_comm]
        have hslots : mid.layout.frame.slots = l.frame.slots := by rw [hframe]; rfl
        refine ⟨_, _, [], by rw [List.append_nil], .expr hlen' hc.1 (hslots ▸ he), hw.codeLength, fun ls hl => ?_⟩
        rw [labels_append] at hl
        exact hes.climbs hlen hframe fun x hx => hl x (List.mem_append_left _ hx)

theorem behind_condition (harity : Resolves a arityOf) {e : Expr} {x : Emit Unit} {p : Spot} {n n₁ : Nat}
    {is k : List Item} (hp : p.Filled) (hc : e.Called a.functions a.types)
    (he : ExprCode ⟨a.symbols, arityOf⟩ p.slots p.words n .temp e is n₁)
    (hx : Emits exit x ⟨p.frame.pushTemps 1, n₁⟩ k l') (hb : (Emit.expr a e >>= fun _ => x) ⟨p.frame, n⟩ = .ok mid) :
    mid.layout = l' ∧ Written exit mid.lines (is ++ k) := by
  obtain ⟨is', n', b, he', hb', hl, hw⟩ := @condition_bind_eq_ok exit _ _ _ _ _ _ _ harity hp hc hb
  obtain ⟨rfl, rfl⟩ := he.unique he'
  obtain ⟨hl', hw'⟩ := hx.eq hb'
  exact ⟨hl.trans hl', hw _ hw'⟩

/-- Behind the first of two branches. -/
theorem behind_then (harity : Resolves a arityOf) {e : Expr} {t : Stmt} {p q : Spot} {n n₁ n₂ : Nat}
    {is js : List Item} (hp : p.Filled) (hc : e.Called a.functions a.types) (hct : t.Called a.functions a.types)
    (he : ExprCode ⟨a.symbols, arityOf⟩ p.slots p.words n .temp e is n₁)
    (ht : StmtCode ⟨a.symbols, arityOf⟩ p (n₁ + 3) t js q n₂)
    (hb : (do
      Emit.expr a e
      let thenLabel ← freshLabel "then"
      let elseLabel ← freshLabel "else"
      let endLabel ← freshLabel "endif"
      branchUnlessTrue elseLabel
      label thenLabel "Then branch"
      scope (Emit.stmt a exit t)
      instruction .jmp [endLabel] "Skip else branch"
      label elseLabel "Else branch") ⟨p.frame, n⟩ = .ok mid) :
    mid.layout = ⟨p.frame, n₂⟩ ∧ Written exit mid.lines
      ((is ++ (branchItems (labelName (n₁ + 1) "else") ++ [.label (labelName n₁ "then") p.words])) ++
        (js ++ (p.release q ++ [.op (.jump .always (labelName (n₁ + 2) "endif")),
          .label (labelName (n₁ + 1) "else") p.words]))) := by
  obtain ⟨is', n', b, he', hb', hl, hw⟩ := @condition_bind_eq_ok exit _ _ _ _ _ _ _ harity hp hc hb
  obtain ⟨rfl, rfl⟩ := he.unique he'
  obtain ⟨b₁, hb₁, hl₁, hw₁⟩ := (emits_branchUnlessTrue _).goes_on
    (freshLabel_bind_eq_ok (freshLabel_bind_eq_ok (freshLabel_bind_eq_ok hb')))
  obtain ⟨b₂, hb₂, hl₂, hw₂⟩ := (emits_label _ _ p.words).goes_on hb₁
  rw [Layout.pop, Frame.popTemps_pushTemps] at hb₂
  obtain ⟨m, hm, hrest⟩ := scope_bind_eq_ok hp hb₂
  obtain ⟨js', q', ht', hframe, hq, hwt⟩ := stmtCode_of_emit harity hp hct hm
  obtain ⟨rfl, rfl, rfl⟩ := ht.unique ht'
  obtain ⟨b₃, hb₃, hl₃, hw₃⟩ := hrest js q hwt hframe hq
  obtain ⟨hl₄, hw₄⟩ := ((emits_instruction (.jump .always (labelName (n₁ + 2) "endif")) _ rfl rfl).bind
    (emits_label _ _ p.words)).eq hb₃
  refine ⟨?_, ?_⟩
  · rw [hl, hl₁, hl₂, hl₃, hl₄]
  · rw [List.append_assoc, List.append_assoc]
    exact hw _ (hw₁ _ (hw₂ _ (hw₃ _ hw₄)))

theorem emits_branch (target name comment : String) (p : Spot) (n : Nat) :
    Emits exit (do branchUnlessTrue target; Emit.label name comment) ⟨p.frame.pushTemps 1, n⟩
      (branchItems target ++ [.label name p.words]) ⟨p.frame, n⟩ :=
  ((emits_branchUnlessTrue _).bind (emits_label _ _ p.words)).congr
    (congrArg (Layout.mk · n) (Frame.popTemps_pushTemps _ _))

theorem walk_condition {c : Meaning} {p : Spot} {n n₁ : Nat} {e : Expr} {is : List Item}
    {ls : List (String × List Kind)} {target : String} (he : ExprCode c p.slots p.words n .temp e is n₁)
    (hl : ∀ x ∈ labels is, x ∈ ls) (ht : (target, p.words) ∈ ls) (name : String) :
    Walk (fun _ => False) ls p.words.length (is ++ (branchItems target ++ [.label name p.words])) p.words.length :=
  (he.walk .none .none hl).append
    ((walk_branchItems .none ht).append ⟨rfl, rfl⟩)

theorem Part.Turns.inside_stmts {exit : String} {ss : List Stmt} (harity : Resolves a arityOf)
    (ht : Turns a (.stmts exit ss) before Q) (h : Coded a arityOf (.stmts exit ss) l is) (hb : before l = .ok mid) :
    Q.Inside a arityOf l is mid.lines mid.layout := by
  cases h with
  | @stmts _ _ p q n n' _ hp heven hc hcode =>
    cases ht with
    | head =>
      cases hcode with
      | cons hs hss => exact .ofPure hb (.stmt hp heven hc.1 hs) _
    | tail =>
      cases hcode with
      | @cons _ q _ _ n₁ _ s ss is js hs hss =>
        obtain ⟨is', q', hs', hframe, hq, hw⟩ := stmtCode_of_emit harity hp hc.1 hb
        obtain ⟨rfl, rfl, rfl⟩ := hs.unique hs'
        have hlayout : mid.layout = ⟨q.frame, mid.layout.labels⟩ := by rw [← hframe]
        rw [hlayout]
        refine ⟨_, _, [], by rw [List.append_nil], .stmts hq (hs.even heven) hc.2 hss, hw.codeLength, fun ls hl => ?_⟩
        rw [labels_append] at hl
        exact (hs.climbs hp fun x hx => hl x (List.mem_append_left _ hx)).2.2

theorem Part.Turns.inside_stmt {exit : String} {s : Stmt} (harity : Resolves a arityOf)
    (ht : Turns a (.stmt exit s) before Q) (h : Coded a arityOf (.stmt exit s) l is) (hb : before l = .ok mid) :
    Q.Inside a arityOf l is mid.lines mid.layout := by
  cases h with
  | @stmt _ _ p q n n' _ hp heven hc hcode =>
    cases ht with
    | @condition _ st e t u =>
      cases hcode with
      | ifThen he ht => exact .ofPure hb (.expr hp.depth hc.1 he) _
      | ifElse he ht hu => exact .ofPure hb (.expr hp.depth hc.1 he) _
    | @thenOnly _ st e t =>
      cases hcode with
      | @ifThen _ q _ n₁ _ _ _ _ is js he ht =>
        obtain ⟨hl, hw⟩ := @behind_condition _ _ exit _ _ harity _ _ _ _ _ _ _ hp hc.1 he
          (.ofLabel (.ofLabel (emits_branch _ _ _ p _))) hb
        rw [hl]
        refine ⟨_, js ++ p.release q, [.label (labelName (n₁ + 1) "endif") p.words], by simp,
          .branch hp heven hc.2 ht, hw.codeLength, fun ls hl => ?_⟩
        simp only [labels_append, labels, List.mem_append, List.mem_cons, branchItems] at hl
        rw [Climbs, ← hp.depth]
        exact walk_condition he (fun x hx => hl x (by simp [hx])) (hl _ (by simp)) _
    | @thenBranch _ st e t u =>
      cases hcode with
      | @ifElse _ q r _ n₁ n₂ _ _ _ _ _ is js ks he ht hu =>
        obtain ⟨hl, hw⟩ := @behind_condition _ _ exit _ _ harity _ _ _ _ _ _ _ hp hc.1 he
          (.ofLabel (.ofLabel (.ofLabel (emits_branch _ _ _ p _)))) hb
        rw [hl]
        refine ⟨_, js ++ p.release q, .op (.jump .always (labelName (n₁ + 2) "endif")) ::
          .label (labelName (n₁ + 1) "else") p.words :: (ks ++ (p.release r ++
            [.label (labelName (n₁ + 2) "endif") p.words])), by simp, .branch hp heven hc.2.1 ht,
          hw.codeLength, fun ls hl => ?_⟩
        simp only [labels_append, labels, List.mem_append, List.mem_cons, branchItems] at hl
        rw [Climbs, ← hp.depth]
        exact walk_condition he (fun x hx => hl x (by simp [hx])) (hl _ (by simp)) _
    | @elseBranch _ st e t u =>
      cases hcode with
      | @ifElse _ q r _ n₁ n₂ _ _ _ _ _ is js ks he ht hu =>
        obtain ⟨hl, hw⟩ := behind_then harity hp hc.1 hc.2.1 he ht hb
        rw [hl]
        refine ⟨_, ks ++ p.release r, [.label (labelName (n₁ + 2) "endif") p.words], by simp,
          .branch hp heven hc.2.2 hu, hw.codeLength, fun ls hl => ?_⟩
        simp only [labels_append, labels, List.mem_append, List.mem_cons, branchItems] at hl
        have helse : (labelName (n₁ + 1) "else", p.words) ∈ ls := hl _ (by simp)
        have hend : (labelName (n₁ + 2) "endif", p.words) ∈ ls := hl _ (by simp)
        have hcond := walk_condition he (fun x hx => hl x (by simp [hx])) helse (labelName n₁ "then")
        have hbranch := ht.walk hp .none .none fun x hx => hl x (by simp [hx])
        rw [Climbs, ← hp.depth]
        exact hcond.append (walk_branch hp .none hbranch ⟨⟨_, hend, rfl⟩, Under.none, rfl, rfl⟩)
    | @loopCondition _ st e b =>
      cases hcode with
      | @loop _ q _ n₁ _ _ _ _ is js he hb' =>
        obtain ⟨hl, hw⟩ := @Emits.eq _ exit _ _ _ _ (.ofLabel (.ofLabel (.ofLabel (emits_label _ _ p.words)))) hb
        rw [hl]
        exact ⟨[.label (labelName n "while_cond") p.words], is, _, rfl, .expr hp.depth hc.1 he, hw.codeLength,
          fun ls hl => ⟨hp.depth, rfl⟩⟩
    | @loopBody _ st e b =>
      cases hcode with
      | @loop _ q _ n₁ _ _ _ _ is js he hb' =>
        obtain ⟨b₀, hb₀, hl₀, hw₀⟩ := (emits_label _ _ p.words).goes_on
          (freshLabel_bind_eq_ok (freshLabel_bind_eq_ok (freshLabel_bind_eq_ok hb)))
        obtain ⟨hl, hw⟩ := @behind_condition _ _ exit _ _ harity _ _ _ _ _ _ _ hp hc.1 he (emits_branch _ _ _ p _) hb₀
        rw [hl₀, hl]
        refine ⟨_, js ++ p.release q, [.op (.jump .always (labelName n "while_cond")),
          .label (labelName (n + 2) "while_end") p.words], by simp, .branch hp heven hc.2 hb',
          (hw₀ _ hw).codeLength, fun ls hl => ?_⟩
        simp only [labels_append, labels, List.mem_append, List.mem_cons, branchItems] at hl
        rw [Climbs, ← hp.depth]
        exact ⟨rfl, walk_condition he (fun x hx => hl x (by simp [hx])) (hl _ (by simp)) _⟩
    | returned =>
      cases hcode with
      | ret he => exact .ofPure hb (.expr hp.depth hc he) _
    | discarded =>
      cases hcode with
      | expr he => exact .ofPure hb (.expr hp.depth hc he) _
    | @initial _ b e =>
      cases hcode with
      | @init _ q _ _ _ _ is he hq =>
        obtain ⟨hl, hw⟩ := @Emits.eq _ exit _ _ _ _ (emits_reclaim n) hb
        rw [hl]
        refine ⟨_, _, _, rfl, .expr hp.length_base hc he, hw.codeLength, fun ls hl => ?_⟩
        show Walk _ ls (p.slots.length + p.padded.toNat) _ p.slots.length
        exact walk_shrinkItems .none _
    | block =>
      cases hcode with
      | block h => exact .ofPure hb (.stmts hp heven hc h) _

theorem Part.Turns.inside_branch {exit : String} {s : Stmt} (ht : Turns a (.branch exit s) before Q)
    (h : Coded a arityOf (.branch exit s) l is) (hb : before l = .ok mid) :
    Q.Inside a arityOf l is mid.lines mid.layout := by
  cases h with
  | branch hp heven hc hcode =>
    cases ht with
    | branch => exact .ofPure hb (.stmt hp heven hc hcode) _

/-- From a part of a function to the next. -/
theorem Part.Turns.inside (harity : Resolves a arityOf) (ht : P.Turns a before Q) (h : P.Coded a arityOf l is)
    (hb : before l = .ok mid) : Q.Inside a arityOf l is mid.lines mid.layout := by
  cases P with
  | functions fs => cases h
  | function f => cases h
  | stmts exit ss => exact ht.inside_stmts harity h hb
  | stmt exit s => exact ht.inside_stmt harity h hb
  | branch exit s => exact ht.inside_branch h hb
  | arguments es => exact ht.inside_arguments harity h hb
  | expr e => exact ht.inside_expr harity h hb

/-- **The items of a part stand among those of the part that its emission is a part of.** -/
theorem Part.Visits.inside {lines : List Line} {out : Emitted Unit} (harity : Resolves a arityOf)
    (hv : P.Visits a l lines Q l' out) (h : P.Coded a arityOf l is) : Q.Inside a arityOf l is lines l' := by
  induction hv generalizing is with
  | here _ => exact ⟨[], is, [], by simp, h, rfl, fun _ _ => rfl⟩
  | further ht hb _ ih =>
    obtain ⟨front, inner, back, rfl, hcoded, hlen, hclimbs⟩ := ht.inside harity h hb
    obtain ⟨front', inner', back', rfl, hcoded', hlen', hclimbs'⟩ := ih hcoded
    refine ⟨front ++ front', inner', back' ++ back, by simp, hcoded', ?_, fun ls hl => ?_⟩
    · rw [codeLength_append, width_append, hlen, hlen']
    · exact (hclimbs ls hl).append (hclimbs' ls fun x hx => hl x (by
        rw [labels_append, labels_append]
        exact List.mem_append_right _ (List.mem_append_left _ hx)))

end Coded

/-! ## From functions to their statements -/

section Functions

variable {a : Analysis} {arityOf : String → Option Nat} {c : Meaning} {l l' : Layout}

theorem RoutineCode.unique {n m m' : Nat} {f : Func} {r r' : Subroutine} (h : RoutineCode c n f r m)
    (h' : RoutineCode c n f r' m') : r = r' ∧ m = m' := by
  cases h with
  | mk h =>
    cases h' with
    | mk h' =>
      obtain ⟨rfl, rfl, rfl⟩ := h.unique h'
      exact ⟨rfl, rfl⟩

theorem prologue_eq_ok {f : Func} {out : Emitted Unit} (h : prologue a f l = .ok out) :
    out.layout = ⟨f.place.align.frame, l.labels⟩ ∧
      codeLength out.lines = entryWidth + width (spillItems 0 f.params.length ++ f.place.alignItems) := by
  unfold prologue at h
  obtain ⟨c, c', hc₀, h₀, rfl⟩ := Emit.bind_eq_ok.1 h
  cases hc₀
  obtain ⟨d, d', hd₀, h₁, rfl⟩ := Emit.bind_eq_ok.1 h₀
  cases hd₀
  obtain ⟨i₁, b₁, ht₁, h₂, rfl⟩ := (puts_saveRegisters _).goes_on h₁
  obtain ⟨i₂, b₂, ht₂, h₃, rfl⟩ := (puts_instruction _ _ _).goes_on h₂
  obtain ⟨i₃, b₃, ht₃, h₄, rfl⟩ := (puts_instruction _ _ _).goes_on h₃
  obtain ⟨s₁, s₁', hs₁, h₅, rfl⟩ := Emit.bind_eq_ok.1 h₄
  obtain ⟨hl₁, hw₁⟩ : _ ∧ Written "" s₁.lines _ := spillParameters_eq_ok hs₁
  have hplace : s₁.layout = ⟨f.place.frame, l.labels⟩ := by
    rw [hl₁]
    simp [Spot.frame, Func.place]
  rw [hplace] at h₅
  obtain ⟨hl₂, hw₂⟩ := @Emits.eq _ "" _ _ _ _ (emits_alignFrame f.filled_place l.labels) h₅
  have hcode : ∀ is : List Instruction, codeLength (is.map .code) = is.length := by
    intro is
    induction is with
    | nil => rfl
    | cons i is ih => exact congrArg (· + 1) ih
  have h₁' : i₁.length = 6 := by rw [← List.length_map, ht₁]; rfl
  have h₂' : i₂.length = 1 := by rw [← List.length_map, ht₂]; rfl
  have h₃' : i₃.length = 1 := by rw [← List.length_map, ht₃]; rfl
  refine ⟨hl₂, ?_⟩
  simp only [codeLength_append, codeLength, hcode, h₁', h₂', h₃', hw₁.codeLength, hw₂.codeLength, width_append,
    entryWidth]
  omega

theorem codeLength_function (harity : Resolves a arityOf) {f : Func} {out : Emitted Unit}
    (hc : Stmt.CalledAll a.functions a.types f.body) (h : Emit.function a f l = .ok out) :
    ∃ r, RoutineCode ⟨a.symbols, arityOf⟩ l.labels f r out.layout.labels ∧ codeLength out.lines = r.width := by
  obtain ⟨r, hr, hlines⟩ := routineCode_of_emit harity hc h
  obtain ⟨cs, hspelled, hsplit⟩ := hlines [] [] rfl
  rw [List.append_nil, List.append_nil] at hsplit
  refine ⟨r, hr, ?_⟩
  rw [codeLength_splitLines, hsplit, hspelled.width_eq]
  exact Nat.zero_add _

/-- Parts that are not in a function. -/
def Part.Outer : Part → Prop
  | .functions _ | .function _ => True
  | _ => False

/-- Where the items of a part stand in a routine. -/
structure Part.Placed (a : Analysis) (arityOf : String → Option Nat) (prog : List Subroutine) (lines : List Line)
    (l : Layout) (P : Part) (r : Subroutine) (front inner back : List Item) : Prop where
  routine : r ∈ prog
  body : r.body = front ++ (inner ++ back)
  coded : P.Coded a arityOf l inner
  place : codeLength lines = start prog r.name + (entryWidth + width front)
  level : Walk (fun _ => False) (labels r.body) 0 front l.frame.depth
  back : 0 < width back

section Placed

variable {prog : List Subroutine} {lines : List Line} {P : Part} {r : Subroutine} {front inner back : List Item}
  (h : P.Placed a arityOf prog lines l r front inner back)
include h

theorem Part.Placed.pc : codeLength lines = pcOf prog r (inner ++ back) := by
  rw [h.place, pcOf, h.body, width_append front]
  omega

theorem Part.Placed.pc_behind {out : List Line} (hout : codeLength out = width inner) :
    codeLength (lines ++ out) = pcOf prog r back := by
  rw [codeLength_append, hout, h.place, pcOf, h.body, width_append front, width_append inner]
  omega

end Placed

theorem RoutineCode.placed (harity : Resolves a arityOf) {f : Func} {r : Subroutine} {n' : Nat}
    (h : RoutineCode ⟨a.symbols, arityOf⟩ l.labels f r n') (hc : Stmt.CalledAll a.functions a.types f.body)
    {mid out : Emitted Unit} (hb : prologue a f l = .ok mid) {lines : List Line} {Q : Part}
    (hv : Part.Visits a (.stmts (exitLabel f.name.name) f.body) mid.layout lines Q l' out) :
    ∃ front inner back, r.body = front ++ (inner ++ back) ∧ Q.Coded a arityOf l' inner ∧
      codeLength (mid.lines ++ lines) = entryWidth + width front ∧
        Walk (fun _ => False) (labels r.body) 0 front l'.frame.depth ∧ 0 < width back := by
  cases h with
  | @mk _ _ is q hs =>
    obtain ⟨hlayout, hlen⟩ := prologue_eq_ok hb
    rw [hlayout] at hv
    have hfilled : f.place.align.Filled := Spot.filled_align f.filled_place rfl
    have hcoded : Part.Coded a arityOf (.stmts (exitLabel f.name.name) f.body) ⟨f.place.align.frame, l.labels⟩ is :=
      .stmts hfilled (Spot.even_align _) hc hs
    obtain ⟨front, inner, back, rfl, hQ, hlen', hclimbs⟩ := hv.inside harity hcoded
    refine ⟨spillItems 0 f.params.length ++ f.place.alignItems ++ front, inner,
      back ++ (f.place.align.release q ++ [.op (.move (.imm 0) .rax)]), by simp, hQ, ?_, ?_, ?_⟩
    · rw [codeLength_append, hlen, hlen', width_append _ front, Nat.add_assoc]
    · have hplace := f.walk_place (labels (spillItems 0 f.params.length ++ (f.place.alignItems ++
        (front ++ (inner ++ back) ++ (f.place.align.release q ++ [.op (.move (.imm 0) .rax)])))))
      rw [hfilled.depth] at hplace
      refine hplace.append (hclimbs _ fun x hx => ?_)
      rw [labels_append, labels_append _ (front ++ (inner ++ back) ++ _), labels_append (front ++ (inner ++ back))]
      exact List.mem_append_right _ (List.mem_append_right _ (List.mem_append_left _ hx))
    · rw [width_append, width_append, width_op]
      omega

/-- **Where the items of a part stand.** -/
theorem Part.Visits.placed (harity : Resolves a arityOf) {fs : List Func} {rs : List Subroutine} {n' : Nat}
    (h : ProgramCode ⟨a.symbols, arityOf⟩ l.labels fs rs n')
    (hc : ∀ f ∈ fs, Stmt.CalledAll a.functions a.types f.body) (hn : (rs.map Subroutine.name).Nodup)
    {lines : List Line} {Q : Part} {out : Emitted Unit} (hv : Part.Visits a (.functions fs) l lines Q l' out) :
    Q.Outer ∨ ∃ r front inner back, Q.Placed a arityOf rs lines l' r front inner back := by
  induction fs generalizing l rs lines with
  | nil =>
    cases hv with
    | here _ => exact .inl trivial
    | further ht _ _ => cases ht
  | cons f fs ih =>
    cases h with
    | @cons _ n₁ _ _ _ r rs hr hrs =>
      rw [List.map_cons, List.nodup_cons] at hn
      cases hv with
      | here _ => exact .inl trivial
      | further ht hb hv =>
        cases ht with
        | function =>
          obtain rfl := Emit.pure_eq_ok.1 hb
          cases hv with
          | here _ => exact .inl trivial
          | further ht hb hv =>
            cases ht with
            | body =>
              obtain ⟨front, inner, back, hbody, hQ, hplace, hlevel, hback⟩ :=
                hr.placed harity (hc f List.mem_cons_self) hb hv
              refine .inr ⟨r, front, inner, back, List.mem_cons_self, hbody, hQ, ?_, hlevel, hback⟩
              rw [start, if_pos rfl, Nat.zero_add]
              exact hplace
        | functions =>
          obtain ⟨r', hr', hlen⟩ := codeLength_function harity (hc f List.mem_cons_self) hb
          obtain ⟨rfl, rfl⟩ := hr.unique hr'
          rcases ih hrs (fun g hg => hc g (List.mem_cons_of_mem f hg)) hn.2 hv with houter |
            ⟨q, front, inner, back, hq⟩
          · exact .inl houter
          · refine .inr ⟨q, front, inner, back, List.mem_cons_of_mem r hq.routine, hq.body, hq.coded, ?_, hq.level,
              hq.back⟩
            have hne : r.name ≠ q.name := fun heq => hn.1 (heq ▸ List.mem_map_of_mem hq.routine)
            rw [start, if_neg hne, codeLength_append, hlen, hq.place, Nat.add_assoc]

end Functions

end MicroC
