import MicroC.Proofs.Compilation.Runs
import MicroC.Proofs.Emission.Answers

/-!
# The programs that have code

Which analysed programs have code can be told from the program and the types of its conditions: a value that is
no integer always comes from a declaration, a literal or a call.

* `Program.Supported`: the programs that have code.
* `HasType.value`: what is computed from integers are integers.
* **`generate_iff_supported`**: an analysed program has code exactly when it is supported, and otherwise the
  error names a construct without code and never a gap in the tables or the frame.
-/

namespace MicroC

/-! ## The supported language -/

/-- An expression that is no literal other than an integer, no call with a result that is a number with a
fraction or a text, and assigns to nothing but a variable. -/
def Expr.Supported (functions : FunctionTable) : Expr → Prop
  | .float .. | .string .. => False
  | .call _ n _ => ∀ s, functions.get? n.name = some s → s.returns ≠ .float ∧ s.returns ≠ .string
  | .binary _ .assign _ x _ => ∃ s n, x = .var s n
  | _ => True

/-- A variable or a parameter of type `int`. -/
def Decl.Supported (d : Decl) : Prop := ∃ b init, d = .variable b init ∧ b.type.name = "int"

/-- A program that has code. -/
structure Program.Supported (a : Analysis) (p : Program) : Prop where
  decls : ∀ d ∈ p.decls, d.Supported
  exprs : ∀ e ∈ p.exprs, e.Supported a.functions
  conditions : ∀ c ∈ p.conditions, a.types.get? c.id = some .int

/-! ## Values -/

section Supported

variable {source : String} {p : Program} {a : Analysis}

theorem ofName?_eq_int {n : String} : Scalar.ofName? n = some .int ↔ n = "int" := by
  constructor
  · intro h
    unfold Scalar.ofName? at h
    split at h <;> first | rfl | cases h
  · rintro rfl
    rfl

theorem Decl.supported_iff {d : Decl} : d.Supported ↔ d.length? = none ∧ d.ty? = some .int := by
  constructor
  · rintro ⟨b, init, rfl, hname⟩
    exact ⟨rfl, by rw [Decl.ty?, Ident.ty?, ofName?_eq_int.2 hname]; rfl⟩
  · rintro ⟨hlen, hty⟩
    cases d with
    | array b n => cases hlen
    | «variable» b init =>
      obtain ⟨s, hs, heq⟩ := Option.map_eq_some_iff.1 hty
      cases heq
      exact ⟨b, init, rfl, ofName?_eq_int.1 hs⟩

theorem Declared.returns {functions : FunctionTable} (h : Declared .runtime p.functions functions) {n : String}
    {s : Signature} (hs : functions.get? n = some s) : ∃ r, s.returns = .scalar r := by
  rcases (h.get? n s).1 hs with hold | ⟨f, -, -, hsigns⟩
  · simp only [FunctionTable.runtime, List.foldl_cons, List.foldl_nil, Table.get?_insert, Table.get?_empty] at hold
    repeat' split at hold
    all_goals cases hold
    all_goals exact ⟨_, rfl⟩
  · obtain ⟨r, -, hr⟩ := Option.map_eq_some_iff.1 hsigns.returns
    exact ⟨r, hr.symm⟩

/-- **A value that is no integer comes from a declaration, a literal or a call.** -/
theorem HasType.value {names : Names} {D : List Decl} (hD : ∀ d ∈ D, d.ty? = some .int)
    (hf : ∀ n s, names.functions.get? n = some s → ∃ r, s.returns = .scalar r) {e : Expr} {ty : Ty}
    (h : HasType names D e ty) (hs : ∀ x ∈ e.subs, x.Supported names.functions) : e.Simple ∧ ty.IsValue := by
  match e, h with
  | .int _ _, .int => exact ⟨trivial, .inl rfl⟩
  | .float _ _, _ | .string _ _, _ => exact (hs _ List.mem_cons_self).elim
  | .var _ _, .var hd _ ht =>
    rw [hD _ hd] at ht
    cases ht
    exact ⟨trivial, .inl rfl⟩
  | .index _ _ _, .index _ hd _ ht =>
    rw [hD _ hd] at ht
    cases ht
  | .call _ n args, .call hsig _ =>
    obtain ⟨hfloat, hstring⟩ := hs _ List.mem_cons_self _ hsig
    obtain ⟨r, hr⟩ := hf _ _ hsig
    refine ⟨trivial, ?_⟩
    rw [hr] at hfloat hstring ⊢
    match r with
    | .int => exact .inl rfl
    | .void => exact .inr rfl
    | .float => exact absurd rfl hfloat
    | .string => exact absurd rfl hstring
  | .unary _ _ _ x, .unary hx _ =>
    exact ⟨trivial, (hx.value hD hf fun y hy => hs y (List.mem_cons_of_mem _ hy)).2⟩
  | .binary _ _ _ x y, .assign hx _ =>
    refine ⟨hs _ List.mem_cons_self, (hx.value hD hf fun z hz => hs z ?_).2⟩
    exact List.mem_cons_of_mem _ (List.mem_append_left _ hz)
  | .binary _ op _ x y, .comparison ho _ _ _ =>
    refine ⟨?_, .inl rfl⟩
    cases op with
    | assign => cases ho
    | _ => trivial
  | .binary _ op _ x y, .arithmetic hne _ hx _ _ =>
    refine ⟨?_, (hx.value hD hf fun z hz => hs z ?_).2⟩
    · cases op with
      | assign => exact absurd rfl hne
      | _ => trivial
    · exact List.mem_cons_of_mem _ (List.mem_append_left _ hz)

theorem Expr.supported_of_hasCode {e : Expr} {ty : Ty} {D : List Decl} (h : e.HasCode a)
    (hget : a.types.get? e.id = some ty) (hty : HasType a.names D e ty) : e.Supported a.functions := by
  obtain ⟨hsimple, ty', hget', hvalue⟩ := h
  cases hget.symm.trans hget'
  match e, hty with
  | .int .., _ | .var .., _ | .unary .., _ | .index .., _ => trivial
  | .float .., _ | .string .., _ => exact hsimple
  | .binary _ op _ x y, _ =>
    cases op with
    | assign => exact hsimple
    | _ => trivial
  | .call _ n args, .call hsig _ =>
    intro s hs
    cases hs.symm.trans hsig
    rcases hvalue with hvalue | hvalue <;> rw [hvalue] <;> simp

/-- The parts of a supported program have code, and only those. -/
theorem haveCode_iff_supported (h : parseProgram source = .ok p) (ha : analyze .runtime p = .ok a) :
    HaveCode a p.exprs p.decls p.conditions ↔ p.Supported a := by
  obtain ⟨hf, hs, ht⟩ := analyze_eq_ok.1 ha
  have hdeclared := declared_of_declareFunctions hf
  have hdecl : ∀ d ∈ p.decls, a.types.get? d.id = some .int ↔ d.ty? = some .int := by
    intro d hd
    obtain ⟨ty, hget, hty⟩ := type_of_decl h hs ht hd
    rw [hget, hty.declared]
  constructor
  · intro hcode
    refine ⟨fun d hd => Decl.supported_iff.2 ?_, fun e he => ?_, hcode.condition⟩
    · exact (hcode.decl d hd).imp_right (hdecl d hd).1
    · obtain ⟨ty, hget, hty⟩ := type_of_expr h hs ht he
      exact Expr.supported_of_hasCode (hcode.expr e he) hget hty
  · intro hsup
    have hint : ∀ d ∈ p.decls, d.ty? = some .int := fun d hd => (Decl.supported_iff.1 (hsup.decls d hd)).2
    refine ⟨fun e he => ?_, fun d hd => ?_, hsup.conditions⟩
    · obtain ⟨ty, hget, hty⟩ := type_of_expr h hs ht he
      obtain ⟨hsimple, hvalue⟩ := hty.value hint (fun _ _ hsig => hdeclared.returns hsig) fun x hx =>
        hsup.exprs x (Program.subs_exprs he hx)
      exact ⟨hsimple, ty, hget, hvalue⟩
    · exact ⟨(Decl.supported_iff.1 (hsup.decls d hd)).1, (hdecl d hd).2 (hint d hd)⟩

/-- What is emitted for an analysed program. -/
theorem coded_program (h : parseProgram source = .ok p) (ha : analyze .runtime p = .ok a) :
    ∃ s', Coded (Emit.functions a p.functions) (HaveCode a p.exprs p.decls p.conditions) [] s' := by
  obtain ⟨hf, hs, ht⟩ := analyze_eq_ok.1 ha
  have hrec : Recorded a p.decls p.exprs := fun e he => type_of_expr h hs ht he
  have hdec : ∀ d ∈ p.decls, d ∈ p.decls ∧ ∃ ty, a.types.get? d.id = some ty :=
    fun d hd => ⟨hd, (type_of_decl h hs ht hd).imp fun _ hty => hty.1⟩
  exact coded_functions (numbered_of_parseProgram h) hrec hdec (resolved_uses h hs)

theorem generate_of_supported (h : parseProgram source = .ok p) (ha : analyze .runtime p = .ok a)
    (hp : p.Supported a) : ∃ m, generate a p = .ok m := by
  obtain ⟨s', hcode⟩ := coded_program h ha
  obtain ⟨out, hout⟩ := hcode.success ((haveCode_iff_supported h ha).2 hp) {} rfl
  unfold generate
  rw [hout]
  exact ⟨_, rfl⟩

/-- **The programs that have code.** For an analysed program a module is generated exactly when all its parameters
and variables are of type `int`, it declares no arrays, all its literals are integers, it calls no function whose
result is a number with a fraction or a text, it assigns to variables only, and all its conditions are of type
`int`. Otherwise one of these is reported, and never that a table or the frame lacks something. -/
theorem generate_iff_supported (h : parseProgram source = .ok p) (ha : analyze .runtime p = .ok a) :
    ((∃ m, generate a p = .ok m) ↔ p.Supported a) ∧ ∀ e, generate a p = .error e →
      (∀ table node, e.fault ≠ .missingEntry table node) ∧ ∀ n, e.fault ≠ .unallocatedVariable n := by
  obtain ⟨s', hcode⟩ := coded_program h ha
  refine ⟨⟨fun ⟨m, hm⟩ => (haveCode_iff_supported h ha).1 ?_, generate_of_supported h ha⟩, fun e he => ?_⟩
  · unfold generate at hm
    split at hm
    · next out hout => exact (hcode.sound rfl hout).1
    · cases hm
  · unfold generate at he
    split at he
    · cases he
    · next e' herr =>
      cases he
      have hfounded := hcode.failure rfl herr
      refine ⟨fun table node heq => ?_, fun n heq => ?_⟩ <;> rw [heq] at hfounded <;> exact hfounded

theorem generate_iff_supported_sample : ∃ p a m, parseProgram sampleSource = .ok p ∧ analyze .runtime p = .ok a ∧
    generate a p = .ok m ∧ p.Supported a := by
  have h := compiled_sample
  exact ⟨_, _, _, h.parsed, h.analysed, h.generated, (generate_iff_supported h.parsed h.analysed).1.1 ⟨_, h.generated⟩⟩

end Supported

end MicroC
