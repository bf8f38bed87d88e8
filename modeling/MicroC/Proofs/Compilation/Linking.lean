import MicroC.Proofs.Compilation.Runs
import MicroC.Proofs.Machine.Returns

/-!
# Linking compiled modules

The blocks of a module have names of their own, jumps stay in the function they were emitted for, and calls
name functions of the program or of the runtime. So the module has code, and that code goes where names say.

* `Func.Linked`, `Module.Linked`: what names in a module refer to.
* `Module.IsStart`, `Code.Transfers`: where blocks start, and that jumps and calls go there.
* `transfers_of_ofModule`: so it is in every module whose blocks have different names.
* **`compiled_links`**: what is compiled links, reduced or not.
-/

namespace MicroC

open Convention Emit

/-! ## Names -/

/-- The blocks of a function. The first one is its entry, and jumps name blocks that were emitted for it. -/
structure Func.Linked (a : Analysis) (f : Func) (bs : List Block) : Prop where
  emitted : f.Emits a (bs.map Block.name)
  entry : (bs.map Block.name).head? = some f.name.name
  jumps : ∀ b ∈ bs, ∀ i ∈ b.code, i.opcode.isJump = true → ∃ l, i.operands = [l] ∧ l ∈ bs.map Block.name

/-- The blocks of a module, function by function. Calls name functions of the program or of the runtime. -/
structure Module.Linked (a : Analysis) (p : Program) (m : Module) : Prop where
  nodup : (m.blocks.map Block.name).Nodup
  named : ∀ b ∈ m.blocks, b.name ≠ "" ∧ FunctionTable.runtime.get? b.name = none
  functions : ∃ parts : List (List Block), m.blocks = parts.flatten ∧
    List.Forall₂ (Func.Linked a) p.functions parts
  calls : ∀ i ∈ m.instructions, i.opcode = .call → ∃ f, i.operands = [f] ∧
    ((∃ g ∈ p.functions, f = g.name.name) ∨ f ∈ ["print", "read", "print8", "sum8"])

/-! ## Places -/

/-- The place of the first instruction at or behind the start of a block. -/
def Module.IsStart (m : Module) (name : String) (k : Nat) : Prop :=
  ∃ before b after, m.blocks = before ++ b :: after ∧ b.name = name ∧ k = blockWidth before

/-- A jump that is taken and a call go to the start of the block that they name. -/
structure Code.Transfers (code : Code) (m : Module) : Prop where
  size : code.cells.size = m.instructionCount
  target : ∀ pc i l k, m.instructions[pc]? = some i → i.opcode.isJump = true ∨ i.opcode = .call →
    i.operands = [l] → m.IsStart l k →
      k < code.cells.size ∧ ∃ cell, code.cells[pc]? = some cell ∧
        ∀ {σ : Type} [Host σ] (cpu : Cpu) (host : σ) next, (step pc cell cpu host).next = .ok next →
          next = .goto k ∨ next = .advance ∧ i.opcode ∈ [.je, .jne, .jle]

section Places

variable {m : Module} {code : Code} {labels : Labels}

theorem blockWidth_pos {bs : List Block} {b : Block} (h : b ∈ bs) (hb : b.code ≠ []) : 0 < blockWidth bs := by
  have hlen := List.length_pos_iff.2 hb
  induction bs with
  | nil => cases h
  | cons c bs ih =>
    rw [blockWidth]
    rcases List.mem_cons.1 h with rfl | h
    · omega
    · have := ih h
      omega

theorem offset?_of_isStart (hn : (m.blocks.map Block.name).Nodup) {l : String} {k : Nat} (h : m.IsStart l k) :
    offset? m.blocks l = some k := by
  obtain ⟨before, b, after, hblocks, rfl, rfl⟩ := h
  rw [hblocks, List.map_append, List.nodup_append] at hn
  have hout : b.name ∉ before.map Block.name := fun hmem =>
    hn.2.2 _ hmem _ (List.mem_map_of_mem List.mem_cons_self) rfl
  rw [hblocks, offset?_append_right hout, offset?, if_pos rfl]
  rfl

theorem jump_next {σ : Type} [Host σ] {opcode : Opcode} {k pc : Nat} {cpu : Cpu} {host : σ} {next : Next}
    (hop : opcode.isJump = true) (h : (step pc (.jump opcode [k]) cpu host).next = .ok next) :
    next = .goto k ∨ next = .advance ∧ opcode ∈ [.je, .jne, .jle] := by
  by_cases hjmp : opcode = .jmp
  · subst hjmp
    left
    cases h
    rfl
  · have hcond : opcode ∈ [.je, .jne, .jle] := by
      cases opcode <;> first | exact absurd rfl hjmp | decide | cases hop
    have hact : (Act.jump opcode [k]).step cpu host =
        Act.step (Act.condition opcode >>= fun taken => if taken then pure (.goto k) else pure .advance) cpu host := by
      rw [Act.jump, if_neg hjmp]
      rfl
    rw [step, hact, Act.step] at h
    cases hc : Act.condition opcode cpu with
    | error e c =>
      rw [Act.bind_of_error hc] at h
      cases h
    | ok taken c =>
      rw [Act.bind_of_ok hc] at h
      cases taken with
      | false =>
        cases h
        exact .inr ⟨rfl, hcond⟩
      | true =>
        cases h
        exact .inl rfl

theorem call_next {σ : Type} [Host σ] {l : String} {k pc : Nat} {cpu : Cpu} {host : σ} {next : Next}
    (h : (step pc (.call [.label l k]) cpu host).next = .ok next) : next = .goto k := by
  rw [step, Act.step, Act.enter] at h
  cases halign : Act.checkAlignment l cpu with
  | error e c =>
    rw [Act.bind_of_error halign] at h
    cases h
  | ok u c =>
    rw [Act.bind_of_ok halign] at h
    cases hpush : Act.push (Int64.ofNat (pc + 1)) c with
    | error e d =>
      rw [Act.bind_of_error hpush] at h
      cases h
    | ok u d =>
      rw [Act.bind_of_ok hpush] at h
      cases h
      rfl

theorem ofModule_eq_ok (h : Code.ofModule m = .ok code) :
    ∃ cells, decodeAll (labelsFrom 0 .empty m.blocks) m.instructions = .ok cells ∧
      code = ⟨cells.toArray, labelsFrom 0 .empty m.blocks⟩ := by
  unfold Code.ofModule at h
  cases hd : decodeAll (labelsFrom 0 .empty m.blocks) m.instructions with
  | error e =>
    simp [hd, Except.map] at h
  | ok cells =>
    simp only [hd, Except.map, Except.ok.injEq] at h
    exact ⟨cells, rfl, h.symm⟩

/-- **Where the blocks of a module have different names**, and the last one is not empty, jumps and calls go
where they say. -/
theorem transfers_of_ofModule (h : Code.ofModule m = .ok code) (hn : (m.blocks.map Block.name).Nodup)
    (he : ∀ b ∈ m.blocks, b.name ≠ "") (hlast : ∀ b ∈ m.blocks.getLast?, b.code ≠ []) : code.Transfers m := by
  obtain ⟨cells, hcells, rfl⟩ := ofModule_eq_ok h
  obtain ⟨hlen, hget⟩ := decodeAll_getElem? hcells
  have hempty : "" ∉ m.blocks.map Block.name := by
    intro hmem
    obtain ⟨b, hb, heq⟩ := List.mem_map.1 hmem
    exact he b hb heq
  refine ⟨hlen, fun pc i l k hi hop hl hk => ⟨?_, ?_⟩⟩
  · obtain ⟨before, b, after, hblocks, -, rfl⟩ := hk
    obtain ⟨c, hc⟩ := List.getLast?_isSome.2 (List.cons_ne_nil b after) |> Option.isSome_iff_exists.1
    have hpos : 0 < blockWidth (b :: after) := by
      refine blockWidth_pos (List.mem_of_getLast? hc) (hlast c ?_)
      rw [hblocks, List.getLast?_append, hc]
      rfl
    show blockWidth before < cells.length
    rw [hlen, show m.instructions.length = blockWidth m.blocks from (blockWidth_blocks m).symm, hblocks,
      blockWidth_append]
    omega
  · obtain ⟨cell, hcell, hdecode⟩ := hget pc i hi
    have htable : (labelsFrom 0 .empty m.blocks).get? l = some k := by
      rw [get?_labelsFrom hn hempty, offset?_of_isStart hn hk]
      exact congrArg some (Nat.zero_add k)
    refine ⟨cell, by rwa [List.getElem?_toArray], ?_⟩
    by_cases hjump : i.opcode.isJump = true
    · have heq : decode (labelsFrom 0 .empty m.blocks) i = .ok (.jump i.opcode [k]) := by
        rw [decode, if_pos hjump, hl, decodeJump, htable]
        rfl
      rw [heq] at hdecode
      cases hdecode
      exact fun cpu host next hnext => jump_next hjump hnext
    · have hcall : i.opcode = .call := hop.resolve_left hjump
      have heq : decode (labelsFrom 0 .empty m.blocks) i = .ok (.call [.label l k]) := by
        rw [decode, if_neg hjump, if_pos hcall, hl, List.map_singleton, target, htable]
      rw [heq] at hdecode
      cases hdecode
      exact fun cpu host next hnext => .inl (call_next hnext)

end Places

/-! ## Routines -/

section Routines

variable {prog : List Subroutine} {r : Subroutine} {mode : Mode} {bs : List Block} {m : Module} {code : Code}

/-- Calls of a routine name functions that are known. -/
theorem Subroutine.Spelled.calls (h : r.Spelled bs) (ho : ∀ o, .op o ∈ r.body → o.Resolved prog r) {b : Block}
    (hb : b ∈ bs) {i : Instruction} (hi : i ∈ b.code) (hcall : i.opcode = .call) :
    ∃ f, i.operands = [f] ∧ (arityOf prog f).isSome = true := by
  rcases h.spells hb hi with htext | ⟨o, hmem, hspells⟩
  · exact absurd hcall (stays_of_mem_texts htext).2
  · rw [hspells.opcode] at hcall
    rw [hspells.operands]
    cases o with
    | call f => exact ⟨f, rfl, (ho _ hmem).call f rfl⟩
    | combine f => cases f <;> cases hcall
    | select c => cases c <;> cases hcall
    | jump j => cases j <;> cases hcall
    | _ => cases hcall

theorem Spelled.mem (h : Spelled prog bs) {b : Block} (hb : b ∈ bs) : ∃ r ∈ prog, ∃ cs, r.Spelled cs ∧ b ∈ cs := by
  induction h with
  | nil => cases hb
  | cons hr _ ih =>
    rcases List.mem_append.1 hb with hb | hb
    · exact ⟨_, List.mem_cons_self, _, hr, hb⟩
    · obtain ⟨r, hmem, hr⟩ := ih hb
      exact ⟨r, List.mem_cons_of_mem _ hmem, hr⟩

theorem Spelled.getLast (h : Spelled prog bs) : ∀ b ∈ bs.getLast?, b.code ≠ [] := by
  induction h with
  | nil => nofun
  | @cons r rs bs cs hr hs ih =>
    intro b hb
    rw [List.getLast?_append] at hb
    cases hcs : cs.getLast? with
    | some c =>
      rw [hcs] at hb
      exact ih b (hcs.trans hb)
    | none =>
      rw [hcs] at hb
      obtain ⟨hname, hcode, hentry, hbody, hlast, hexit⟩ := hr
      rw [Option.none_or, ← List.cons_append, List.getLast?_append] at hb
      cases hb
      intro hnil
      rw [List.getLast_singleton] at hnil
      rw [hnil] at hexit
      cases hexit

theorem InOrder.resolved (h : InOrder prog mode) (harity : ∀ r ∈ prog, r.arity < 2 ^ 59) (hr : r ∈ prog) :
    ∀ o, .op o ∈ r.body → o.Resolved prog r :=
  (h.check r hr).resolved (harity r hr) (Nat.zero_le _)

end Routines

/-! ## Names of functions -/

theorem runtime_not_point {l : String} {cs : List Char} (h : l.toList = '.' :: cs) :
    FunctionTable.runtime.get? l = none := by
  simp only [FunctionTable.runtime, List.foldl_cons, List.foldl_nil, Table.get?_insert, Table.get?_empty]
  repeat' split
  all_goals first
    | rfl
    | (subst_vars; cases h)

theorem BlockName.not_runtime {p : Program} {functions : FunctionTable} {lo hi : Nat} {l : String}
    (h : BlockName p.functions lo hi l) (hd : Declared .runtime p.functions functions) :
    FunctionTable.runtime.get? l = none := by
  cases h with
  | function hf => exact hd.fresh _ hf
  | exit => exact runtime_not_point (toList_exitLabel _)
  | label => exact runtime_not_point (toList_labelName _ _)

/-- The functions of the machine. -/
theorem mem_of_intrinsic {f : String} {i : Intrinsic} (h : Intrinsic.ofName? f = some i) :
    f ∈ ["print", "read", "print8", "sum8"] := by
  unfold Intrinsic.ofName? at h
  split at h
  any_goals cases h
  all_goals decide

/-! ## Programs -/

section Programs

variable {source : String} {p : Program} {a : Analysis} {m m' : Module} {base prog prog' : List Subroutine}
  {mode : Mode}

theorem Turns.map_names (h : Turns base mode prog prog') : prog'.map Subroutine.names = prog.map Subroutine.names := by
  induction h with
  | nil => rfl
  | cons ht _ ih => rw [List.map_cons, List.map_cons, ih, Subroutine.names, Subroutine.names, ht.labels_eq, ht.name]

theorem Turned.map_names (h : Turned base mode prog prog') :
    prog'.map Subroutine.names = prog.map Subroutine.names := by
  induction h with
  | refl => rfl
  | step ht _ ih => exact ih.trans ht.map_names

theorem ProgramCode.emitted {c : Meaning} {n n' : Nat} {fs : List Func} (h : ProgramCode c n fs prog n')
    (hemits : List.Forall₂ (fun f r => f.Emits a r.names) fs prog) :
    List.Forall₂ (fun f ns => f.Emits a ns ∧ ns.head? = some f.name.name) fs (prog.map Subroutine.names) := by
  induction h with
  | nil => exact .nil
  | cons hf _ ih =>
    cases hemits with
    | cons hemit hemits => exact .cons ⟨hemit, congrArg some hf.eq.1⟩ (ih hemits)

theorem linked_functions {fs : List Func} {parts : List (List Block)}
    (hnames : List.Forall₂ (fun f ns => f.Emits a ns ∧ ns.head? = some f.name.name) fs
      (prog.map Subroutine.names))
    (hparts : List.Forall₂ Subroutine.Spelled prog parts)
    (hres : ∀ r ∈ prog, ∀ o, .op o ∈ r.body → o.Resolved base r) : List.Forall₂ (Func.Linked a) fs parts := by
  induction hparts generalizing fs with
  | nil =>
    cases hnames
    exact .nil
  | @cons r bs prog parts hr _ ih =>
    cases hnames with
    | cons hname hnames =>
      rw [← hr.names_eq] at hname
      refine .cons ⟨hname.1, hname.2, fun b hb i hi hjump => ?_⟩
        (ih hnames fun q hq => hres q (List.mem_cons_of_mem _ hq))
      rw [hr.names_eq]
      refine hr.jumps (fun j l hl => ?_) hb hi hjump
      obtain ⟨k, hk⟩ := Option.isSome_iff_exists.1 ((hres r List.mem_cons_self _ hl).jump j l rfl)
      exact mem_labels_of_behind hk

theorem ProgramCode.known {c : Meaning} {n n' : Nat} {fs : List Func} (h : ProgramCode c n fs prog n') {f : String}
    (hf : (MicroC.arityOf prog f).isSome = true) :
    (∃ g ∈ fs, f = g.name.name) ∨ f ∈ ["print", "read", "print8", "sum8"] := by
  unfold MicroC.arityOf at hf
  split at hf
  · next r hr =>
    obtain ⟨hmem, rfl⟩ := find?_mem hr
    obtain ⟨g, hg, k, k', hcode⟩ := h.mem hmem
    exact .inl ⟨g, hg, hcode.eq.1⟩
  · obtain ⟨k, hk⟩ := Option.isSome_iff_exists.1 hf
    obtain ⟨i, hi, -⟩ := Option.map_eq_some_iff.1 hk
    exact .inr (mem_of_intrinsic hi)

/-- What is spelled by routines that are in order is linked. -/
theorem Built.linked {code : Code} {n n' : Nat} {functions : FunctionTable} (hb : Built m' prog' mode code)
    (ht : Turned prog mode prog prog') (hcode : ProgramCode ⟨a.symbols, p.arityOf⟩ n p.functions prog n')
    (hemits : List.Forall₂ (fun f r => f.Emits a r.names) p.functions prog)
    (hfs : ∀ f ∈ p.functions, IsName f.name.name) (hd : Declared .runtime p.functions functions) :
    m'.Linked a p := by
  have hres := fun r hr => hb.inOrder.resolved hb.implements.arity (r := r) hr
  have hnames : m'.blocks.map Block.name = prog.flatMap Subroutine.names := by
    rw [hb.spelled.names_eq, List.flatMap_def, List.flatMap_def, ht.map_names]
  obtain ⟨parts, hblocks, hparts⟩ := hb.spelled.parts
  refine ⟨?_, fun b hmem => ?_, ⟨parts, hblocks, linked_functions ?_ hparts hres⟩, fun i hi hcall => ?_⟩
  · rw [hb.spelled.names_eq]
    exact hb.named.nodup
  · have hmem : b.name ∈ prog.flatMap Subroutine.names := hnames ▸ List.mem_map_of_mem hmem
    refine ⟨fun hempty => ?_, ((hcode.names hfs hd.names).2.2 _ hmem).not_runtime hd⟩
    refine hb.named.ne_empty ?_
    rwa [List.flatMap_def, ht.map_names, ← List.flatMap_def, ← hempty]
  · rw [ht.map_names]
    exact hcode.emitted hemits
  · obtain ⟨b, hmem, hi⟩ := List.mem_flatMap.1 hi
    obtain ⟨r, hr, bs, hspelled, hb'⟩ := hb.spelled.mem hmem
    obtain ⟨f, hf, hknown⟩ := hspelled.calls (hres r hr) hb' hi hcall
    rw [ht.arityOf] at hknown
    exact ⟨f, hf, hcode.known hknown⟩

/-- **What is compiled links**, reduced or not: blocks have different names, none of them that of a function of
the runtime, jumps stay in their function, and calls name functions of the program or of the machine. So there
is a machine for the module, and its jumps and calls go where they say. -/
theorem compiled_links {options : CompileOptions} {c : Compilation} (hc : compile source options = .ok c)
    (hlen : source.length < 2 ^ 55) :
    ∃ p code, parseProgram source = .ok p ∧ c.module.Linked c.analysis p ∧ code.Transfers c.module ∧
      ∀ {σ : Type} (host : σ) (limit : Nat),
        Machine.ofModule c.module host limit = .ok ⟨code, .replicate stackWords 0, host, limit, 0⟩ := by
  obtain ⟨p, m, h, hmodule⟩ := compiled_of_compile hc
  have hvariant : m.Variant c.module := by
    rw [hmodule]
    split
    · exact .reduced _
    · exact .same
  obtain ⟨hd, -⟩ := h.called
  obtain ⟨prog, n, hcode, hspelled, hnamed, hemits⟩ := h.routines
  have hmode : p.Allows ⟨false, false, false⟩ := ⟨nofun, nofun⟩
  obtain ⟨-, -, hbuilds⟩ := hcode.builds hspelled hnamed hmode (h.instructionCount_lt hlen)
  obtain ⟨prog', code, hbuilt, hturned⟩ := hbuilds _ hvariant
  have hlinked := hbuilt.linked hturned hcode hemits (parseProgram_names h.parsed) hd
  refine ⟨p, code, h.parsed, hlinked, ?_, hbuilt.machine⟩
  exact transfers_of_ofModule hbuilt.made hlinked.nodup (fun b hb => (hlinked.named b hb).1) hbuilt.spelled.getLast

theorem compiled_links_sample : ∃ c p code, compile sampleSource = .ok c ∧ parseProgram sampleSource = .ok p ∧
    c.module.Linked c.analysis p ∧ code.Transfers c.module ∧
      Machine.ofModule c.module (⟨[], ""⟩ : Script) 100 = .ok ⟨code, .replicate stackWords 0, ⟨[], ""⟩, 100, 0⟩ := by
  obtain ⟨c, hc⟩ : ∃ c, compile sampleSource = .ok c := exists_compile_iff.2 ⟨_, _, _, compiled_sample⟩
  obtain ⟨p, code, hp, hlinked, htransfers, hmachine⟩ := compiled_links hc (Nat.lt_trans length_sample (by decide))
  exact ⟨c, p, code, hc, hp, hlinked, htransfers, hmachine _ _⟩

end Programs

end MicroC
