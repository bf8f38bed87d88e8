import Mathlib.Data.List.Perm.Basic
import MicroC.Proofs.Parser.Unrolled

/-!
# Sources in another order

The tokens of a program are those of its functions, one after the other. So with the functions in another order
they are those of a program with the same functions.

* `Routines.Reordered`: tokens of the same functions in another order.
* **`parseProgram_reordered`**: sources of the same functions in another order.
-/

namespace MicroC

namespace Grammar

variable {b : Bool} {ts us : List Token} {rs qs : List Routine}

theorem Routines.append (h : Routines b ts rs) (h' : Routines b us qs) : Routines b (ts ++ us) (rs ++ qs) := by
  induction h with
  | nil => exact h'
  | cons hk hn hl hps hr hb hxs he _ ih =>
    have hall := Routines.cons hk hn hl hps hr hb hxs he ih
    rwa [← List.cons_append, ← List.append_assoc] at hall

theorem Routines.flatten {parts : List (List Token)}
    (h : List.Forall₂ (fun part r => Routines b part [r]) parts rs) : Routines b parts.flatten rs := by
  induction h with
  | nil => exact .nil
  | cons hr _ ih => exact hr.append ih

/-- Tokens of the same functions in another order. -/
def Routines.Reordered (ts us : List Token) : Prop :=
  ∃ parts parts' : List (List Token), ts = parts.flatten ∧ us = parts'.flatten ∧ parts.Perm parts' ∧
    ∀ part ∈ parts, ∃ r, Routines true part [r]

namespace Routines.Reordered

theorem mem (h : Reordered ts us) {t : Token} : t ∈ us ↔ t ∈ ts := by
  obtain ⟨parts, parts', rfl, rfl, hperm, -⟩ := h
  exact hperm.symm.flatten.mem_iff

theorem derived (h : Reordered ts us) : ∃ rs rs', Routines true ts rs ∧ Routines true us rs' ∧ rs'.Perm rs := by
  obtain ⟨parts, parts', rfl, rfl, hperm, hparts⟩ := h
  obtain ⟨rs, hrs⟩ : ∃ rs, List.Forall₂ (fun part r => Routines true part [r]) parts rs := by
    clear hperm
    induction parts with
    | nil => exact ⟨[], .nil⟩
    | cons part parts ih =>
      obtain ⟨⟨r, hr⟩, hparts⟩ := List.forall_mem_cons.1 hparts
      obtain ⟨rs, hrs⟩ := ih hparts
      exact ⟨r :: rs, .cons hr hrs⟩
  obtain ⟨rs', hrs', hperm'⟩ := List.perm_comp_forall₂ hperm.symm hrs
  exact ⟨rs, rs', .flatten hrs, .flatten hrs', hperm'⟩

end Routines.Reordered

end Grammar

open Grammar

/-- **A source with its functions in another order** is parsed to the same functions in that order. -/
theorem parseProgram_reordered {source source' : String} {p : Program} {us : List Token}
    (h : parseProgram source = .ok p) (hu : Routines.Reordered (scan source).tokens us)
    (herr : (scan source').errors = []) (hts : SameText us (scan source').tokens) :
    ∃ p', parseProgram source' = .ok p' ∧ p'.routines.Perm p.routines := by
  obtain ⟨rs, rs', hrs, hrs', hperm⟩ := hu.derived
  obtain ⟨hread, -⟩ := (parseProgram_iff source p.routines).1 ⟨p, h, rfl⟩
  obtain ⟨q, hq, rfl⟩ := (parseProgram_iff source rs).2 ⟨hread, hrs⟩
  obtain rfl : p = q := Except.ok.inj (h.symm.trans hq)
  have hin : InRange us := fun t ht => hread.2 t (hu.mem.1 ht)
  obtain ⟨p', hp', rfl⟩ := (parseProgram_iff source' rs').2 ⟨⟨herr, hin.respan hts⟩, hrs'.respan hts⟩
  exact ⟨p', hp', hperm⟩

end MicroC
