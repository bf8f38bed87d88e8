import MicroC.Proofs.Parser.Grammar

/-!
# How many tokens trees take

Whatever parentheses and braces stand around its parts, a tree takes so many tokens at least.

* `Term.tokens`, `Phrase.tokens`: the least number of tokens of a tree.
* **`Derives.tokens_le`**, **`Statement.tokens_le`**, `Routines.tokens_le`: a derivation has no fewer.
-/

namespace MicroC.Grammar

/-! ## Trees -/

mutual

/-- How many tokens an expression takes at least. -/
def Term.tokens : Term → Nat
  | .int _ | .float _ | .string _ | .var _ => 1
  | .index _ i => i.tokens + 3
  | .call _ [] => 3
  | .call _ (x :: xs) => x.tokens + Term.tokensMore xs + 3
  | .unary _ x => x.tokens + 1
  | .binary _ x y => x.tokens + y.tokens + 1

/-- How many tokens expressions take at least, with a comma for each. -/
def Term.tokensMore : List Term → Nat
  | [] => 0
  | x :: xs => x.tokens + 1 + Term.tokensMore xs

end

mutual

/-- How many tokens a statement takes at least. Blocks may come without braces, from loops. -/
def Phrase.tokens : Phrase → Nat
  | .empty => 1
  | .ite c x none => c.tokens + x.tokens + 3
  | .ite c x (some y) => c.tokens + x.tokens + y.tokens + 4
  | .loop c x => c.tokens + x.tokens + 3
  | .ret none => 2
  | .ret (some e) => e.tokens + 2
  | .expr e => e.tokens + 1
  | .decl _ _ none => 3
  | .decl _ _ (some e) => e.tokens + 4
  | .array .. => 6
  | .block xs => Phrase.tokensAll xs

def Phrase.tokensAll : List Phrase → Nat
  | [] => 0
  | x :: xs => x.tokens + Phrase.tokensAll xs

end

theorem Term.tokens_pos (x : Term) : 0 < x.tokens := by
  match x with
  | .int _ | .float _ | .string _ | .var _ => exact Nat.one_pos
  | .index .. | .call _ [] | .call _ (_ :: _) | .unary .. | .binary .. =>
    rw [tokens]
    exact Nat.succ_pos _

/-- Each argument of a call takes two tokens at least. -/
theorem Term.two_mul_length_le (xs : List Term) : 2 * xs.length ≤ Term.tokensMore xs := by
  induction xs with
  | nil => exact Nat.le_refl 0
  | cons x xs ih =>
    have := x.tokens_pos
    simp only [Term.tokensMore, List.length_cons]
    omega

theorem Term.tokensMore_le (n : String) (xs : List Term) : Term.tokensMore xs ≤ (Term.call n xs).tokens := by
  cases xs with
  | nil => exact Nat.zero_le 3
  | cons x xs =>
    simp only [Term.tokens, Term.tokensMore]
    omega

/-! ## Derivations -/

mutual

theorem Derives.tokens_le {l : Level} {ts : List Token} {x : Term} (h : Derives l ts x) : x.tokens ≤ ts.length := by
  match h with
  | .ofEquality hx | .ofComparison hx | .ofAdditive hx | .ofMultiplicative hx | .ofUnary hx | .ofExponent hx
  | .ofAtom hx => exact hx.tokens_le
  | .assign hx _ hy | .exponent hx _ hy =>
    have := hx.tokens_le
    have := hy.tokens_le
    simp only [Term.tokens, List.length_append, List.length_cons]
    omega
  | .equality hx _ _ hy | .comparison hx _ _ hy | .additive hx _ _ hy | .multiplicative hx _ _ hy =>
    have := hx.tokens_le
    have := hy.tokens_le
    simp only [Term.tokens, List.length_append, List.length_cons]
    omega
  | .unary _ hx =>
    have := hx.tokens_le
    simp only [Term.tokens, List.length_cons]
    omega
  | .int _ | .float _ | .string _ | .var _ => exact Nat.le_refl 1
  | .paren _ hx _ =>
    have := hx.tokens_le
    simp only [List.length_append, List.length_cons]
    omega
  | .index _ _ hx _ =>
    have := hx.tokens_le
    simp only [Term.tokens, List.length_append, List.length_cons, List.length_nil]
    omega
  | .callNone _ _ _ => exact Nat.le_refl 3
  | .call _ _ (.last hx) _ =>
    have := hx.tokens_le
    simp only [Term.tokens, Term.tokensMore, List.length_append, List.length_cons, List.length_nil]
    omega
  | .call _ _ (.more hx _ hxs) _ =>
    have := hx.tokens_le
    have := hxs.tokens_le
    simp only [Term.tokens, List.length_append, List.length_cons, List.length_nil]
    omega

theorem DerivesList.tokens_le {ts : List Token} {xs : List Term} (h : DerivesList ts xs) :
    Term.tokensMore xs ≤ ts.length + 1 := by
  match h with
  | .last hx => exact Nat.succ_le_succ hx.tokens_le
  | .more hx _ hxs =>
    have := hx.tokens_le
    have := hxs.tokens_le
    simp only [Term.tokensMore, List.length_append, List.length_cons]
    omega

end

theorem Simple.tokens_le {ts : List Token} {x : Phrase} (h : Simple ts x) : x.tokens ≤ ts.length := by
  match h with
  | .empty _ | .decl _ _ _ | .array _ _ _ _ _ _ => exact Nat.le_refl _
  | .expr hx _ =>
    have := hx.tokens_le
    simp only [Phrase.tokens, List.length_append, List.length_cons, List.length_nil]
    omega
  | .init _ _ _ hx _ =>
    have := hx.tokens_le
    simp only [Phrase.tokens, List.length_append, List.length_cons, List.length_nil]
    omega

mutual

theorem Statement.tokens_le {nearest o : Bool} {ts : List Token} {x : Phrase} (h : Statement nearest o ts x) :
    x.tokens ≤ ts.length := by
  match h with
  | .simple hx => exact hx.tokens_le
  | .ret _ _ => exact Nat.le_refl 2
  | .retValue _ hx _ =>
    have := hx.tokens_le
    simp only [Phrase.tokens, List.length_append, List.length_cons, List.length_nil]
    omega
  | .block _ hxs _ =>
    have := hxs.tokens_le
    simp only [Phrase.tokens, List.length_append, List.length_cons, List.length_nil]
    omega
  | .ifThen _ _ hc _ hx =>
    have := hc.tokens_le
    have := hx.tokens_le
    simp only [Phrase.tokens, List.length_append, List.length_cons]
    omega
  | .ifElse _ _ hc _ hx _ _ hy =>
    have := hc.tokens_le
    have := hx.tokens_le
    have := hy.tokens_le
    simp only [Phrase.tokens, List.length_append, List.length_cons]
    omega
  | .loop _ _ hc _ hx =>
    have := hc.tokens_le
    have := hx.tokens_le
    simp only [Phrase.tokens, List.length_append, List.length_cons]
    omega
  | .forLoop _ _ hi hc _ hn _ hx =>
    have := hi.tokens_le
    have := hc.tokens_le
    have := hn.tokens_le
    have := hx.tokens_le
    simp only [Phrase.tokens, Phrase.tokensAll, List.length_append, List.length_cons]
    omega

theorem Statements.tokens_le {nearest : Bool} {ts : List Token} {xs : List Phrase}
    (h : Statements nearest ts xs) : Phrase.tokensAll xs ≤ ts.length := by
  match h with
  | .nil => exact Nat.le_refl 0
  | .cons hx hxs =>
    have := hx.tokens_le
    have := hxs.tokens_le
    simp only [Phrase.tokensAll, List.length_append]
    omega

end

/-- A function has six tokens besides those of its parameters and its body. -/
theorem Routines.tokens_le {nearest : Bool} {ts : List Token} {rs : List Routine} (h : Routines nearest ts rs) :
    ∀ r ∈ rs, Phrase.tokensAll r.body + 6 ≤ ts.length := by
  induction h with
  | nil => nofun
  | cons _ _ _ _ _ _ hxs _ _ ih =>
    have hbody := hxs.tokens_le
    simp only [List.length_append, List.length_cons]
    refine List.forall_mem_cons.2 ⟨?_, fun r hr => ?_⟩
    · dsimp only
      omega
    · have := ih r hr
      omega

end MicroC.Grammar
