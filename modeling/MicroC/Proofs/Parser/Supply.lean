import MicroC.Proofs.Parser.NodeOrder
import MicroC.Proofs.Token.Tiling

/-!
# How many numbers are given out

A node costs tokens. The dearest for its tokens is a `for` loop, which is spelled out with five nodes: its keyword, its
parentheses and the semicolon behind its condition pay for them at two a token. So a program has at most one number
more than two for each token.

* `Parser.allowance`: the numbers given out, and two for each token ahead.
* `Yields.allowance_le`, `YieldsStmt.allowance_le`, `YieldsFuncs.allowance_le`: reading never raises it.
* `issued_le`: how many numbers a program takes.
* **`index_le_of_parseProgram`**: how large the numbers of the nodes of a source are.
-/

namespace MicroC

namespace Parser

/-- The numbers given out, and two more for each token ahead. -/
def allowance (s : Parser) : Nat := s.issued + 2 * s.size

@[simp] theorem allowance_fresh (s : Parser) (span : Span) : (s.fresh span).2.allowance = s.allowance + 1 := by
  rw [allowance, issued_fresh, size_fresh, allowance, Nat.add_right_comm]

theorem allowance_advance_le (s : Parser) : s.advance.allowance ≤ s.allowance := by
  have := s.size_advance_le
  rw [allowance, issued_advance, allowance]
  omega

/-- A token pays for two numbers. -/
theorem allowance_advance_add {s : Parser} (h : s.peek.kind ≠ .eof) : s.advance.allowance + 2 ≤ s.allowance := by
  have := size_advance_lt h
  rw [allowance, issued_advance, allowance]
  omega

theorem allowance_advance_of_check {s : Parser} {k : TokenKind} (h : s.check k = true) (hk : k ≠ .eof) :
    s.advance.allowance + 2 ≤ s.allowance :=
  allowance_advance_add (by rwa [eq_of_beq h])

@[simp] theorem allowance_binary (s : Parser) (lhs : Expr) (op : BinaryOp) (span : Span) (rhs : Expr) :
    (s.binary lhs op span rhs).2.allowance = s.allowance + 1 :=
  s.allowance_fresh (lhs.span.merge rhs.span)

/-- A loop is spelled out with five nodes. -/
theorem allowance_unrolledFor (s : Parser) (init : Stmt) (c step : Expr) (body : Stmt) (span : Span) :
    (s.unrolledFor init c step body span).2.allowance = s.allowance + 5 := by
  rw [allowance, size_unrolledFor, allowance, Nat.add_right_comm]
  rfl

/-! ## Expressions -/

mutual

theorem Yields.allowance_le {s t : Parser} {l : Level} {e : Expr} (h : Yields l s e t) :
    t.allowance ≤ s.allowance := by
  match h with
  | .layer _ hx ho => exact Nat.le_trans ho.allowance_le hx.allowance_le
  | .signed hop hx =>
    have := hx.allowance_le
    have := allowance_advance_add (UnaryOp.ne_eof_of_ofToken? hop)
    rw [allowance_fresh]
    omega
  | .unsigned _ hx => exact hx.allowance_le
  | .int h _ | .float h _ | .string h | .var h _ _ =>
    have := allowance_advance_add (s := s) (by rw [h]; decide)
    rw [allowance_fresh]
    omega
  | .paren (t := t) _ he _ =>
    have := he.allowance_le
    have := s.allowance_advance_le
    have := t.allowance_advance_le
    omega
  | .index (t := t) h _ hi _ =>
    have := hi.allowance_le
    have := allowance_advance_add (s := s) (by rw [h]; decide)
    have := s.advance.allowance_advance_le
    have := t.allowance_advance_le
    rw [allowance_fresh]
    omega
  | .call (t := t) h _ ha _ =>
    have := ha.allowance_le
    have := allowance_advance_add (s := s) (by rw [h]; decide)
    have := s.advance.allowance_advance_le
    have := t.allowance_advance_le
    rw [allowance_fresh]
    omega

theorem Continues.allowance_le {s t : Parser} {l : Level} {lhs e : Expr} (h : Continues l lhs s e t) :
    t.allowance ≤ s.allowance := by
  match h with
  | .stop _ => exact Nat.le_refl _
  | .right hop _ hx | .once hop _ hx _ =>
    have := hx.allowance_le
    have := allowance_advance_add (Level.ne_eof_of_operator? hop)
    rw [allowance_fresh]
    omega
  | .left hop _ hx ho =>
    have := hx.allowance_le
    have := allowance_advance_add (Level.ne_eof_of_operator? hop)
    have hrest := ho.allowance_le
    rw [allowance_binary] at hrest
    omega

theorem Arguments.allowance_le {s t : Parser} {es : List Expr} (h : Arguments s es t) :
    t.allowance ≤ s.allowance := by
  match h with
  | .none _ => exact Nat.le_refl _
  | .some _ he => exact he.allowance_le

theorem ArgumentList.allowance_le {s t : Parser} {es : List Expr} (h : ArgumentList s es t) :
    t.allowance ≤ s.allowance := by
  match h with
  | .last he _ => exact he.allowance_le
  | .more (t := u) he _ hes =>
    exact Nat.le_trans hes.allowance_le (Nat.le_trans u.allowance_advance_le he.allowance_le)

end

/-! ## Statements -/

theorem YieldsSimple.allowance_le {s t : Parser} {x : Stmt} (h : YieldsSimple s x t) : t.allowance ≤ s.allowance := by
  cases h with
  | empty h =>
    have := allowance_advance_of_check h (by decide)
    rw [allowance_fresh]
    omega
  | expr _ _ he hs =>
    have := he.allowance_le
    have := allowance_advance_of_check hs (by decide)
    rw [allowance_fresh]
    omega
  | decl hd hs =>
    have := allowance_advance_of_check hs (by decide)
    have := s.advance.allowance_advance_le
    have := s.allowance_advance_le
    rw [allowance_fresh]
    omega
  | init hd _ he hs =>
    have := he.allowance_le
    have := allowance_advance_of_check hs (by decide)
    have := s.advance.advance.allowance_advance_le
    have := s.advance.allowance_advance_le
    have := s.allowance_advance_le
    rw [allowance_fresh]
    omega
  | array hd hb ha hi _ ht hc hs =>
    subst ha ht
    have := allowance_advance_of_check hb (by decide)
    have := allowance_advance_of_check hi (by decide)
    have := allowance_advance_of_check hc (by decide)
    have := allowance_advance_of_check hs (by decide)
    have := s.advance.allowance_advance_le
    have := s.allowance_advance_le
    rw [allowance_fresh] at *
    omega

mutual

theorem YieldsStmt.allowance_le {s t : Parser} {x : Stmt} (h : YieldsStmt s x t) : t.allowance ≤ s.allowance := by
  match h with
  | .simple _ h => exact h.allowance_le
  | .ret h _ =>
    have := allowance_advance_of_check h (by decide)
    have := s.advance.allowance_advance_le
    rw [allowance_fresh]
    omega
  | .retValue (t := t) h _ he _ =>
    have := he.allowance_le
    have := allowance_advance_of_check h (by decide)
    have := t.allowance_advance_le
    rw [allowance_fresh]
    omega
  | .ifThen (t := t) h _ hc _ hx _ | .loop (t := t) h _ hc _ hx =>
    have := hc.allowance_le
    have := hx.allowance_le
    have := allowance_advance_of_check h (by decide)
    have := s.advance.allowance_advance_le
    have := t.allowance_advance_le
    rw [allowance_fresh]
    omega
  | .ifElse (t := t) (u := u) h _ hc _ hx _ hy =>
    have := hc.allowance_le
    have := hx.allowance_le
    have := hy.allowance_le
    have := allowance_advance_of_check h (by decide)
    have := s.advance.allowance_advance_le
    have := t.allowance_advance_le
    have := u.allowance_advance_le
    rw [allowance_fresh]
    omega
  | .forLoop h ho hi hc hs hn hp hb =>
    have := hi.allowance_le
    have := hc.allowance_le
    have := hn.allowance_le
    have := hb.allowance_le
    have := allowance_advance_of_check h (by decide)
    have := allowance_advance_of_check ho (by decide)
    have := allowance_advance_of_check hs (by decide)
    have := allowance_advance_of_check hp (by decide)
    rw [allowance_unrolledFor]
    omega
  | .block hb => exact hb.allowance_le

theorem YieldsBlock.allowance_le {s t : Parser} {b : Site × List Stmt} (h : YieldsBlock s b t) :
    t.allowance ≤ s.allowance := by
  match h with
  | .mk (t := t) h hb _ =>
    have := hb.allowance_le
    have := allowance_advance_of_check h (by decide)
    have := t.allowance_advance_le
    rw [allowance_fresh]
    omega

theorem YieldsStmts.allowance_le {s t : Parser} {xs : List Stmt} (h : YieldsStmts s xs t) :
    t.allowance ≤ s.allowance := by
  match h with
  | .nil _ => exact Nat.le_refl _
  | .cons _ hx hxs => exact Nat.le_trans hxs.allowance_le hx.allowance_le

end

/-! ## Programs -/

theorem YieldsParam.allowance_le {s t : Parser} {p : Binder} (h : YieldsParam s p t) : t.allowance ≤ s.allowance := by
  cases h with
  | mk ht _ =>
    have := allowance_advance_of_check ht (by decide)
    have := s.advance.allowance_advance_le
    rw [allowance_fresh]
    omega

theorem YieldsParamList.allowance_le {s t : Parser} {ps : List Binder} (h : YieldsParamList s ps t) :
    t.allowance ≤ s.allowance := by
  induction h with
  | last hp _ => exact hp.allowance_le
  | more hp _ _ ih => exact Nat.le_trans ih (Nat.le_trans (allowance_advance_le _) hp.allowance_le)

theorem YieldsParams.allowance_le {s t : Parser} {ps : List Binder} (h : YieldsParams s ps t) :
    t.allowance ≤ s.allowance := by
  cases h with
  | none _ => exact Nat.le_refl _
  | some _ hps => exact hps.allowance_le

theorem YieldsFunc.allowance_le {s t : Parser} {f : Func} (h : YieldsFunc s f t) : t.allowance ≤ s.allowance := by
  cases h with
  | @mk t u _ _ hr _ _ hps _ hb =>
    have := hps.allowance_le
    have := hb.allowance_le
    have := allowance_advance_of_check hr (by decide)
    have := s.advance.allowance_advance_le
    have := s.advance.advance.allowance_advance_le
    have := t.allowance_advance_le
    rw [allowance_fresh]
    omega

theorem YieldsFuncs.allowance_le {s t : Parser} {fs : List Func} (h : YieldsFuncs s fs t) :
    t.allowance ≤ s.allowance := by
  induction h with
  | nil _ => exact Nat.le_refl _
  | cons _ hf _ ih => exact Nat.le_trans ih hf.allowance_le

/-- A program takes at most one number more than two for each of its tokens. -/
theorem issued_le {tokens : List Token} {p : Program} {s : Parser} (h : (program (.ofTokens tokens)).1 = (.ok p, s)) :
    s.numbering.issued ≤ 2 * tokens.length + 1 := by
  rw [program] at h
  obtain ⟨fs, u, hu, hf, hn⟩ := Reading.andThen_eq_ok.1 h
  cases hn
  have hle : u.issued + 2 * u.size ≤ 0 + 2 * tokens.length := (functions_eq_ok.1 hf).allowance_le
  show u.issued + 1 ≤ 2 * tokens.length + 1
  omega

end Parser

open MicroC.Parser

/-- **Twice the length of a source bounds the numbers of its nodes.** They fit in 32 bits for every source of fewer than
`2 ^ 31` characters. -/
theorem index_le_of_parseProgram {source : String} {p : Program} (h : parseProgram source = .ok p) {n : NodeId}
    (hn : n ∈ p.nodeTree.ids) : n.index ≤ 2 * source.length := by
  obtain ⟨-, s, hp, -⟩ := parseSource_eq_ok.1 h
  have hids : n ∈ NodeTree.idsAll [p.nodeTree] := List.mem_append_left _ hn
  have hlt : n.index < s.numbering.issued := (program_numbered hp).index_lt hids
  have hissued := issued_le hp
  have htokens := length_tokens_le source
  omega

end MicroC
