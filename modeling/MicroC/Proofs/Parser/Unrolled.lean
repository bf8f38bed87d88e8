import MicroC.Proofs.Parser.Language

/-!
# Loops spelled out

A `for` loop has no tree of its own, so in a program it can be replaced by the tokens of the block that it
stands for. Where tokens stand in a source does not matter to the grammar.

* `Routines.Unrolls`: a program with a `for` loop in it, and the program with that loop spelled out.
* **`parseProgram_of_unrolls`**: both are parsed to the same tree.
-/

namespace MicroC.Grammar

mutual

/-- Derivations do not depend on places. -/
theorem Derives.respan {l : Level} {ts us : List Token} {x : Term} (h : Derives l ts x) (hu : SameText ts us) :
    Derives l us x := by
  match h with
  | .ofEquality hx => exact .ofEquality (hx.respan hu)
  | .assign hx ht hy =>
    obtain ⟨_, _, _, rfl, h₁, hk, -, h₂⟩ := hu.mid
    exact .assign (hx.respan h₁) (hk.trans ht) (hy.respan h₂)
  | .ofComparison hx => exact .ofComparison (hx.respan hu)
  | .equality hx ht hop hy =>
    obtain ⟨_, _, _, rfl, h₁, hk, -, h₂⟩ := hu.mid
    exact .equality (hx.respan h₁) (hk.trans ht) hop (hy.respan h₂)
  | .ofAdditive hx => exact .ofAdditive (hx.respan hu)
  | .comparison hx ht hop hy =>
    obtain ⟨_, _, _, rfl, h₁, hk, -, h₂⟩ := hu.mid
    exact .comparison (hx.respan h₁) (hk.trans ht) hop (hy.respan h₂)
  | .ofMultiplicative hx => exact .ofMultiplicative (hx.respan hu)
  | .additive hx ht hop hy =>
    obtain ⟨_, _, _, rfl, h₁, hk, -, h₂⟩ := hu.mid
    exact .additive (hx.respan h₁) (hk.trans ht) hop (hy.respan h₂)
  | .ofUnary hx => exact .ofUnary (hx.respan hu)
  | .multiplicative hx ht hop hy =>
    obtain ⟨_, _, _, rfl, h₁, hk, -, h₂⟩ := hu.mid
    exact .multiplicative (hx.respan h₁) (hk.trans ht) hop (hy.respan h₂)
  | .unary ht hx =>
    obtain ⟨_, _, rfl, hk, -, h₁⟩ := hu.cons
    exact .unary (hk.trans ht) (hx.respan h₁)
  | .ofExponent hx => exact .ofExponent (hx.respan hu)
  | .ofAtom hx => exact .ofAtom (hx.respan hu)
  | .exponent hx ht hy =>
    obtain ⟨_, _, _, rfl, h₁, hk, -, h₂⟩ := hu.mid
    exact .exponent (hx.respan h₁) (hk.trans ht) (hy.respan h₂)
  | .int ht =>
    obtain ⟨_, rfl, hk, hl⟩ := hu.single
    rw [← hl]
    exact .int (hk.trans ht)
  | .float ht =>
    obtain ⟨_, rfl, hk, hl⟩ := hu.single
    rw [← hl]
    exact .float (hk.trans ht)
  | .string ht =>
    obtain ⟨_, rfl, hk, hl⟩ := hu.single
    rw [← hl]
    exact .string (hk.trans ht)
  | .paren hl hx hr =>
    obtain ⟨_, _, rfl, h₁, hkr, -⟩ := hu.last
    obtain ⟨_, _, rfl, hkl, -, h₁⟩ := h₁.cons
    exact .paren (hkl.trans hl) (hx.respan h₁) (hkr.trans hr)
  | .var ht =>
    obtain ⟨_, rfl, hk, hl⟩ := hu.single
    rw [← hl]
    exact .var (hk.trans ht)
  | .index ht hl hx hr =>
    obtain ⟨_, _, rfl, h₁, hkr, -⟩ := hu.last
    obtain ⟨_, _, rfl, hkt, hlt, h₁⟩ := h₁.cons
    obtain ⟨_, _, rfl, hkl, -, h₁⟩ := h₁.cons
    rw [← hlt]
    exact .index (hkt.trans ht) (hkl.trans hl) (hx.respan h₁) (hkr.trans hr)
  | .callNone ht hl hr =>
    obtain ⟨_, _, rfl, hkt, hlt, h₁⟩ := hu.cons
    obtain ⟨_, _, rfl, hkl, -, h₁⟩ := h₁.cons
    obtain ⟨_, rfl, hkr, -⟩ := h₁.single
    rw [← hlt]
    exact .callNone (hkt.trans ht) (hkl.trans hl) (hkr.trans hr)
  | .call ht hl hxs hr =>
    obtain ⟨_, _, rfl, h₁, hkr, -⟩ := hu.last
    obtain ⟨_, _, rfl, hkt, hlt, h₁⟩ := h₁.cons
    obtain ⟨_, _, rfl, hkl, -, h₁⟩ := h₁.cons
    rw [← hlt]
    exact .call (hkt.trans ht) (hkl.trans hl) (hxs.respan h₁) (hkr.trans hr)

theorem DerivesList.respan {ts us : List Token} {xs : List Term} (h : DerivesList ts xs) (hu : SameText ts us) :
    DerivesList us xs := by
  match h with
  | .last hx => exact .last (hx.respan hu)
  | .more hx ht hxs =>
    obtain ⟨_, _, _, rfl, h₁, hk, -, h₂⟩ := hu.mid
    exact .more (hx.respan h₁) (hk.trans ht) (hxs.respan h₂)

end

theorem Simple.respan {ts us : List Token} {x : Phrase} (h : Simple ts x) (hu : SameText ts us) : Simple us x := by
  cases h with
  | empty ht =>
    obtain ⟨_, rfl, hk, -⟩ := hu.single
    exact .empty (hk.trans ht)
  | expr hx ht =>
    obtain ⟨_, _, rfl, h₁, hk, -⟩ := hu.last
    exact .expr (hx.respan h₁) (hk.trans ht)
  | decl hk hn ht =>
    obtain ⟨_, _, rfl, hkk, hlk, h₁⟩ := hu.cons
    obtain ⟨_, _, rfl, hkn, hln, h₁⟩ := h₁.cons
    obtain ⟨_, rfl, hkt, -⟩ := h₁.single
    rw [← hlk, ← hln]
    exact .decl (hkk.trans hk) (hkn.trans hn) (hkt.trans ht)
  | init hk hn hq hx ht =>
    obtain ⟨_, _, rfl, h₁, hkt, -⟩ := hu.last
    obtain ⟨_, _, rfl, hkk, hlk, h₁⟩ := h₁.cons
    obtain ⟨_, _, rfl, hkn, hln, h₁⟩ := h₁.cons
    obtain ⟨_, _, rfl, hkq, -, h₁⟩ := h₁.cons
    rw [← hlk, ← hln]
    exact .init (hkk.trans hk) (hkn.trans hn) (hkq.trans hq) (hx.respan h₁) (hkt.trans ht)
  | array hk hn hl hi hr ht =>
    obtain ⟨_, _, rfl, hkk, hlk, h₁⟩ := hu.cons
    obtain ⟨_, _, rfl, hkn, hln, h₁⟩ := h₁.cons
    obtain ⟨_, _, rfl, hkl, -, h₁⟩ := h₁.cons
    obtain ⟨_, _, rfl, hki, hli, h₁⟩ := h₁.cons
    obtain ⟨_, _, rfl, hkr, -, h₁⟩ := h₁.cons
    obtain ⟨_, rfl, hkt, -⟩ := h₁.single
    rw [← hlk, ← hln, ← hli]
    exact .array (hkk.trans hk) (hkn.trans hn) (hkl.trans hl) (hki.trans hi) (hkr.trans hr) (hkt.trans ht)

mutual

theorem Statement.respan {b o : Bool} {ts us : List Token} {x : Phrase} (h : Statement b o ts x)
    (hu : SameText ts us) : Statement b o us x := by
  match h with
  | .simple hx => exact .simple (hx.respan hu)
  | .ret hk ht =>
    obtain ⟨_, _, rfl, hkk, -, h₁⟩ := hu.cons
    obtain ⟨_, rfl, hkt, -⟩ := h₁.single
    exact .ret (hkk.trans hk) (hkt.trans ht)
  | .retValue hk hx ht =>
    obtain ⟨_, _, rfl, h₁, hkt, -⟩ := hu.last
    obtain ⟨_, _, rfl, hkk, -, h₁⟩ := h₁.cons
    exact .retValue (hkk.trans hk) (hx.respan h₁) (hkt.trans ht)
  | .block hl hxs hr =>
    obtain ⟨_, _, rfl, h₁, hkr, -⟩ := hu.last
    obtain ⟨_, _, rfl, hkl, -, h₁⟩ := h₁.cons
    exact .block (hkl.trans hl) (hxs.respan h₁) (hkr.trans hr)
  | .ifThen hk hl hc hr hx =>
    obtain ⟨_, _, _, rfl, h₁, hkr, -, h₂⟩ := hu.mid
    obtain ⟨_, _, rfl, hkk, -, h₁⟩ := h₁.cons
    obtain ⟨_, _, rfl, hkl, -, h₁⟩ := h₁.cons
    exact .ifThen (hkk.trans hk) (hkl.trans hl) (hc.respan h₁) (hkr.trans hr) (hx.respan h₂)
  | .ifElse hk hl hc hr hx ho he hy =>
    obtain ⟨_, _, _, rfl, h₁, hke, -, h₃⟩ := hu.mid
    obtain ⟨_, _, _, rfl, h₁, hkr, -, h₂⟩ := h₁.mid
    obtain ⟨_, _, rfl, hkk, -, h₁⟩ := h₁.cons
    obtain ⟨_, _, rfl, hkl, -, h₁⟩ := h₁.cons
    exact .ifElse (hkk.trans hk) (hkl.trans hl) (hc.respan h₁) (hkr.trans hr) (hx.respan h₂) ho (hke.trans he)
      (hy.respan h₃)
  | .loop hk hl hc hr hx =>
    obtain ⟨_, _, _, rfl, h₁, hkr, -, h₂⟩ := hu.mid
    obtain ⟨_, _, rfl, hkk, -, h₁⟩ := h₁.cons
    obtain ⟨_, _, rfl, hkl, -, h₁⟩ := h₁.cons
    exact .loop (hkk.trans hk) (hkl.trans hl) (hc.respan h₁) (hkr.trans hr) (hx.respan h₂)
  | .forLoop hk hl hi hc hq hn hr hx =>
    obtain ⟨_, _, _, rfl, h₁, hkr, -, h₄⟩ := hu.mid
    obtain ⟨_, _, _, rfl, h₁, hkq, -, h₃⟩ := h₁.mid
    obtain ⟨_, _, rfl, h₁, h₂⟩ := h₁.append
    obtain ⟨_, _, rfl, hkk, -, h₁⟩ := h₁.cons
    obtain ⟨_, _, rfl, hkl, -, h₁⟩ := h₁.cons
    exact .forLoop (hkk.trans hk) (hkl.trans hl) (hi.respan h₁) (hc.respan h₂) (hkq.trans hq) (hn.respan h₃)
      (hkr.trans hr) (hx.respan h₄)

theorem Statements.respan {b : Bool} {ts us : List Token} {xs : List Phrase} (h : Statements b ts xs)
    (hu : SameText ts us) : Statements b us xs := by
  match h with
  | .nil =>
    obtain rfl := hu.nil
    exact .nil
  | .cons hx hxs =>
    obtain ⟨_, _, rfl, h₁, h₂⟩ := hu.append
    exact .cons (hx.respan h₁) (hxs.respan h₂)

end

theorem Params.respan {ts us : List Token} {ps : List Param} (h : Params ts ps) (hu : SameText ts us) :
    Params us ps := by
  induction h generalizing us with
  | last hk hn =>
    obtain ⟨_, _, rfl, hkk, hlk, h₁⟩ := hu.cons
    obtain ⟨_, rfl, hkn, hln⟩ := h₁.single
    rw [← hlk, ← hln]
    exact .last (hkk.trans hk) (hkn.trans hn)
  | more hk hn ht _ ih =>
    obtain ⟨_, _, rfl, hkk, hlk, h₁⟩ := hu.cons
    obtain ⟨_, _, rfl, hkn, hln, h₁⟩ := h₁.cons
    obtain ⟨_, _, rfl, hkt, -, h₁⟩ := h₁.cons
    rw [← hlk, ← hln]
    exact .more (hkk.trans hk) (hkn.trans hn) (hkt.trans ht) (ih h₁)

/-- **Derivations of programs do not depend on places.** -/
theorem Routines.respan {b : Bool} {ts us : List Token} {rs : List Routine} (h : Routines b ts rs)
    (hu : SameText ts us) : Routines b us rs := by
  induction h generalizing us with
  | nil =>
    obtain rfl := hu.nil
    exact .nil
  | cons hk hn hl hps hr hb hxs he _ ih =>
    obtain ⟨_, _, _, rfl, h₁, hke, -, h₄⟩ := hu.mid
    obtain ⟨_, _, _, rfl, h₂, hkr, -, h₃⟩ := h₁.mid
    obtain ⟨_, _, rfl, hkb, -, h₃⟩ := h₃.cons
    obtain ⟨_, _, rfl, hkk, hlk, h₂⟩ := h₂.cons
    obtain ⟨_, _, rfl, hkn, hln, h₂⟩ := h₂.cons
    obtain ⟨_, _, rfl, hkl, -, h₂⟩ := h₂.cons
    rw [← hlk, ← hln]
    refine .cons (hkk.trans hk) (hkn.trans hn) (hkl.trans hl) ?_ (hkr.trans hr) (hkb.trans hb) (hxs.respan h₃)
      (hke.trans he) (ih h₄)
    rcases hps with ⟨rfl, rfl⟩ | hps
    · exact .inl ⟨h₂.nil, rfl⟩
    · exact .inr (hps.respan h₂)

/-! ## Loops -/

/-- The tokens of `{ init while ( condition ) { { body } step ; } }`. -/
def unrolled (init condition step body : List Token) : List Token :=
  ⟨.leftBrace, "\x7b", default⟩ :: (init ++ ⟨.whileKw, "while", default⟩ :: ⟨.leftParen, "(", default⟩ ::
    (condition ++ ⟨.rightParen, ")", default⟩ :: ⟨.leftBrace, "\x7b", default⟩ :: ⟨.leftBrace, "\x7b", default⟩ ::
      (body ++ ⟨.rightBrace, "\x7d", default⟩ :: (step ++ [⟨.semicolon, ";", default⟩,
        ⟨.rightBrace, "\x7d", default⟩, ⟨.rightBrace, "\x7d", default⟩]))))

mutual

/-- The tokens of a statement with a `for` loop in it, and the tokens with that loop spelled out. The flag says
whether the first statement ends in an `if` that an `else` behind it would belong to. -/
inductive Statement.Unrolls : Bool → List Token → List Token → Prop
  | here {o : Bool} {is ts us vs : List Token} {k l q r : Token} {c n : Term} {i x : Phrase}
      (hk : k.kind = .forKw) (hl : l.kind = .leftParen) (hi : Simple is i) (hc : Derives .assignment ts c)
      (hq : q.kind = .semicolon) (hn : Derives .assignment us n) (hr : r.kind = .rightParen)
      (hx : Statement true o vs x) :
      Statement.Unrolls o (k :: l :: is ++ ts ++ q :: us ++ r :: vs) (unrolled is ts us vs)
  | block {ts ts' : List Token} {l r : Token} (hl : l.kind = .leftBrace) (hxs : Statements.Unrolls ts ts')
      (hr : r.kind = .rightBrace) : Statement.Unrolls false (l :: ts ++ [r]) (l :: ts' ++ [r])
  | ifThen {o : Bool} {ts us us' : List Token} {k l r : Token} {c : Term} (hk : k.kind = .ifKw)
      (hl : l.kind = .leftParen) (hc : Derives .assignment ts c) (hr : r.kind = .rightParen)
      (hx : Statement.Unrolls o us us') :
      Statement.Unrolls true (k :: l :: ts ++ r :: us) (k :: l :: ts ++ r :: us')
  | thenBranch {o : Bool} {ts us us' vs : List Token} {k l r e : Token} {c : Term} {y : Phrase}
      (hk : k.kind = .ifKw) (hl : l.kind = .leftParen) (hc : Derives .assignment ts c) (hr : r.kind = .rightParen)
      (hx : Statement.Unrolls false us us') (he : e.kind = .elseKw) (hy : Statement true o vs y) :
      Statement.Unrolls o (k :: l :: ts ++ r :: us ++ e :: vs) (k :: l :: ts ++ r :: us' ++ e :: vs)
  | elseBranch {o : Bool} {ts us vs vs' : List Token} {k l r e : Token} {c : Term} {x : Phrase}
      (hk : k.kind = .ifKw) (hl : l.kind = .leftParen) (hc : Derives .assignment ts c) (hr : r.kind = .rightParen)
      (hx : Statement true false us x) (he : e.kind = .elseKw) (hy : Statement.Unrolls o vs vs') :
      Statement.Unrolls o (k :: l :: ts ++ r :: us ++ e :: vs) (k :: l :: ts ++ r :: us ++ e :: vs')
  | loop {o : Bool} {ts us us' : List Token} {k l r : Token} {c : Term} (hk : k.kind = .whileKw)
      (hl : l.kind = .leftParen) (hc : Derives .assignment ts c) (hr : r.kind = .rightParen)
      (hx : Statement.Unrolls o us us') :
      Statement.Unrolls o (k :: l :: ts ++ r :: us) (k :: l :: ts ++ r :: us')
  | forLoop {o : Bool} {is ts us vs vs' : List Token} {k l q r : Token} {c n : Term} {i : Phrase}
      (hk : k.kind = .forKw) (hl : l.kind = .leftParen) (hi : Simple is i) (hc : Derives .assignment ts c)
      (hq : q.kind = .semicolon) (hn : Derives .assignment us n) (hr : r.kind = .rightParen)
      (hx : Statement.Unrolls o vs vs') :
      Statement.Unrolls o (k :: l :: is ++ ts ++ q :: us ++ r :: vs) (k :: l :: is ++ ts ++ q :: us ++ r :: vs')

inductive Statements.Unrolls : List Token → List Token → Prop
  | here {o : Bool} {ts ts' us : List Token} {xs : List Phrase} (hx : Statement.Unrolls o ts ts')
      (hxs : Statements true us xs) : Statements.Unrolls (ts ++ us) (ts' ++ us)
  | later {o : Bool} {ts us us' : List Token} {x : Phrase} (hx : Statement true o ts x)
      (hxs : Statements.Unrolls us us') : Statements.Unrolls (ts ++ us) (ts ++ us')

end

/-- The tokens of a program with a `for` loop in it, and the tokens with that loop spelled out. -/
inductive Routines.Unrolls : List Token → List Token → Prop
  | here {ps ts ts' us : List Token} {k n l r b e : Token} {params : List Param} {fs : List Routine}
      (hk : k.kind = .identifier) (hn : n.kind = .identifier) (hl : l.kind = .leftParen)
      (hps : ps = [] ∧ params = [] ∨ Params ps params) (hr : r.kind = .rightParen) (hb : b.kind = .leftBrace)
      (hxs : Statements.Unrolls ts ts') (he : e.kind = .rightBrace) (hfs : Routines true us fs) :
      Routines.Unrolls (k :: n :: l :: ps ++ r :: b :: ts ++ e :: us) (k :: n :: l :: ps ++ r :: b :: ts' ++ e :: us)
  | later {ps ts us us' : List Token} {k n l r b e : Token} {params : List Param} {body : List Phrase}
      (hk : k.kind = .identifier) (hn : n.kind = .identifier) (hl : l.kind = .leftParen)
      (hps : ps = [] ∧ params = [] ∨ Params ps params) (hr : r.kind = .rightParen) (hb : b.kind = .leftBrace)
      (hxs : Statements true ts body) (he : e.kind = .rightBrace) (hfs : Routines.Unrolls us us') :
      Routines.Unrolls (k :: n :: l :: ps ++ r :: b :: ts ++ e :: us) (k :: n :: l :: ps ++ r :: b :: ts ++ e :: us')

theorem Routines.Unrolls.cast {ts us ts' : List Token} (h : Routines.Unrolls ts ts') (heq : ts = us) :
    Routines.Unrolls us ts' := heq ▸ h

/-- What is spelled out is the block that a loop stands for. -/
theorem statement_unrolled {o : Bool} {is ts us vs : List Token} {c n : Term} {i x : Phrase} (hi : Simple is i)
    (hc : Derives .assignment ts c) (hn : Derives .assignment us n) (hx : Statement true o vs x) :
    Statement true false (unrolled is ts us vs) (.block [i, .loop c (.block [.block [x], .expr n])]) := by
  have hbody : Statement true false (⟨.leftBrace, "\x7b", default⟩ :: vs ++ [⟨.rightBrace, "\x7d", default⟩])
      (.block [x]) := by
    refine .block rfl ?_ rfl
    simpa using Statements.cons hx .nil
  have hstep : Statement true false (us ++ [⟨.semicolon, ";", default⟩]) (.expr n) := .simple (.expr hn rfl)
  have hloop : Statement true _ _ _ := .loop (k := ⟨.whileKw, "while", default⟩) (l := ⟨.leftParen, "(", default⟩)
    (r := ⟨.rightParen, ")", default⟩) rfl rfl hc rfl (.block (l := ⟨.leftBrace, "\x7b", default⟩)
      (r := ⟨.rightBrace, "\x7d", default⟩) rfl (.cons hbody (.cons hstep .nil)) rfl)
  have hall : Statement true _ _ _ := .block (l := ⟨.leftBrace, "\x7b", default⟩)
    (r := ⟨.rightBrace, "\x7d", default⟩) rfl (.cons (.simple hi) (.cons hloop .nil)) rfl
  refine hall.cast ?_
  simp [unrolled]

mutual

theorem Statement.Unrolls.derived {o : Bool} {ts ts' : List Token} (h : Statement.Unrolls o ts ts') :
    ∃ x, Statement true o ts x ∧ ∃ o', (o = false → o' = false) ∧ Statement true o' ts' x := by
  match h with
  | .here hk hl hi hc hq hn hr hx =>
    exact ⟨_, .forLoop hk hl hi hc hq hn hr hx, false, fun _ => rfl, statement_unrolled hi hc hn hx⟩
  | .block hl hxs hr =>
    obtain ⟨xs, hxs, hxs'⟩ := hxs.derived
    exact ⟨_, .block hl hxs hr, false, id, .block hl hxs' hr⟩
  | .ifThen hk hl hc hr hx =>
    obtain ⟨x, hx, o', -, hx'⟩ := hx.derived
    exact ⟨_, .ifThen hk hl hc hr hx, true, id, .ifThen hk hl hc hr hx'⟩
  | .thenBranch hk hl hc hr hx he hy =>
    obtain ⟨x, hx, o', ho, hx'⟩ := hx.derived
    exact ⟨_, .ifElse hk hl hc hr hx (fun _ => rfl) he hy, _, id, .ifElse hk hl hc hr hx' (fun _ => ho rfl) he hy⟩
  | .elseBranch hk hl hc hr hx he hy =>
    obtain ⟨y, hy, o', ho, hy'⟩ := hy.derived
    exact ⟨_, .ifElse hk hl hc hr hx (fun _ => rfl) he hy, o', ho, .ifElse hk hl hc hr hx (fun _ => rfl) he hy'⟩
  | .loop hk hl hc hr hx =>
    obtain ⟨x, hx, o', ho, hx'⟩ := hx.derived
    exact ⟨_, .loop hk hl hc hr hx, o', ho, .loop hk hl hc hr hx'⟩
  | .forLoop hk hl hi hc hq hn hr hx =>
    obtain ⟨x, hx, o', ho, hx'⟩ := hx.derived
    exact ⟨_, .forLoop hk hl hi hc hq hn hr hx, o', ho, .forLoop hk hl hi hc hq hn hr hx'⟩

theorem Statements.Unrolls.derived {ts ts' : List Token} (h : Statements.Unrolls ts ts') :
    ∃ xs, Statements true ts xs ∧ Statements true ts' xs := by
  match h with
  | .here hx hxs =>
    obtain ⟨x, hx, o', -, hx'⟩ := hx.derived
    exact ⟨_, .cons hx hxs, .cons hx' hxs⟩
  | .later hx hxs =>
    obtain ⟨xs, hxs, hxs'⟩ := hxs.derived
    exact ⟨_, .cons hx hxs, .cons hx hxs'⟩

end

/-- **Both are the same program.** -/
theorem Routines.Unrolls.derived {ts ts' : List Token} (h : Routines.Unrolls ts ts') :
    ∃ rs, Routines true ts rs ∧ Routines true ts' rs := by
  induction h with
  | here hk hn hl hps hr hb hxs he hfs =>
    obtain ⟨xs, hxs, hxs'⟩ := hxs.derived
    exact ⟨_, .cons hk hn hl hps hr hb hxs he hfs, .cons hk hn hl hps hr hb hxs' he hfs⟩
  | later hk hn hl hps hr hb hxs he _ ih =>
    obtain ⟨fs, hfs, hfs'⟩ := ih
    exact ⟨_, .cons hk hn hl hps hr hb hxs he hfs, .cons hk hn hl hps hr hb hxs he hfs'⟩

/-! ## Parsing -/

mutual

/-- Spelling a loop out takes no other integers. -/
theorem Statement.Unrolls.mem {o : Bool} {ts ts' : List Token} (h : Statement.Unrolls o ts ts') :
    ∀ t ∈ ts', t.kind = .intLiteral → t ∈ ts := by
  intro t ht hk
  match h with
  | .here _ _ _ _ _ _ _ _ =>
    simp only [unrolled, List.mem_cons, List.mem_append, List.not_mem_nil, or_false] at ht ⊢
    rcases ht with rfl | ht | rfl | rfl | ht | rfl | rfl | rfl | ht | rfl | ht | rfl | rfl | rfl <;>
      first | cases hk | simp [ht]
  | .block _ hx _ | .ifThen _ _ _ _ hx | .thenBranch _ _ _ _ hx _ _ | .elseBranch _ _ _ _ _ _ hx
  | .loop _ _ _ _ hx | .forLoop _ _ _ _ _ _ _ hx =>
    have hmem := fun h => hx.mem t h hk
    simp only [List.mem_cons, List.mem_append] at ht ⊢
    grind

theorem Statements.Unrolls.mem {ts ts' : List Token} (h : Statements.Unrolls ts ts') :
    ∀ t ∈ ts', t.kind = .intLiteral → t ∈ ts := by
  intro t ht hk
  match h with
  | .here hx _ => exact List.mem_append.2 ((List.mem_append.1 ht).imp_left fun ht => hx.mem t ht hk)
  | .later _ hxs => exact List.mem_append.2 ((List.mem_append.1 ht).imp_right fun ht => hxs.mem t ht hk)

end

theorem Routines.Unrolls.mem {ts ts' : List Token} (h : Routines.Unrolls ts ts') :
    ∀ t ∈ ts', t.kind = .intLiteral → t ∈ ts := by
  intro t ht hk
  induction h with
  | here _ _ _ _ _ _ hxs _ _ =>
    have hmem := fun h => hxs.mem t h hk
    simp only [List.mem_cons, List.mem_append] at ht ⊢
    grind
  | later _ _ _ _ _ _ _ _ _ ih =>
    simp only [List.mem_cons, List.mem_append] at ht ⊢
    grind

theorem InRange.respan {ts us : List Token} (h : InRange ts) (hu : SameText ts us) : InRange us := by
  intro t ht hk
  obtain ⟨u, hmem, htext⟩ : ∃ u ∈ ts, text u = text t := by
    have := List.mem_map_of_mem (f := text) ht
    rw [hu] at this
    exact List.mem_map.1 this
  have hkind : u.kind = t.kind := congrArg Prod.fst htext
  have hlexeme : u.lexeme = t.lexeme := congrArg Prod.snd htext
  rw [← hlexeme]
  exact h u hmem (hkind.trans hk)

end MicroC.Grammar

namespace MicroC

open Grammar

/-- **A program with a loop spelled out is parsed to the same tree.** -/
theorem parseProgram_of_unrolls {source source' : String} {p : Program} {ts : List Token}
    (h : parseProgram source = .ok p) (hu : Routines.Unrolls (scan source).tokens ts)
    (herr : (scan source').errors = []) (hts : SameText ts (scan source').tokens) :
    ∃ p', parseProgram source' = .ok p' ∧ p'.routines = p.routines := by
  obtain ⟨hread, -⟩ := (parseProgram_iff source _).1 ⟨p, h, rfl⟩
  obtain ⟨rs, hrs, hrs'⟩ := hu.derived
  have hrange : InRange ts := fun t ht hk => hread.2 t (hu.mem t ht hk) hk
  obtain ⟨q, hq, rfl⟩ := (parseProgram_iff source rs).2 ⟨hread, hrs⟩
  cases h.symm.trans hq
  exact (parseProgram_iff source' _).2 ⟨⟨herr, hrange.respan hts⟩, hrs'.respan hts⟩

end MicroC
