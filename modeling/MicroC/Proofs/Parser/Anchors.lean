import MicroC.Proofs.Parser.Language

/-!
# Where the nodes of a program start

The span of a node is merged from the spans of its first and its last part. The length that comes out of this means
little when the parts are on different lines, but the start is always that of a token. Names and operators keep the
place of the token they were read from.

* `Span.StartsIn`, `Ident.ReadIn`: spans and names that go back to tokens.
* `Span.StartsIn.merge`: merging keeps to the starts of tokens.
* `Expr.Anchored`, `Stmt.Anchored`, `Func.Anchored`: all spans and names of a tree go back to tokens.
* `Yields.anchored`, `YieldsStmt.anchored`, `YieldsFuncs.anchored`: trees are anchored in the tokens they are read from.
* **`anchored_of_parseProgram`**: a parsed program is anchored in the tokens of its source.
-/

namespace MicroC

/-! ## Anchors -/

/-- A span starts where one of some tokens does. -/
def Span.StartsIn (ts : List Token) (sp : Span) : Prop := ∃ t ∈ ts, sp.start = t.span.start

/-- A name is the text of one of some tokens and stands in its place. -/
def Ident.ReadIn (ts : List Token) (n : Ident) : Prop := ∃ t ∈ ts, t.lexeme = n.name ∧ t.span = n.span

/-- A merged span starts where one of its parts does. -/
theorem Span.start_merge (s t : Span) : (s.merge t).start = s.start ∨ (s.merge t).start = t.start := by
  unfold merge
  split
  · next hline =>
    rcases Nat.le_total s.col t.col with h | h
    · exact .inl (congrArg (Position.mk _) (Nat.min_eq_left h))
    · exact .inr (by rw [start, start, hline, Nat.min_eq_right h])
  · split
    · exact .inr rfl
    · exact .inl rfl

section Anchors

variable {ts : List Token}

theorem Span.StartsIn.merge {s t : Span} (hs : s.StartsIn ts) (ht : t.StartsIn ts) : (s.merge t).StartsIn ts := by
  obtain ⟨u, hu, hsu⟩ := hs
  obtain ⟨v, hv, htv⟩ := ht
  rcases s.start_merge t with h | h
  · exact ⟨u, hu, h.trans hsu⟩
  · exact ⟨v, hv, h.trans htv⟩

theorem Span.StartsIn.of_mem {t : Token} (h : t ∈ ts) : t.span.StartsIn ts := ⟨t, h, rfl⟩

theorem Ident.ReadIn.of_mem {t : Token} (h : t ∈ ts) : Ident.ReadIn ts ⟨t.lexeme, t.span⟩ := ⟨t, h, rfl, rfl⟩

theorem Ident.ReadIn.startsIn {n : Ident} (h : n.ReadIn ts) : n.span.StartsIn ts := by
  obtain ⟨t, ht, -, hspan⟩ := h
  exact ⟨t, ht, by rw [hspan]⟩

end Anchors

mutual

/-- All spans and names of an expression go back to tokens. -/
def Expr.Anchored (ts : List Token) : Expr → Prop
  | .int s _ | .float s _ | .string s _ => s.span.StartsIn ts
  | .var s n => s.span.StartsIn ts ∧ n.ReadIn ts
  | .index s n i => s.span.StartsIn ts ∧ n.ReadIn ts ∧ i.Anchored ts
  | .call s n args => s.span.StartsIn ts ∧ n.ReadIn ts ∧ Expr.AllAnchored ts args
  | .unary s _ o x => s.span.StartsIn ts ∧ o.StartsIn ts ∧ x.Anchored ts
  | .binary s _ o x y => s.span.StartsIn ts ∧ o.StartsIn ts ∧ x.Anchored ts ∧ y.Anchored ts

def Expr.AllAnchored (ts : List Token) : List Expr → Prop
  | [] => True
  | e :: es => e.Anchored ts ∧ Expr.AllAnchored ts es

end

/-- An expression that may be missing. -/
def Expr.OptionAnchored (ts : List Token) (e : Option Expr) : Prop := ∀ x ∈ e, x.Anchored ts

/-- The spans and names of a declaration go back to tokens. -/
structure Binder.Anchored (ts : List Token) (b : Binder) : Prop where
  site : b.site.span.StartsIn ts
  type : b.type.ReadIn ts
  name : b.name.ReadIn ts

mutual

/-- All spans and names of a statement go back to tokens. -/
def Stmt.Anchored (ts : List Token) : Stmt → Prop
  | .empty s => s.span.StartsIn ts
  | .ite s c x none => s.span.StartsIn ts ∧ c.Anchored ts ∧ x.Anchored ts
  | .ite s c x (some y) => s.span.StartsIn ts ∧ c.Anchored ts ∧ x.Anchored ts ∧ y.Anchored ts
  | .loop s c x => s.span.StartsIn ts ∧ c.Anchored ts ∧ x.Anchored ts
  | .ret s v => s.span.StartsIn ts ∧ Expr.OptionAnchored ts v
  | .expr s e => s.span.StartsIn ts ∧ e.Anchored ts
  | .decl b init => b.Anchored ts ∧ Expr.OptionAnchored ts init
  | .array b n => b.Anchored ts ∧ n.site.span.StartsIn ts
  | .block s xs => s.span.StartsIn ts ∧ Stmt.AllAnchored ts xs

def Stmt.AllAnchored (ts : List Token) : List Stmt → Prop
  | [] => True
  | x :: xs => x.Anchored ts ∧ Stmt.AllAnchored ts xs

end

/-- All spans and names of a function go back to tokens. -/
structure Func.Anchored (ts : List Token) (f : Func) : Prop where
  site : f.site.span.StartsIn ts
  returns : f.returns.ReadIn ts
  name : f.name.ReadIn ts
  params : ∀ b ∈ f.params, b.Anchored ts
  bodySite : f.bodySite.span.StartsIn ts
  body : Stmt.AllAnchored ts f.body

section Anchors

variable {ts : List Token}

theorem Expr.OptionAnchored.none : Expr.OptionAnchored ts none := by
  rintro _ ⟨⟩

theorem Expr.OptionAnchored.some {e : Expr} (h : e.Anchored ts) : Expr.OptionAnchored ts (some e) := by
  rintro _ ⟨⟩
  exact h

theorem Expr.Anchored.span {e : Expr} (h : e.Anchored ts) : e.span.StartsIn ts := by
  cases e with
  | int | float | string => exact h
  | var | index | call | unary | binary => exact h.1

theorem Stmt.Anchored.span {x : Stmt} (h : x.Anchored ts) : x.span.StartsIn ts := by
  cases x with
  | empty => exact h
  | ite _ _ _ e => cases e <;> exact h.1
  | loop | ret | expr | block => exact h.1
  | decl | array => exact h.1.site

namespace Parser

/-! ## Parsers in front of tokens -/

/-- The tokens ahead are some of these. -/
def Among (ts : List Token) (s : Parser) : Prop := ∀ t ∈ s.ahead, t ∈ ts

namespace Among

variable {s : Parser} {k : TokenKind}

theorem peek (hs : s.Among ts) (h : s.peek.kind ≠ .eof) : s.peek ∈ ts :=
  hs _ (by rw [ahead_of_peek h]; exact List.mem_cons_self)

theorem kind (hs : s.Among ts) (h : s.peek.kind = k) (hk : k ≠ .eof := by decide) : s.peek ∈ ts :=
  hs.peek (by rwa [h])

theorem check (hs : s.Among ts) (h : s.check k = true) (hk : k ≠ .eof := by decide) : s.peek ∈ ts :=
  hs.kind (eq_of_beq h) hk

theorem advance (hs : s.Among ts) : s.advance.Among ts := fun t ht => hs t (mem_ahead_of_advance ht)

theorem fresh {span : Span} (hs : s.Among ts) : (s.fresh span).2.Among ts := hs

end Among

/-! ## Expressions -/

mutual

theorem Yields.anchored {l : Level} {s t : Parser} {e : Expr} (h : Yields l s e t) (hs : s.Among ts) :
    e.Anchored ts ∧ t.Among ts := by
  match h with
  | .layer _ hx ho =>
    obtain ⟨hlhs, ht⟩ := hx.anchored hs
    exact ho.anchored hlhs ht
  | .signed hop hx =>
    have hsign := Span.StartsIn.of_mem (hs.peek (UnaryOp.ne_eof_of_ofToken? hop))
    obtain ⟨hoperand, ht⟩ := hx.anchored hs.advance
    exact ⟨⟨hsign.merge hoperand.span, hsign, hoperand⟩, ht⟩
  | .unsigned _ hx => exact hx.anchored hs
  | .int hk _ | .float hk _ | .string hk => exact ⟨.of_mem (hs.kind hk), hs.advance.fresh⟩
  | .paren _ he _ =>
    obtain ⟨hinner, ht⟩ := he.anchored hs.advance
    exact ⟨hinner, ht.advance⟩
  | .var hk _ _ => exact ⟨⟨.of_mem (hs.kind hk), .of_mem (hs.kind hk)⟩, hs.advance.fresh⟩
  | .index hk _ hi hc =>
    have hname := hs.kind hk
    obtain ⟨hsubscript, ht⟩ := hi.anchored hs.advance.advance
    exact ⟨⟨.merge (.of_mem hname) (.of_mem (ht.check hc)), .of_mem hname, hsubscript⟩, ht.advance.fresh⟩
  | .call hk _ ha hc =>
    have hname := hs.kind hk
    obtain ⟨hargs, ht⟩ := ha.anchored hs.advance.advance
    exact ⟨⟨.merge (.of_mem hname) (.of_mem (ht.check hc)), .of_mem hname, hargs⟩, ht.advance.fresh⟩

theorem Continues.anchored {l : Level} {lhs e : Expr} {s t : Parser} (h : Continues l lhs s e t)
    (hlhs : lhs.Anchored ts) (hs : s.Among ts) : e.Anchored ts ∧ t.Among ts := by
  match h with
  | .stop _ => exact ⟨hlhs, hs⟩
  | .right hop _ hx | .once hop _ hx _ =>
    have hmark := Span.StartsIn.of_mem (hs.peek (Level.ne_eof_of_operator? hop))
    obtain ⟨hrhs, ht⟩ := hx.anchored hs.advance
    exact ⟨⟨hlhs.span.merge hrhs.span, hmark, hlhs, hrhs⟩, ht⟩
  | .left hop _ hx ho =>
    have hmark := Span.StartsIn.of_mem (hs.peek (Level.ne_eof_of_operator? hop))
    obtain ⟨hrhs, ht⟩ := hx.anchored hs.advance
    exact ho.anchored ⟨hlhs.span.merge hrhs.span, hmark, hlhs, hrhs⟩ ht

theorem Arguments.anchored {s t : Parser} {es : List Expr} (h : Arguments s es t) (hs : s.Among ts) :
    Expr.AllAnchored ts es ∧ t.Among ts := by
  match h with
  | .none _ => exact ⟨trivial, hs⟩
  | .some _ he => exact he.anchored hs

theorem ArgumentList.anchored {s t : Parser} {es : List Expr} (h : ArgumentList s es t) (hs : s.Among ts) :
    Expr.AllAnchored ts es ∧ t.Among ts := by
  match h with
  | .last he _ =>
    obtain ⟨hfirst, ht⟩ := he.anchored hs
    exact ⟨⟨hfirst, trivial⟩, ht⟩
  | .more he _ hes =>
    obtain ⟨hfirst, ht⟩ := he.anchored hs
    obtain ⟨hrest, hu⟩ := hes.anchored ht.advance
    exact ⟨⟨hfirst, hrest⟩, hu⟩

end

/-! ## Statements -/

theorem YieldsSimple.anchored {s t : Parser} {x : Stmt} (h : YieldsSimple s x t) (hs : s.Among ts) :
    x.Anchored ts ∧ t.Among ts := by
  cases h with
  | empty hsemi => exact ⟨.of_mem (hs.check hsemi), hs.advance.fresh⟩
  | expr _ _ he hsemi =>
    obtain ⟨hexpr, ht⟩ := he.anchored hs
    exact ⟨⟨hexpr.span.merge (.of_mem (ht.check hsemi)), hexpr⟩, ht.advance.fresh⟩
  | decl hd hsemi =>
    obtain ⟨htype, hname⟩ := checks_of_startsDeclaration hd
    have htype := hs.check htype
    have hsemi := hs.advance.advance.check hsemi
    exact ⟨⟨⟨.merge (.of_mem htype) (.of_mem hsemi), .of_mem htype, .of_mem (hs.advance.check hname)⟩, .none⟩,
      hs.advance.advance.advance.fresh⟩
  | init hd _ he hsemi =>
    obtain ⟨htype, hname⟩ := checks_of_startsDeclaration hd
    have htype := hs.check htype
    obtain ⟨hinit, ht⟩ := he.anchored hs.advance.advance.advance
    exact ⟨⟨⟨.merge (.of_mem htype) (.of_mem (ht.check hsemi)), .of_mem htype, .of_mem (hs.advance.check hname)⟩,
      .some hinit⟩, ht.advance.fresh⟩
  | array hd _ ha hi _ ht _ hsemi =>
    obtain ⟨htype, hname⟩ := checks_of_startsDeclaration hd
    have htype := hs.check htype
    subst ha ht
    have hlength := hs.advance.advance.advance
    have hsemi := Among.check (.advance (.fresh hlength.advance)) hsemi
    exact ⟨⟨⟨.merge (.of_mem htype) (.of_mem hsemi), .of_mem htype, .of_mem (hs.advance.check hname)⟩,
      .of_mem (hlength.check hi)⟩, .fresh (.advance (.advance (.fresh hlength.advance)))⟩

/-- The statements around the parts of a loop start where the loop or one of its parts does. -/
theorem anchored_unrolledFor {s : Parser} {init body : Stmt} {c step : Expr} {span : Span} (hspan : span.StartsIn ts)
    (hinit : init.Anchored ts) (hc : c.Anchored ts) (hstep : step.Anchored ts) (hbody : body.Anchored ts) :
    (s.unrolledFor init c step body span).1.Anchored ts :=
  ⟨hspan, hinit, ⟨hspan, hc, hspan, ⟨hbody.span, hbody, trivial⟩, ⟨hstep.span, hstep⟩, trivial⟩, trivial⟩

mutual

theorem YieldsStmt.anchored {s t : Parser} {x : Stmt} (h : YieldsStmt s x t) (hs : s.Among ts) :
    x.Anchored ts ∧ t.Among ts := by
  match h with
  | .simple _ hx => exact hx.anchored hs
  | .ret hk hsemi =>
    exact ⟨⟨.merge (.of_mem (hs.check hk)) (.of_mem (hs.advance.check hsemi)), .none⟩, hs.advance.advance.fresh⟩
  | .retValue hk _ he hsemi =>
    obtain ⟨hvalue, ht⟩ := he.anchored hs.advance
    exact ⟨⟨.merge (.of_mem (hs.check hk)) (.of_mem (ht.check hsemi)), .some hvalue⟩, ht.advance.fresh⟩
  | .ifThen hk _ hc _ hx _ =>
    obtain ⟨hcondition, ht⟩ := hc.anchored hs.advance.advance
    obtain ⟨hthen, hu⟩ := hx.anchored ht.advance
    exact ⟨⟨.merge (.of_mem (hs.check hk)) hthen.span, hcondition, hthen⟩, hu.fresh⟩
  | .ifElse hk _ hc _ hx _ hy =>
    obtain ⟨hcondition, ht⟩ := hc.anchored hs.advance.advance
    obtain ⟨hthen, hu⟩ := hx.anchored ht.advance
    obtain ⟨helse, hv⟩ := hy.anchored hu.advance
    exact ⟨⟨.merge (.of_mem (hs.check hk)) helse.span, hcondition, hthen, helse⟩, hv.fresh⟩
  | .loop hk _ hc _ hx =>
    obtain ⟨hcondition, ht⟩ := hc.anchored hs.advance.advance
    obtain ⟨hbody, hu⟩ := hx.anchored ht.advance
    exact ⟨⟨.merge (.of_mem (hs.check hk)) hbody.span, hcondition, hbody⟩, hu.fresh⟩
  | .forLoop hk _ hi hc _ hn _ hb =>
    obtain ⟨hinit, ht⟩ := hi.anchored hs.advance.advance
    obtain ⟨hcondition, hu⟩ := hc.anchored ht
    obtain ⟨hstep, hv⟩ := hn.anchored hu.advance
    obtain ⟨hbody, hw⟩ := hb.anchored hv.advance
    exact ⟨anchored_unrolledFor (.merge (.of_mem (hs.check hk)) hbody.span) hinit hcondition hstep hbody, hw⟩
  | .block hb =>
    obtain ⟨hspan, hbody, ht⟩ := hb.anchored hs
    exact ⟨⟨hspan, hbody⟩, ht⟩

theorem YieldsBlock.anchored {s t : Parser} {b : Site × List Stmt} (h : YieldsBlock s b t) (hs : s.Among ts) :
    b.1.span.StartsIn ts ∧ Stmt.AllAnchored ts b.2 ∧ t.Among ts := by
  match h with
  | .mk ho hb hc =>
    obtain ⟨hbody, ht⟩ := hb.anchored hs.advance
    exact ⟨.merge (.of_mem (hs.check ho)) (.of_mem (ht.check hc)), hbody, ht.advance.fresh⟩

theorem YieldsStmts.anchored {s t : Parser} {xs : List Stmt} (h : YieldsStmts s xs t) (hs : s.Among ts) :
    Stmt.AllAnchored ts xs ∧ t.Among ts := by
  match h with
  | .nil _ => exact ⟨trivial, hs⟩
  | .cons _ hx hxs =>
    obtain ⟨hfirst, ht⟩ := hx.anchored hs
    obtain ⟨hrest, hu⟩ := hxs.anchored ht
    exact ⟨⟨hfirst, hrest⟩, hu⟩

end

/-! ## Programs -/

theorem YieldsParam.anchored {s t : Parser} {p : Binder} (h : YieldsParam s p t) (hs : s.Among ts) :
    p.Anchored ts ∧ t.Among ts := by
  cases h with
  | mk htype hname =>
    have htype := hs.check htype
    have hname := hs.advance.check hname
    exact ⟨⟨.merge (.of_mem htype) (.of_mem hname), .of_mem htype, .of_mem hname⟩, hs.advance.advance.fresh⟩

theorem YieldsParamList.anchored {s t : Parser} {ps : List Binder} (h : YieldsParamList s ps t) (hs : s.Among ts) :
    (∀ b ∈ ps, b.Anchored ts) ∧ t.Among ts := by
  induction h with
  | last hp _ =>
    obtain ⟨hparam, ht⟩ := hp.anchored hs
    exact ⟨List.forall_mem_singleton.2 hparam, ht⟩
  | more hp _ _ ih =>
    obtain ⟨hparam, ht⟩ := hp.anchored hs
    obtain ⟨hrest, hu⟩ := ih ht.advance
    exact ⟨List.forall_mem_cons.2 ⟨hparam, hrest⟩, hu⟩

theorem YieldsParams.anchored {s t : Parser} {ps : List Binder} (h : YieldsParams s ps t) (hs : s.Among ts) :
    (∀ b ∈ ps, b.Anchored ts) ∧ t.Among ts := by
  cases h with
  | none _ => exact ⟨nofun, hs⟩
  | some _ hps => exact hps.anchored hs

theorem YieldsFunc.anchored {s t : Parser} {f : Func} (h : YieldsFunc s f t) (hs : s.Among ts) :
    f.Anchored ts ∧ t.Among ts := by
  cases h with
  | mk hreturns hname _ hps _ hb =>
    have hreturns := hs.check hreturns
    have hname := hs.advance.check hname
    obtain ⟨hparams, ht⟩ := hps.anchored hs.advance.advance.advance
    obtain ⟨hspan, hbody, hu⟩ := hb.anchored ht.advance
    exact ⟨⟨.merge (.of_mem hreturns) hspan, .of_mem hreturns, .of_mem hname, hparams, hspan, hbody⟩, hu.fresh⟩

theorem YieldsFuncs.anchored {s t : Parser} {fs : List Func} (h : YieldsFuncs s fs t) (hs : s.Among ts) :
    ∀ f ∈ fs, f.Anchored ts := by
  induction h with
  | nil _ => exact nofun
  | cons _ hf _ ih =>
    obtain ⟨hfirst, ht⟩ := hf.anchored hs
    exact List.forall_mem_cons.2 ⟨hfirst, ih ht⟩

end Parser

end Anchors

open MicroC.Parser

/-- **A parsed program is anchored in the tokens of its source**: every node starts where a token does, and every name
is the text of a token, in its place. -/
theorem anchored_of_parseProgram {source : String} {p : Program} (h : parseProgram source = .ok p) :
    ∀ f ∈ p.functions, f.Anchored (scan source).tokens := by
  obtain ⟨-, s, hp, -⟩ := parseSource_eq_ok.1 h
  obtain ⟨u, hfs, -⟩ := yieldsFuncs_of_program hp
  exact hfs.anchored fun _ => id

end MicroC
