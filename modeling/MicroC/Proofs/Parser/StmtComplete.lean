import MicroC.Proofs.Parser.ExprComplete

/-!
# Derived statements and programs are parsed

A statement that ends in an `if` without `else` is read whenever no `else` is behind it.

* `ReadsStmt`: a statement is read from every state with its tokens ahead.
* **`readsStmt_of_statement`**, **`yieldsFuncs_of_routines`**.
-/

namespace MicroC

open Grammar

namespace Grammar

/-- The tokens with which a statement starts. -/
def startsStmt (k : TokenKind) : Bool :=
  k == .semicolon || startsTerm k || Parser.leadsStmt k

theorem ne_of_startsStmt {k k' : TokenKind} (h : startsStmt k = true) (h' : startsStmt k' = false) :
    k ≠ k' := by
  rintro rfl
  exact absurd h (by simp [h'])

theorem Simple.start {ts : List Token} {x : Phrase} (h : Simple ts x) :
    ∃ t us, ts = t :: us ∧ (t.kind == .semicolon || startsTerm t.kind) = true := by
  cases h with
  | empty ht => exact ⟨_, _, rfl, by rw [ht]; rfl⟩
  | expr hx _ =>
    obtain ⟨t, us, rfl, ht, -⟩ := hx.start
    exact ⟨t, _, rfl, by rw [ht, Bool.or_true]⟩
  | decl hk | init hk | array hk => exact ⟨_, _, rfl, by rw [hk]; rfl⟩

theorem Statement.start {b o : Bool} {ts : List Token} {x : Phrase} (h : Statement b o ts x) :
    ∃ t us, ts = t :: us ∧ startsStmt t.kind = true := by
  cases h with
  | simple hx =>
    obtain ⟨t, us, hts, ht⟩ := hx.start
    exact ⟨t, us, hts, by rw [startsStmt, ht, Bool.true_or]⟩
  | ret hk | retValue hk | block hk | ifThen hk | ifElse hk | loop hk | forLoop hk =>
    exact ⟨_, _, rfl, by rw [hk]; rfl⟩

theorem leadsStmt_of_simple {k : TokenKind} (h : (k == .semicolon || startsTerm k) = true) :
    Parser.leadsStmt k = false := by
  cases k <;> first | rfl | exact absurd h (by decide)

end Grammar

namespace Parser

/-! ## Statements without parts that are statements -/

theorem startsDeclaration_of_names {s : Parser} {k n : Token} {ts : List Token}
    (hs : s.ahead = k :: n :: ts) (hk : k.kind = .identifier) (hn : n.kind = .identifier) :
    s.startsDeclaration = true := by
  rw [startsDeclaration_of_ahead hs, hk, lead_cons, hn]
  rfl

/-- A derived simple statement is read. -/
theorem yieldsSimple_of_simple {ts : List Token} {x : Phrase} (h : Simple ts x)
    (hf : ∀ t ∈ ts, t.Fits) {s : Parser} {rest : List Token} (hs : s.ahead = ts ++ rest) :
    ∃ y t, YieldsSimple s y t ∧ t.ahead = rest ∧ y.phrase = x := by
  cases h with
  | empty ht => exact ⟨_, _, .empty (check_of_ahead hs ht), ahead_advance hs (by simp [ht]), rfl⟩
  | @expr us q e hx hq =>
    have hs' : s.ahead = us ++ q :: rest := by rw [hs]; simp
    obtain ⟨y, t, hy, ht, hrest, hex⟩ :=
      (reads_of_derives hx).1.closed (List.forall_mem_append.1 hf).1 hs' hq (by simp)
    obtain ⟨a, vs, hvs, ha, -⟩ := hx.start
    have hs'' : s.ahead = a :: (vs ++ q :: rest) := by rw [hs', hvs]; rfl
    have hdecl : s.startsDeclaration = false := by
      rw [startsDeclaration_of_ahead hs'', Bool.and_eq_false_imp]
      intro hn
      have hlead : lead (q :: rest) ≠ .identifier := by simp [hq]
      exact beq_eq_false_iff_ne.2
        (hx.not_two_names hlead (by rw [hvs]; rfl) (eq_of_beq hn))
    refine ⟨_, _, .expr ?_ hdecl hy ht, hrest, by rw [Stmt.phrase, hex]⟩
    rw [check_eq, hs'']
    exact beq_eq_false_iff_ne.2 (ne_of_startsTerm ha (by decide))
  | @decl k n q hk hn hq =>
    obtain ⟨hp, hp', hadv⟩ := ahead_advance_two hs (by simp [hk]) (by simp [hn])
    refine ⟨_, _, .decl (startsDeclaration_of_names hs hk hn) (check_of_ahead hadv hq),
      ahead_advance hadv (by simp [hq]), ?_⟩
    rw [Stmt.phrase, hp, hp']
  | @init us k n q t e hk hn hq hx ht =>
    have hs' : s.ahead = k :: n :: q :: (us ++ t :: rest) := by rw [hs]; simp
    obtain ⟨hp, hp', hadv⟩ := ahead_advance_two hs' (by simp [hk]) (by simp [hn])
    have hfx : ∀ t ∈ us, t.Fits := fun a ha => hf a (by simp [ha])
    obtain ⟨y, u, hy, hu, hrest, hex⟩ := (reads_of_derives hx).1.closed hfx
      (ahead_advance hadv (by simp [hq])) ht (by simp)
    refine ⟨_, _, .init (startsDeclaration_of_names hs' hk hn) (check_of_ahead hadv hq) hy hu, hrest,
      ?_⟩
    rw [Stmt.phrase, hp, hp', hex]
  | @array k n l i r q hk hn hl hi hr hq =>
    obtain ⟨hp, hp', hadv⟩ := ahead_advance_two hs (by simp [hk]) (by simp [hn])
    have ha := ahead_advance hadv (by simp [hl])
    have ht : (s.advance.advance.advance.advance.fresh s.advance.advance.advance.peek.span).2.ahead =
        r :: q :: rest := ahead_advance ha (by simp [hi])
    have ht' := ahead_advance ht (by simp [hr])
    obtain ⟨v, hv, hval⟩ := (hf i (by simp)).word? hi
    have hpi := peek_of_ahead ha
    refine ⟨_, _, .array (startsDeclaration_of_names hs hk hn) (check_of_ahead hadv hl) rfl
      (check_of_ahead ha hi) (by rw [hpi, hv]) rfl (check_of_ahead ht hr) (check_of_ahead ht' hq),
      ahead_advance ht' (by simp [hq]), ?_⟩
    rw [Stmt.phrase, hp, hp', hval]

/-! ## Statements -/

/-- From every state with these tokens ahead this statement is read, unless an `else` is behind it that
belongs to it. -/
def ReadsStmt (o : Bool) (ts : List Token) (x : Phrase) : Prop :=
  (∀ t ∈ ts, t.Fits) → ∀ (s : Parser) (rest : List Token), s.ahead = ts ++ rest →
    (o = true → lead rest ≠ .elseKw) → ∃ y t, YieldsStmt s y t ∧ t.ahead = rest ∧ y.phrase = x

/-- From every state with these tokens and a closing brace ahead these statements are read. -/
def ReadsStmts (ts : List Token) (xs : List Phrase) : Prop :=
  (∀ t ∈ ts, t.Fits) → ∀ (s : Parser) (rest : List Token), s.ahead = ts ++ rest →
    lead rest = .rightBrace → ∃ ys t, YieldsStmts s ys t ∧ t.ahead = rest ∧ Stmt.phrases ys = xs

theorem reads_condition {ts us : List Token} {c : Term} (hc : Derives .assignment ts c)
    (hf : ∀ t ∈ ts, t.Fits) {s : Parser} {k l r : Token}
    (hs : s.ahead = k :: l :: ts ++ r :: us) (hk : k.kind ≠ .eof) (hl : l.kind = .leftParen)
    (hr : r.kind = .rightParen) :
    s.advance.check .leftParen = true ∧ ∃ e t, Yields .assignment s.advance.advance e t ∧
      t.check .rightParen = true ∧ t.advance.ahead = us ∧ e.term = c := by
  have hadv := ahead_advance hs hk
  exact ⟨check_of_ahead hadv hl,
    (reads_of_derives hc).1.closed hf (ahead_advance hadv (by simp [hl])) hr (.inl rfl)⟩

theorem lead_statements {b : Bool} {ts rest : List Token} {xs : List Phrase}
    (h : Statements b ts xs) (hr : lead rest = .rightBrace) : lead (ts ++ rest) ≠ .elseKw := by
  cases h with
  | nil =>
    rw [List.nil_append, hr]
    decide
  | cons hx hxs =>
    obtain ⟨t, us, rfl, ht⟩ := hx.start
    exact ne_of_startsStmt ht (by decide)

mutual

/-- **A derived statement is read.** -/
theorem readsStmt_of_statement {o : Bool} {ts : List Token} {x : Phrase}
    (h : Statement true o ts x) : ReadsStmt o ts x := by
  match h with
  | .simple hx =>
    intro hf s rest hs _
    obtain ⟨y, t, hy, ht, hyx⟩ := yieldsSimple_of_simple hx hf hs
    obtain ⟨a, us, hts, ha⟩ := hx.start
    refine ⟨y, t, .simple ?_ hy, ht, hyx⟩
    rw [hts] at hs
    rw [peek_of_ahead hs]
    exact leadsStmt_of_simple ha
  | .ret hk hq =>
    intro hf s rest hs _
    have hadv := ahead_advance hs (by simp [hk])
    exact ⟨_, _, .ret (check_of_ahead hs hk) (check_of_ahead hadv hq),
      ahead_advance hadv (by simp [hq]), rfl⟩
  | @Statement.retValue _ us k q _ hk hx hq =>
    intro hf s rest hs _
    have hfx : ∀ t ∈ us, t.Fits := fun a ha => hf a (by simp [ha])
    have hs' : s.ahead = k :: (us ++ q :: rest) := by rw [hs]; simp
    have hadv := ahead_advance hs' (by simp [hk])
    obtain ⟨e, t, he, ht, hrest, hex⟩ := (reads_of_derives hx).1.closed hfx hadv hq (by simp)
    obtain ⟨a, vs, hvs, ha, -⟩ := hx.start
    refine ⟨_, _, .retValue (check_of_ahead hs hk) ?_ he ht, hrest, by rw [Stmt.phrase, hex]⟩
    rw [check_eq, hadv, hvs]
    exact beq_eq_false_iff_ne.2 (ne_of_startsTerm ha (by decide))
  | @Statement.block _ us l r _ hl hxs hr =>
    intro hf s rest hs _
    have hfx : ∀ t ∈ us, t.Fits := fun a ha => hf a (by simp [ha])
    have hs' : s.ahead = l :: (us ++ r :: rest) := by rw [hs]; simp
    obtain ⟨ys, t, hys, ht, hyx⟩ :=
      readsStmts_of_statements hxs hfx _ _ (ahead_advance hs' (by simp [hl])) hr
    refine ⟨_, _, .block (.mk (check_of_ahead hs hl) hys (check_of_ahead ht hr)),
      ahead_advance ht (by simp [hr]), by rw [Stmt.phrase, hyx]⟩
  | @Statement.ifThen _ _ cs us k l r _ _ hk hl hc hr hx =>
    intro hf s rest hs hel
    have hs' : s.ahead = k :: l :: cs ++ r :: (us ++ rest) := by rw [hs]; simp
    obtain ⟨ho, e, t, he, ht, hadv, hex⟩ :=
      reads_condition hc (fun a ha => hf a (by simp [ha])) hs' (by simp [hk]) hl hr
    have hne := hel rfl
    obtain ⟨y, u, hy, hu, hyx⟩ := readsStmt_of_statement hx (fun a ha => hf a (by simp [ha])) _ _
      hadv (fun _ => hne)
    refine ⟨_, _, .ifThen (check_of_ahead hs hk) ho he ht hy ?_, hu, by rw [Stmt.phrase, hex, hyx]⟩
    rw [check_eq, hu]
    exact beq_eq_false_iff_ne.2 hne
  | @Statement.ifElse _ _ _ cs us vs k l r el _ _ _ hk hl hc hr hx hopen he hy =>
    intro hf s rest hs hel
    have hs' : s.ahead = k :: l :: cs ++ r :: (us ++ (el :: (vs ++ rest))) := by rw [hs]; simp
    obtain ⟨ho, c, t, hc', ht, hadv, hex⟩ :=
      reads_condition hc (fun a ha => hf a (by simp [ha])) hs' (by simp [hk]) hl hr
    obtain ⟨y, u, hy', hu, hyx⟩ := readsStmt_of_statement hx (fun a ha => hf a (by simp [ha])) _ _
      hadv (fun ho' => by simp [hopen rfl] at ho')
    obtain ⟨z, v, hz, hv, hzx⟩ := readsStmt_of_statement hy (fun a ha => hf a (by simp [ha])) _ _
      (ahead_advance hu (by simp [he])) hel
    exact ⟨_, _, .ifElse (check_of_ahead hs hk) ho hc' ht hy' (check_of_ahead hu he) hz, hv,
      by rw [Stmt.phrase, hex, hyx, hzx]⟩
  | @Statement.loop _ _ cs us k l r _ _ hk hl hc hr hx =>
    intro hf s rest hs hel
    have hs' : s.ahead = k :: l :: cs ++ r :: (us ++ rest) := by rw [hs]; simp
    obtain ⟨ho, e, t, he, ht, hadv, hex⟩ :=
      reads_condition hc (fun a ha => hf a (by simp [ha])) hs' (by simp [hk]) hl hr
    obtain ⟨y, u, hy, hu, hyx⟩ := readsStmt_of_statement hx (fun a ha => hf a (by simp [ha])) _ _
      hadv hel
    exact ⟨_, _, .loop (check_of_ahead hs hk) ho he ht hy, hu, by rw [Stmt.phrase, hex, hyx]⟩
  | @Statement.forLoop _ _ is cs us vs k l q r _ _ _ _ hk hl hi hc hq hn hr hx =>
    intro hf s rest hs hel
    have hs' : s.ahead = k :: l :: (is ++ (cs ++ q :: (us ++ r :: (vs ++ rest)))) := by
      rw [hs]
      simp
    obtain ⟨hp, hp', hadv⟩ := ahead_advance_two hs' (by simp [hk]) (by simp [hl])
    obtain ⟨i, t, hi', ht, hix⟩ :=
      yieldsSimple_of_simple hi (fun a ha => hf a (by simp [ha])) hadv
    obtain ⟨c, u, hc', hu, hu', hcx⟩ :=
      (reads_of_derives hc).1.closed (fun a ha => hf a (by simp [ha])) ht hq (by simp)
    obtain ⟨n, v, hn', hv, hv', hnx⟩ :=
      (reads_of_derives hn).1.closed (fun a ha => hf a (by simp [ha])) hu' hr (.inl rfl)
    obtain ⟨y, w, hy, hw, hyx⟩ := readsStmt_of_statement hx (fun a ha => hf a (by simp [ha])) _ _
      hv' hel
    refine ⟨_, _, .forLoop (check_of_ahead hs hk) (by rw [check, hp', hl]; rfl) hi' hc' hu hn' hv hy,
      hw, ?_⟩
    rw [← hix, ← hcx, ← hnx, ← hyx]
    rfl

theorem readsStmts_of_statements {ts : List Token} {xs : List Phrase}
    (h : Statements true ts xs) : ReadsStmts ts xs := by
  match h with
  | .nil =>
    intro hf s rest hs hr
    refine ⟨[], s, .nil ?_, hs, rfl⟩
    rw [check_eq, hs, List.nil_append, hr]
    rfl
  | .cons hx hxs =>
    intro hf s rest hs hr
    obtain ⟨hfx, hfxs⟩ := List.forall_mem_append.1 hf
    rw [List.append_assoc] at hs
    obtain ⟨y, t, hy, ht, hyx⟩ := readsStmt_of_statement hx hfx _ _ hs
      (fun _ => lead_statements hxs hr)
    obtain ⟨ys, u, hys, hu, hysx⟩ := readsStmts_of_statements hxs hfxs _ _ ht hr
    obtain ⟨a, us, hts, ha⟩ := hx.start
    refine ⟨y :: ys, u, .cons ?_ hy hys, hu, by rw [Stmt.phrases, hyx, hysx]⟩
    rw [isAtEnd, check_eq, check_eq, hs, hts, Bool.or_eq_false_iff]
    exact ⟨beq_eq_false_iff_ne.2 (ne_of_startsStmt ha (by decide)),
      beq_eq_false_iff_ne.2 (ne_of_startsStmt ha (by decide))⟩

end

/-! ## Programs -/

theorem yieldsParamList_of_params {ts : List Token} {ps : List Grammar.Param} (h : Params ts ps)
    {s : Parser} {rest : List Token} (hs : s.ahead = ts ++ rest) (hr : lead rest = .rightParen) :
    ∃ bs t, YieldsParamList s bs t ∧ t.ahead = rest ∧ bs.map Binder.param = ps := by
  induction h generalizing s with
  | last hk hn =>
    obtain ⟨hp, hp', hadv⟩ := ahead_advance_two hs (by simp [hk]) (by simp [hn])
    have hc : s.advance.advance.check .comma = false := by
      rw [check_eq, hadv, List.append_eq, List.nil_append, hr]
      rfl
    refine ⟨_, _, .last (.mk (check_of_ahead hs hk) ?_) hc, hadv, ?_⟩
    · rw [check, hp', hn]
      rfl
    · simp [Binder.param, hp, hp']
  | more hk hn ht hps ih =>
    obtain ⟨hp, hp', hadv⟩ := ahead_advance_two hs (by simp [hk]) (by simp [hn])
    let u := (s.advance.advance.fresh (s.peek.span.merge s.advance.peek.span)).2
    have hu : u.advance.ahead = _ ++ rest := ahead_advance (s := u) hadv (by simp [ht])
    obtain ⟨bs, t, hbs, htr, hmap⟩ := ih hu
    refine ⟨_, _, .more (.mk (check_of_ahead hs hk) ?_) (check_of_ahead (s := u) hadv ht) hbs, htr, ?_⟩
    · rw [check, hp', hn]
      rfl
    · simp [Binder.param, hp, hp', ← hmap]

theorem yieldsParams_of_params {ts : List Token} {ps : List Grammar.Param}
    (h : ts = [] ∧ ps = [] ∨ Params ts ps) {s : Parser} {rest : List Token}
    (hs : s.ahead = ts ++ rest) (hr : lead rest = .rightParen) :
    ∃ bs t, YieldsParams s bs t ∧ t.ahead = rest ∧ bs.map Binder.param = ps := by
  obtain ⟨rfl, rfl⟩ | h := h
  · refine ⟨[], s, .none ?_, hs, rfl⟩
    rw [check_eq, hs, List.nil_append, hr]
    rfl
  · obtain ⟨bs, t, hbs, ht, hmap⟩ := yieldsParamList_of_params h hs hr
    refine ⟨bs, t, .some ?_ hbs, ht, hmap⟩
    rw [check_eq, hs]
    cases h with
    | last hk | more hk =>
      exact beq_eq_false_iff_ne.2 (fun hn => absurd (hk.symm.trans hn) (by decide))

/-- **Derived functions are read to the end.** -/
theorem yieldsFuncs_of_routines {ts : List Token} {rs : List Routine} (h : Routines true ts rs)
    (hf : ∀ t ∈ ts, t.Fits) {s : Parser} (hs : s.ahead = ts) :
    ∃ fs t, YieldsFuncs s fs t ∧ t.ahead = [] ∧ fs.map Func.routine = rs := by
  induction h generalizing s with
  | nil =>
    refine ⟨[], s, .nil ?_, hs, rfl⟩
    rw [isAtEnd, check_eq, hs]
    rfl
  | @cons ps ts us k n l r b e params body fs hk hn hl hps hr hb hxs he hfs ih =>
    have hs' : s.ahead = k :: n :: l :: (ps ++ r :: b :: (ts ++ e :: us)) := by
      rw [hs]
      simp
    obtain ⟨hp, hp', hadv⟩ := ahead_advance_two hs' (by simp [hk]) (by simp [hn])
    obtain ⟨bs, t, hbs, ht, hmap⟩ :=
      yieldsParams_of_params hps (ahead_advance hadv (by simp [hl])) hr
    have ht' := ahead_advance ht (by simp [hr])
    have hin := ahead_advance ht' (by simp [hb])
    obtain ⟨ys, v, hys, hv, hyx⟩ := readsStmts_of_statements hxs (fun a ha => hf a (by simp [ha]))
      _ _ hin he
    let o := v.advance.fresh (t.advance.peek.span.merge v.peek.span)
    let w := (o.2.fresh (s.peek.span.merge o.1.span)).2
    have hw : w.ahead = us := ahead_advance hv (by simp [he])
    have hblock : YieldsBlock t.advance (o.1, ys) o.2 :=
      .mk (check_of_ahead ht' hb) hys (check_of_ahead hv he)
    obtain ⟨gs, z, hgs, hz, hmap'⟩ := ih (fun a ha => hf a (by simp [ha])) hw
    have hn' : s.advance.check .identifier = true := by rw [check, hp', hn]; rfl
    refine ⟨_, z, .cons ?_ (.mk (check_of_ahead hs' hk) hn' (check_of_ahead hadv hl) hbs
      (check_of_ahead ht hr) hblock) hgs, hz, ?_⟩
    · rw [isAtEnd, check_eq, hs', lead_cons, hk]
      rfl
    · rw [List.map_cons, hmap', Func.routine, hmap, hyx, hp, hp']

end Parser

end MicroC
