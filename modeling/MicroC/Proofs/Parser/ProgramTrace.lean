import MicroC.Proofs.Parser.StmtTrace

/-!
# Programs as they are parsed

* `YieldsParams`, `YieldsFunc`, `YieldsFuncs`: the relations of the parsing functions.
* **`functions_eq_ok`**: functions are parsed exactly when `YieldsFuncs` says so.
-/

namespace MicroC.Parser

/-- From `s` one parameter is read. -/
inductive YieldsParam : Parser → Binder → Parser → Prop
  | mk {s : Parser} (ht : s.check .identifier = true) (hn : s.advance.check .identifier = true) :
      YieldsParam s
        ⟨(s.advance.advance.fresh (s.peek.span.merge s.advance.peek.span)).1,
          ⟨s.peek.lexeme, s.peek.span⟩, ⟨s.advance.peek.lexeme, s.advance.peek.span⟩⟩
        (s.advance.advance.fresh (s.peek.span.merge s.advance.peek.span)).2

/-- One or more parameters with commas between them. -/
inductive YieldsParamList : Parser → List Binder → Parser → Prop
  | last {s t : Parser} {p : Binder} (hp : YieldsParam s p t) (h : t.check .comma = false) :
      YieldsParamList s [p] t
  | more {s t u : Parser} {p : Binder} {ps : List Binder} (hp : YieldsParam s p t)
      (h : t.check .comma = true) (hps : YieldsParamList t.advance ps u) :
      YieldsParamList s (p :: ps) u

/-- The parameters of a function, up to the closing parenthesis. -/
inductive YieldsParams : Parser → List Binder → Parser → Prop
  | none {s : Parser} (h : s.check .rightParen = true) : YieldsParams s [] s
  | some {s t : Parser} {ps : List Binder} (h : s.check .rightParen = false)
      (hps : YieldsParamList s ps t) : YieldsParams s ps t

/-- From `s` a function is read. -/
inductive YieldsFunc : Parser → Func → Parser → Prop
  | mk {s t u : Parser} {ps : List Binder} {b : Site × List Stmt}
      (hr : s.check .identifier = true) (hn : s.advance.check .identifier = true)
      (ho : s.advance.advance.check .leftParen = true)
      (hps : YieldsParams s.advance.advance.advance ps t) (hc : t.check .rightParen = true)
      (hb : YieldsBlock t.advance b u) :
      YieldsFunc s
        ⟨(u.fresh (s.peek.span.merge b.1.span)).1, ⟨s.peek.lexeme, s.peek.span⟩,
          ⟨s.advance.peek.lexeme, s.advance.peek.span⟩, ps, b.1, b.2⟩
        (u.fresh (s.peek.span.merge b.1.span)).2

/-- Functions up to the end of the tokens. -/
inductive YieldsFuncs : Parser → List Func → Parser → Prop
  | nil {s : Parser} (h : s.isAtEnd = true) : YieldsFuncs s [] s
  | cons {s t u : Parser} {f : Func} {fs : List Func} (h : s.isAtEnd = false)
      (hf : YieldsFunc s f t) (hfs : YieldsFuncs t fs u) : YieldsFuncs s (f :: fs) u

theorem param_eq_ok {s t : Parser} {p : Binder} :
    (param s).1 = (.ok p, t) ↔ YieldsParam s p t := by
  simp only [param, Progress.andThen_eq_ok, Reading.andThen_eq_ok, Progress.reading_val,
    Progress.ident_eq_ok]
  constructor
  · rintro ⟨_, _, _, ⟨ht, rfl, rfl⟩, _, _, _, ⟨hn, rfl, rfl⟩, h⟩
    cases h
    exact .mk ht hn
  · rintro ⟨ht, hn⟩
    exact ⟨_, _, size_advance_lt_of_check ht (by decide), ⟨ht, rfl, rfl⟩, _, _, size_advance_le _,
      ⟨hn, rfl, rfl⟩, rfl⟩

theorem yieldsParamList_of_paramList {s t : Parser} {ps : List Binder}
    (h : (paramList s).1 = (.ok ps, t)) : YieldsParamList s ps t := by
  rw [paramList] at h
  obtain ⟨p, u, hu, hp, h⟩ := Progress.andThen_eq_ok.1 h
  have := u.size_advance_le
  split at h
  · next hc =>
    rw [Reading.since_val] at h
    obtain ⟨ps', v, hv, hps, h⟩ := Reading.andThen_eq_ok.1 h
    cases h
    exact .more (param_eq_ok.1 hp) hc (yieldsParamList_of_paramList hps)
  · next hc =>
    cases h
    exact .last (param_eq_ok.1 hp) (by simpa using hc)
termination_by s.size
decreasing_by omega

theorem paramList_of_yieldsParamList {s t : Parser} {ps : List Binder}
    (h : YieldsParamList s ps t) : (paramList s).1 = (.ok ps, t) := by
  induction h with
  | last hp hc =>
    have hp' := param_eq_ok.2 hp
    rw [paramList]
    refine Progress.andThen_eq_ok.2 ⟨_, _, Progress.size_lt_of_ok hp', hp', ?_⟩
    simp [hc]
  | more hp hc hps ih =>
    have hp' := param_eq_ok.2 hp
    rw [paramList]
    refine Progress.andThen_eq_ok.2 ⟨_, _, Progress.size_lt_of_ok hp', hp', ?_⟩
    rw [if_pos hc, Reading.since_val]
    exact Reading.andThen_eq_ok.2 ⟨_, _, Nat.le_of_lt (Progress.size_lt_of_ok ih), ih, rfl⟩

theorem params_eq_ok {s t : Parser} {ps : List Binder} :
    (params s).1 = (.ok ps, t) ↔ YieldsParams s ps t := by
  rw [params]
  constructor
  · intro h
    split at h
    · next hc =>
      cases h
      exact .none hc
    · next hc => exact .some (by simpa using hc) (yieldsParamList_of_paramList h)
  · intro h
    cases h with
    | none hc => rw [if_pos hc]; rfl
    | some hc hps =>
      rw [if_neg (by simp [hc])]
      exact paramList_of_yieldsParamList hps

theorem function_eq_ok {s t : Parser} {f : Func} :
    (function s).1 = (.ok f, t) ↔ YieldsFunc s f t := by
  constructor
  · intro h
    rw [function] at h
    obtain ⟨_, u, hu, hr, h⟩ := Progress.andThen_eq_ok.1 h
    obtain ⟨hr', rfl, rfl⟩ := Progress.ident_eq_ok.1 hr
    obtain ⟨_, v, hv, hn, h⟩ := Reading.andThen_eq_ok.1 h
    obtain ⟨hn', rfl, rfl⟩ := Progress.ident_eq_ok.1 hn
    obtain ⟨_, w, hw, ho, h⟩ := Reading.andThen_eq_ok.1 h
    obtain ⟨ho', -, rfl⟩ := Reading.expect_eq_ok.1 ho
    obtain ⟨ps, x, hx, hps, h⟩ := Reading.andThen_eq_ok.1 h
    obtain ⟨_, y, hy, hc, h⟩ := Reading.andThen_eq_ok.1 h
    obtain ⟨hc', -, rfl⟩ := Reading.expect_eq_ok.1 hc
    obtain ⟨b, z, hz, hb, h⟩ := Reading.andThen_eq_ok.1 h
    cases h
    exact .mk hr' hn' ho' (params_eq_ok.1 hps) hc' (yieldsBlock_of_block hb)
  · rintro ⟨hr, hn, ho, hps, hc, hb⟩
    have hps' := params_eq_ok.2 hps
    have hb' := block_of_yieldsBlock hb
    rw [function]
    refine Progress.andThen_eq_ok.2 ⟨_, _, size_advance_lt_of_check hr (by decide),
      Progress.ident_eq_ok.2 ⟨hr, rfl, rfl⟩, ?_⟩
    refine Reading.andThen_eq_ok.2
      ⟨_, _, size_advance_le _, Progress.ident_eq_ok.2 ⟨hn, rfl, rfl⟩, ?_⟩
    refine Reading.andThen_eq_ok.2
      ⟨_, _, size_advance_le _, Reading.expect_eq_ok.2 ⟨ho, rfl, rfl⟩, ?_⟩
    refine Reading.andThen_eq_ok.2 ⟨_, _, Reading.size_le_of_ok hps', hps', ?_⟩
    refine Reading.andThen_eq_ok.2
      ⟨_, _, size_advance_le _, Reading.expect_eq_ok.2 ⟨hc, rfl, rfl⟩, ?_⟩
    exact Reading.andThen_eq_ok.2 ⟨_, _, Nat.le_of_lt (Progress.size_lt_of_ok hb'), hb', rfl⟩

theorem yieldsFuncs_of_functions {s t : Parser} {fs : List Func}
    (h : (functions s).1 = (.ok fs, t)) : YieldsFuncs s fs t := by
  rw [functions] at h
  split at h
  · next hc =>
    cases h
    exact .nil hc
  · next hc =>
    obtain ⟨f, u, hu, hf, h⟩ := Progress.andThen_eq_ok.1 h
    obtain ⟨fs', v, hv, hfs, h⟩ := Reading.andThen_eq_ok.1 h
    cases h
    exact .cons (by simpa using hc) (function_eq_ok.1 hf) (yieldsFuncs_of_functions hfs)
termination_by s.size
decreasing_by omega

/-- **Functions are parsed exactly when the relation says so.** -/
theorem functions_eq_ok {s t : Parser} {fs : List Func} :
    (functions s).1 = (.ok fs, t) ↔ YieldsFuncs s fs t := by
  refine ⟨yieldsFuncs_of_functions, fun h => ?_⟩
  induction h with
  | nil h =>
    rw [functions, if_pos h]
    rfl
  | cons h hf hfs ih =>
    have hf' := function_eq_ok.2 hf
    rw [functions, if_neg (by simp [h])]
    refine Progress.andThen_eq_ok.2 ⟨_, _, Progress.size_lt_of_ok hf', hf', ?_⟩
    exact Reading.andThen_eq_ok.2 ⟨_, _, Reading.size_le_of_ok ih, ih, rfl⟩

end MicroC.Parser
