import MicroC.Proofs.Parser.Grammar

/-!
# The nearest `if`

The statement rules leave open which `if` an `else` belongs to. Whatever tokens they derive they also
derive with every `else` at the nearest `if`: an `else` that was given to an outer `if` is moved inwards
to the open `if` right before it.

* `Statement.attach`: an `else` behind an open statement belongs inside it.
* **`Statement.nearest`**, **`Routines.nearest`**: derivable, so derivable with the nearest `if`.
-/

namespace MicroC.Grammar

theorem Statement.cast {b o : Bool} {ts us : List Token} {x : Phrase} (h : Statement b o ts x)
    (hts : ts = us) : Statement b o us x := hts ▸ h

/-- An `else` behind a statement that ends in an `if` without one belongs to that `if`. -/
theorem Statement.attach {o o' : Bool} {us vs : List Token} {e : Token} {x y : Phrase}
    (hx : Statement true o us x) (ho : o = true) (he : e.kind = .elseKw)
    (hy : Statement true o' vs y) : ∃ o'' z, Statement true o'' (us ++ e :: vs) z := by
  match hx with
  | .simple _ | .ret _ _ | .retValue _ _ _ | .block _ _ _ => exact absurd ho (by decide)
  | .ifThen (o := i) hk hl hc hr hx =>
    by_cases hi : i = true
    · obtain ⟨o'', z, hz⟩ := hx.attach hi he hy
      exact ⟨_, _, (Statement.ifThen hk hl hc hr hz).cast (by simp)⟩
    · exact ⟨_, _, (Statement.ifElse hk hl hc hr hx (fun _ => by simpa using hi) he hy).cast (by simp)⟩
  | .ifElse hk hl hc hr hx hopen he' hz =>
    obtain ⟨o'', w, hw⟩ := hz.attach ho he hy
    exact ⟨_, _, (Statement.ifElse hk hl hc hr hx hopen he' hw).cast (by simp)⟩
  | .loop hk hl hc hr hx =>
    obtain ⟨o'', z, hz⟩ := hx.attach ho he hy
    exact ⟨_, _, (Statement.loop hk hl hc hr hz).cast (by simp)⟩
  | .forLoop hk hl hi hc hq hn hr hx =>
    obtain ⟨o'', z, hz⟩ := hx.attach ho he hy
    exact ⟨_, _, (Statement.forLoop hk hl hi hc hq hn hr hz).cast (by simp)⟩

mutual

/-- **A derivable statement is derivable with every `else` at the nearest `if`.** -/
theorem Statement.nearest {b o : Bool} {ts : List Token} {x : Phrase} (h : Statement b o ts x) :
    ∃ o' y, Statement true o' ts y := by
  match h with
  | .simple hx => exact ⟨_, _, .simple hx⟩
  | .ret hk hq => exact ⟨_, _, .ret hk hq⟩
  | .retValue hk hx hq => exact ⟨_, _, .retValue hk hx hq⟩
  | .block hl hxs hr =>
    obtain ⟨ys, hys⟩ := hxs.nearest
    exact ⟨_, _, .block hl hys hr⟩
  | .ifThen hk hl hc hr hx =>
    obtain ⟨o', y, hy⟩ := hx.nearest
    exact ⟨_, _, .ifThen hk hl hc hr hy⟩
  | .ifElse hk hl hc hr hx _ he hy =>
    obtain ⟨i, x', hx'⟩ := hx.nearest
    obtain ⟨o', y', hy'⟩ := hy.nearest
    by_cases hi : i = true
    · obtain ⟨o'', z, hz⟩ := hx'.attach hi he hy'
      exact ⟨_, _, (Statement.ifThen hk hl hc hr hz).cast (by simp)⟩
    · exact ⟨o', _, .ifElse hk hl hc hr hx' (fun _ => by simpa using hi) he hy'⟩
  | .loop hk hl hc hr hx =>
    obtain ⟨o', y, hy⟩ := hx.nearest
    exact ⟨_, _, .loop hk hl hc hr hy⟩
  | .forLoop hk hl hi hc hq hn hr hx =>
    obtain ⟨o', y, hy⟩ := hx.nearest
    exact ⟨_, _, .forLoop hk hl hi hc hq hn hr hy⟩

theorem Statements.nearest {b : Bool} {ts : List Token} {xs : List Phrase}
    (h : Statements b ts xs) : ∃ ys, Statements true ts ys := by
  match h with
  | .nil => exact ⟨_, .nil⟩
  | .cons hx hxs =>
    obtain ⟨o', y, hy⟩ := hx.nearest
    obtain ⟨ys, hys⟩ := hxs.nearest
    exact ⟨_, .cons hy hys⟩

end

/-- **Derivable functions are derivable with every `else` at the nearest `if`.** -/
theorem Routines.nearest {b : Bool} {ts : List Token} {fs : List Routine} (h : Routines b ts fs) :
    ∃ gs, Routines true ts gs := by
  induction h with
  | nil => exact ⟨_, .nil⟩
  | cons hk hn hl hps hr hb hxs he _ ih =>
    obtain ⟨ys, hys⟩ := hxs.nearest
    obtain ⟨gs, hgs⟩ := ih
    exact ⟨_, .cons hk hn hl hps hr hb hys he hgs⟩

mutual

/-- A tree with every `else` at the nearest `if` is one of the trees of the plain rules. -/
theorem Statement.plain {o : Bool} {ts : List Token} {x : Phrase} (h : Statement true o ts x) :
    Statement false o ts x := by
  match h with
  | .simple hx => exact .simple hx
  | .ret hk hq => exact .ret hk hq
  | .retValue hk hx hq => exact .retValue hk hx hq
  | .block hl hxs hr => exact .block hl hxs.plain hr
  | .ifThen hk hl hc hr hx => exact .ifThen hk hl hc hr hx.plain
  | .ifElse hk hl hc hr hx _ he hy => exact .ifElse hk hl hc hr hx.plain nofun he hy.plain
  | .loop hk hl hc hr hx => exact .loop hk hl hc hr hx.plain
  | .forLoop hk hl hi hc hq hn hr hx => exact .forLoop hk hl hi hc hq hn hr hx.plain

theorem Statements.plain {ts : List Token} {xs : List Phrase} (h : Statements true ts xs) :
    Statements false ts xs := by
  match h with
  | .nil => exact .nil
  | .cons hx hxs => exact .cons hx.plain hxs.plain

end

theorem Routines.plain {ts : List Token} {fs : List Routine} (h : Routines true ts fs) :
    Routines false ts fs := by
  induction h with
  | nil => exact .nil
  | cons hk hn hl hps hr hb hxs he _ ih => exact .cons hk hn hl hps hr hb hxs.plain he ih

end MicroC.Grammar
