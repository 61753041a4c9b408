import Stencil.Proofs.PlainEvaluation
import Stencil.Proofs.Registry

/-!
# The memo of a session

A session answers from its memo where it can. If all primary names differ, and no property was found
to read itself, then what it answers is what plain evaluation says.

* `LookupStep` — all that one step of a lookup can do
* `Sound` — every value in the memo is the plain one
* `rel_lookup` — lookups keep the memo sound, and answer as plain evaluation does
-/

namespace Stencil.Session

variable {r : Registry} {look : Lookup} {h : Handle} {property : String} {s s' : Session}

/-! ## One step of a lookup -/

/-- What a lookup may answer, and the session that it leaves. -/
inductive LookupStep (r : Registry) (look : Lookup) (h : Handle) (property : String) (s : Session) :
    Option (Except EvalError Value) → Session → Prop
  /-- There is no such element. -/
  | absent : r.entry? h = none → LookupStep r look h property s none s
  /-- The answer is in the memo. -/
  | known {entry : Entry} {value : Except EvalError Value} : r.entry? h = some entry →
      s.memo.lookup (entry.primary, property) = some value →
      LookupStep r look h property s (some value) s
  /-- The element does not declare the property. -/
  | undeclared {entry : Entry} : r.entry? h = some entry →
      s.memo.lookup (entry.primary, property) = none →
      entry.element.inlineProperty? property = none → LookupStep r look h property s none s
  /-- The property is under evaluation. -/
  | circular {entry : Entry} {e : Expr} : r.entry? h = some entry →
      s.memo.lookup (entry.primary, property) = none →
      entry.element.inlineProperty? property = some e →
      (entry.primary, property) ∈ s.inProgress →
      LookupStep r look h property s (some (.error (.circularProperty entry.primary property)))
        (recordCycle (entry.primary, property) s)
  /-- The property is evaluated now. -/
  | evaluated {entry : Entry} {e : Expr} {value : Except EvalError Value} {s' : Session} :
      r.entry? h = some entry →
      s.memo.lookup (entry.primary, property) = none →
      entry.element.inlineProperty? property = some e →
      (entry.primary, property) ∉ s.inProgress →
      (e.eval (elementScope r look h)).run.run (enter (entry.primary, property) s)
        = some (value, s') →
      LookupStep r look h property s (some value) (leave (entry.primary, property) value s')

/-- All that a step of a lookup can do, with what it finds in the session and what it leaves there.
-/
theorem lookupStep_cases {answer : Option (Except EvalError Value)}
    (hrun : (lookupStep r look h property).run s = some (answer, s')) :
    LookupStep r look h property s answer s' := by
  unfold lookupStep at hrun
  cases he : r.entry? h with
  | none =>
    rw [he] at hrun
    cases hrun
    exact .absent he
  | some entry =>
    rw [he] at hrun
    simp only [StateT.run_bind, StateT.run_get, pure_bind] at hrun
    cases hm : s.memo.lookup (entry.primary, property) with
    | some value =>
      simp only [hm] at hrun
      cases hrun
      exact .known he hm
    | none =>
      simp only [hm] at hrun
      cases hp : entry.element.inlineProperty? property with
      | none =>
        simp only [hp] at hrun
        cases hrun
        exact .undeclared he hm hp
      | some e =>
        simp only [hp, StateT.run_bind, StateT.run_get, pure_bind] at hrun
        by_cases hc : (entry.primary, property) ∈ s.inProgress
        · rw [if_pos hc] at hrun
          cases hrun
          exact .circular he hm hp hc
        · rw [if_neg hc] at hrun
          obtain ⟨⟨value, s₁⟩, hv, hrun⟩ := Option.bind_eq_some_iff.mp hrun
          cases hrun
          exact .evaluated he hm hp hc hv

/-- Each of these cases is a run of the step. -/
theorem LookupStep.run_eq {answer : Option (Except EvalError Value)}
    (hstep : LookupStep r look h property s answer s') :
    (lookupStep r look h property).run s = some (answer, s') := by
  unfold lookupStep
  cases hstep with
  | absent he =>
    rw [he]
    rfl
  | known he hm =>
    simp only [he, StateT.run_bind, StateT.run_get, pure_bind, hm]
    rfl
  | undeclared he hm hp =>
    simp only [he, StateT.run_bind, StateT.run_get, pure_bind, hm, hp]
    rfl
  | circular he hm hp hc =>
    simp only [he, StateT.run_bind, StateT.run_get, pure_bind, hm, hp, if_pos hc]
    rfl
  | evaluated he hm hp hc hv =>
    simp only [he, StateT.run_bind, StateT.run_get, pure_bind, hm, hp, if_neg hc]
    exact Option.bind_eq_some_iff.mpr ⟨_, rfl, Option.bind_eq_some_iff.mpr ⟨_, hv, rfl⟩⟩

theorem circular_recordCycle (key : PropertyKey) (s : Session) :
    (recordCycle key s).circular ≠ none := by
  cases hs : s.circular <;> simp [recordCycle, hs]

/-! ## What an expression reads -/

section Reads

variable {sim : Simulation Evaluating Option} (hnote : ∀ n, sim.rel (note n) (some ()))
  {plain : Handle → String → Option (Option (Except EvalError Value))}
  (hlook : ∀ h property, sim.rel (look h property) (plain h property))
include hnote hlook

/-- A property read from an element at hand is related to the plain one, if lookups are. -/
theorem rel_readFrom (h : Handle) (selector : Option Selector) (property : String) :
    sim.rel (readFrom r look h selector property)
      ((Plain.scopeOf plain r (some h)).read selector property) := by
  cases selector with
  | none =>
    refine sim.rel_bind (hlook h property) fun a => ?_
    cases a <;> exact sim.rel_pure _
  | some selector =>
    dsimp only [readFrom, Plain.scopeOf, Plain.target?]
    cases r.first selector with
    | none => exact sim.rel_bind (hnote _) fun _ => sim.rel_pure _
    | some target =>
      refine sim.rel_bind (hlook target property) fun a => ?_
      cases a with
      | some value => exact sim.rel_pure _
      | none => exact sim.rel_bind (hnote _) fun _ => sim.rel_pure _

/-- Expressions read their properties through lookups only. -/
theorem rel_eval_elementScope (h : Handle) (e : Expr) :
    sim.rel (e.eval (elementScope r look h)).run (e.eval (Plain.scopeOf plain r (some h))).run :=
  sim.rel_eval hnote e fun selector name _ => rel_readFrom hnote hlook h selector name

end Reads

/-! ## The memo -/

/-- Every value in the memo has a property, for every element that has the name. -/
def Memoized (r : Registry) (P : Handle → String → Except EvalError Value → Prop) (s : Session) :
    Prop :=
  ∀ ⦃h entry property value⦄, r.entry? h = some entry →
    s.memo.lookup (entry.primary, property) = some value → P h property value

theorem Memoized.init {P : Handle → String → Except EvalError Value → Prop} : Memoized r P {} :=
  fun _ _ _ _ _ hm => nomatch hm

/-- A value that has the property may be kept: no other element has the name. -/
theorem Memoized.leave {P : Handle → String → Except EvalError Value → Prop}
    (hs : Memoized r P s) (hd : r.Distinct) {entry : Entry} {value : Except EvalError Value}
    (he : r.entry? h = some entry) (hv : P h property value) :
    Memoized r P (leave (entry.primary, property) value s) := by
  intro h' entry' property' value' he' hm
  by_cases hkey : (entry'.primary, property') = (entry.primary, property)
  · obtain ⟨hname, rfl⟩ := Prod.mk.inj hkey
    obtain rfl : h' = h := hd.handle_eq he' he hname
    rw [hname, Session.leave, List.lookup_cons_self] at hm
    cases hm
    exact hv
  · rw [Session.leave, List.lookup_cons, beq_false_of_ne hkey] at hm
    exact hs he' hm

/-- Every value in the memo is the one that plain evaluation gives the property, for every element
that has the name. -/
def Sound (r : Registry) (s : Session) : Prop :=
  ∀ ⦃h entry property value⦄, r.entry? h = some entry →
    s.memo.lookup (entry.primary, property) = some value →
    ∃ e, entry.element.inlineProperty? property = some e ∧ Plain.eval r (some h) e = some value

theorem sound_iff : Sound r s ↔
    Memoized r (fun h property value => Plain.lookup r h property = some (some value)) s := by
  constructor
  · intro hs h entry property value he hm
    obtain ⟨e, hp, hv⟩ := hs he hm
    rw [Plain.lookup_declared he hp, hv]
    rfl
  · intro hs h entry property value he hm
    have hv : Plain.lookup r h property = some (some value) := hs he hm
    cases hp : entry.element.inlineProperty? property with
    | none =>
      rw [Plain.lookup_undeclared he hp] at hv
      cases hv
    | some e =>
      rw [Plain.lookup_declared he hp] at hv
      obtain ⟨value', hv, hvalue⟩ := Option.map_eq_some_iff.mp hv
      cases hvalue
      exact ⟨e, rfl, hv⟩

theorem Sound.init : Sound r {} := fun _ _ _ _ _ hm => nomatch hm

/-- What is kept in the memo under a primary name belongs to one element, since the names differ. -/
theorem Sound.leave (hs : Sound r s) (hd : r.Distinct) {entry : Entry} {e : Expr}
    {value : Except EvalError Value} (he : r.entry? h = some entry)
    (hp : entry.element.inlineProperty? property = some e)
    (hv : Plain.eval r (some h) e = some value) :
    Sound r (leave (entry.primary, property) value s) := by
  refine sound_iff.mpr ((sound_iff.mp hs).leave hd he ?_)
  rw [Plain.lookup_declared he hp, hv]
  rfl

/-! ## Agreement with plain evaluation -/

/-- A computation agrees with a plain one: if no property was found to read itself, the plain one
has the same result, and the memo stays sound. -/
def agreement (r : Registry) : Simulation Evaluating Option where
  rel {α} x y := ∀ ⦃s : Session⦄ ⦃a : α⦄ ⦃s' : Session⦄, x.run s = some (a, s') →
    s'.circular = none → s.circular = none ∧ (Sound r s → Sound r s' ∧ y = some a)
  rel_pure a s b s' hrun hc := by
    cases hrun
    exact ⟨hc, fun hs => ⟨hs, rfl⟩⟩
  rel_bind {α β x y f g} hx hf s b s' hrun hc := by
    -- A cycle on record stays on record: its absence goes backwards, soundness goes forwards.
    obtain ⟨⟨a, s₁⟩, hx', hf'⟩ := Option.bind_eq_some_iff.mp hrun
    obtain ⟨hc₁, hs₁⟩ := hf a hf' hc
    obtain ⟨hc₀, hs₀⟩ := hx hx' hc₁
    refine ⟨hc₀, fun hs => ?_⟩
    obtain ⟨hs, rfl⟩ := hs₀ hs
    obtain ⟨hs, hg⟩ := hs₁ hs
    exact ⟨hs, hg⟩

theorem rel_note (n : Note) : (agreement r).rel (note n) (some ()) := by
  intro s a s' hrun hc
  cases hrun
  exact ⟨hc, fun hs => ⟨hs, rfl⟩⟩

variable (hlook : ∀ h property, (agreement r).rel (look h property) (Plain.lookup r h property))
include hlook

theorem rel_elementScope (h : Handle) (e : Expr) :
    (agreement r).rel (e.eval (elementScope r look h)).run (Plain.eval r (some h) e) := by
  rw [Plain.eval_eq_run]
  exact rel_eval_elementScope rel_note hlook h e

theorem rel_documentScope (e : Expr) :
    (agreement r).rel (e.eval (documentScope r look)).run (Plain.eval r none e) := by
  rw [Plain.eval_eq_run]
  refine (agreement r).rel_eval rel_note e fun selector name _ => ?_
  rw [Plain.read_eq, documentScope]
  cases selector with
  | none => exact (agreement r).rel_pure _
  | some selector =>
    dsimp only [Option.bind, Plain.target?]
    cases r.first selector with
    | none => exact (agreement r).rel_pure _
    | some target =>
      refine (agreement r).rel_bind (hlook target name) fun a => ?_
      cases a <;> exact (agreement r).rel_pure _

omit hlook

/-- A step of a lookup agrees with plain evaluation, if the lookups that it makes do. -/
theorem rel_lookupStep (hd : r.Distinct)
    (hlook : ∀ h property, (agreement r).rel (look h property) (Plain.lookup r h property))
    (h : Handle) (property : String) :
    (agreement r).rel (lookupStep r look h property) (Plain.lookup r h property) := by
  intro s answer s' hrun hc
  cases lookupStep_cases hrun with
  | absent he => exact ⟨hc, fun hs => ⟨hs, Plain.lookup_absent he⟩⟩
  | known he hm =>
    refine ⟨hc, fun hs => ⟨hs, ?_⟩⟩
    obtain ⟨e, hp, hv⟩ := hs he hm
    rw [Plain.lookup_declared he hp, hv]
    rfl
  | undeclared he hm hp => exact ⟨hc, fun hs => ⟨hs, Plain.lookup_undeclared he hp⟩⟩
  -- The answer differs from plain evaluation, which has no value here; but the cycle is on record.
  | circular he hm hp hin => exact absurd hc (circular_recordCycle _ s)
  | evaluated he hm hp hin hv =>
    obtain ⟨hc, hs'⟩ := rel_elementScope hlook h _ hv hc
    refine ⟨hc, fun hs => ?_⟩
    obtain ⟨hs, hv⟩ := hs' hs
    exact ⟨hs.leave hd he hp hv, by rw [Plain.lookup_declared he hp, hv]; rfl⟩

/-- Whatever the session holds, a lookup that ends gives the plain value. The induction is on the
fuel. -/
theorem rel_lookup (hd : r.Distinct) (fuel : Nat) (h : Handle) (property : String) :
    (agreement r).rel (lookup r fuel h property) (Plain.lookup r h property) := by
  induction fuel generalizing h property with
  | zero => exact fun _ _ _ hrun => nomatch hrun
  | succ fuel ih => exact rel_lookupStep hd ih h property

end Stencil.Session
