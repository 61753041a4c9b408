import Stencil.Proofs.PlainEvaluation

/-!
# The depth of plain evaluation

A property that has a plain value reads other properties that have one, and these read others, but
not without end. `Plain.within` is plain evaluation to a given depth.

* `Plain.within_mono` — a value that is found at some depth is found at every greater one
* `Plain.lookup_eq_some_iff_within` — a property has a plain value iff it has one at some depth
-/

namespace Stencil.Plain

variable {r : Registry} {here : Option Handle} {h : Handle} {name : String} {n m : Nat}

/-- The value of a property, if no more than `n` properties read each other on the way. -/
def within (r : Registry) : Nat → Handle → String → Option (Option (Except EvalError Value))
  | 0, _, _ => none
  | n + 1, h, name =>
    match bound? r h name with
    | some e => (e.eval (scopeOf (within r n) r (some h))).run.map some
    | none => some none

/-- The value of an expression, with properties read to a depth of `n`. -/
def evalWithin (r : Registry) (n : Nat) (here : Option Handle) (e : Expr) :
    Option (Except EvalError Value) :=
  (e.eval (scopeOf (within r n) r here)).run

theorem within_declared {e : Expr} (hb : bound? r h name = some e) :
    within r (n + 1) h name = (evalWithin r n (some h) e).map some := by
  rw [within, hb, evalWithin]

theorem within_undeclared (hb : bound? r h name = none) : within r (n + 1) h name = some none := by
  rw [within, hb]

/-! ## More depth -/

/-- What the one computation results in, the other does too. -/
def extension : Simulation Option Option where
  rel {α} x y := ∀ a : α, x = some a → y = some a
  rel_pure _ _ ha := ha
  rel_bind {α β x y f g} hx hf b hb := by
    obtain ⟨a, ha, hb⟩ := Option.bind_eq_some_iff.mp hb
    exact Option.bind_eq_some_iff.mpr ⟨a, hx a ha, hf a b hb⟩

/-- Lookups with more results give expressions more results. -/
theorem extension_eval {look look' : Handle → String → Option (Option (Except EvalError Value))}
    (hlook : ∀ h name, extension.rel (look h name) (look' h name)) (e : Expr) :
    extension.rel (e.eval (scopeOf look r here)).run (e.eval (scopeOf look' r here)).run := by
  refine extension.rel_eval (fun _ => extension.rel_pure _) e fun selector name _ => ?_
  dsimp only [scopeOf]
  cases target? r here selector with
  | none => exact extension.rel_pure _
  | some h => exact extension.rel_bind (hlook h name) fun a => fun _ ha => ha

theorem within_succ (n : Nat) (h : Handle) (name : String) :
    extension.rel (within r n h name) (within r (n + 1) h name) := by
  induction n generalizing h name with
  | zero => exact fun _ hv => nomatch hv
  | succ n ih =>
    cases hb : bound? r h name with
    | none =>
      rw [within_undeclared hb, within_undeclared hb]
      exact fun _ hv => hv
    | some e =>
      rw [within_declared hb, within_declared hb]
      intro v hv
      obtain ⟨value, hvalue, rfl⟩ := Option.map_eq_some_iff.mp hv
      exact Option.map_eq_some_iff.mpr ⟨value, extension_eval ih e value hvalue, rfl⟩

theorem within_mono (hnm : n ≤ m) (h : Handle) (name : String) :
    extension.rel (within r n h name) (within r m h name) := by
  induction hnm with
  | refl => exact fun _ hv => hv
  | step _ ih => exact fun v hv => within_succ _ h name v (ih v hv)

theorem evalWithin_mono (hnm : n ≤ m) (e : Expr) :
    extension.rel (evalWithin r n here e) (evalWithin r m here e) :=
  extension_eval (within_mono hnm) e

/-! ## Any depth -/

/-- What is found at some depth is the plain value. -/
theorem lookup_of_within (n : Nat) (h : Handle) (name : String) :
    extension.rel (within r n h name) (lookup r h name) := by
  induction n generalizing h name with
  | zero => exact fun _ hv => nomatch hv
  | succ n ih =>
    cases hb : bound? r h name with
    | none =>
      rw [within_undeclared hb, lookup, hb]
      exact fun _ hv => hv
    | some e =>
      rw [within_declared hb, lookup, hb]
      intro v hv
      obtain ⟨value, hvalue, rfl⟩ := Option.map_eq_some_iff.mp hv
      refine Option.map_eq_some_iff.mpr ⟨value, ?_, rfl⟩
      rw [eval_eq_run]
      exact extension_eval ih e value hvalue

/-- If all that a function results in is found at some depth, then one depth is enough for the
expressions of a list. -/
theorem exists_depth {self : Expr → Option (Except EvalError Value)}
    (hself : ∀ e value, self e = some value → ∃ n, evalWithin r n here e = some value)
    (es : List Expr) : ∃ n, ∀ e ∈ es, extension.rel (self e) (evalWithin r n here e) := by
  induction es with
  | nil => exact ⟨0, fun _ he => nomatch he⟩
  | cons e rest ih =>
    obtain ⟨m, hm⟩ := ih
    have hn : ∃ n, extension.rel (self e) (evalWithin r n here e) := by
      cases hv : self e with
      | none => exact ⟨0, fun _ h => nomatch h⟩
      | some value =>
        obtain ⟨n, hn⟩ := hself e value hv
        exact ⟨n, fun _ h => h ▸ hn⟩
    obtain ⟨n, hn⟩ := hn
    refine ⟨max n m, fun e' he' v hv => ?_⟩
    rcases List.mem_cons.mp he' with rfl | he'
    · exact evalWithin_mono (Nat.le_max_left n m) e' v (hn v hv)
    · exact evalWithin_mono (Nat.le_max_right n m) e' v (hm e' he' v hv)

/-- A plain value is found at some depth. -/
theorem exists_evalWithin {e : Expr} {value : Except EvalError Value}
    (heval : eval r here e = some value) : ∃ n, evalWithin r n here e = some value := by
  -- By induction on the evaluation: what it evaluates on the way is found at some depth each, and
  -- the greatest of these depths is enough; a property that is read takes one more.
  refine Plain.eval.partial_correctness r
    (fun here e value => ∃ n, evalWithin r n here e = some value) ?_ here e value heval
  intro self ih here e value hself
  cases e with
  | literal text => exact ⟨0, hself⟩
  | dimension value unit => exact ⟨0, hself⟩
  | property selector name =>
    dsimp only at hself
    simp only [evalWithin, run_property, scopeOf]
    cases ht : target? r here selector with
    | none =>
      rw [ht] at hself
      exact ⟨0, hself⟩
    | some h =>
      rw [ht] at hself
      cases hb : bound? r h name with
      | none =>
        simp only [hb] at hself
        refine ⟨1, ?_⟩
        simp only [within_undeclared hb]
        exact hself
      | some e =>
        simp only [hb] at hself
        obtain ⟨n, hn⟩ := ih (some h) e value hself
        refine ⟨n + 1, ?_⟩
        simp only [within_declared hb, hn]
        cases value <;> rfl
  | var group name => exact ⟨0, hself⟩
  | binary op left right =>
    obtain ⟨n, hn⟩ := exists_depth (ih here) [left, right]
    have hl := hn left (by simp)
    have hr := hn right (by simp)
    refine ⟨n, ?_⟩
    cases op with
    | and =>
      rw [evalWithin, run_and]
      refine extension.rel_bind hl (fun a => ?_) value hself
      rcases a.bind (Expr.expectBoolean (.operator .and)) with _ | _ | _
      · exact extension.rel_pure _
      · exact extension.rel_pure _
      · exact extension.rel_bind hr fun b => extension.rel_pure _
    | or =>
      rw [evalWithin, run_or]
      refine extension.rel_bind hl (fun a => ?_) value hself
      rcases a.bind (Expr.expectBoolean (.operator .or)) with _ | _ | _
      · exact extension.rel_pure _
      · exact extension.rel_bind hr fun b => extension.rel_pure _
      · exact extension.rel_pure _
    | eq =>
      rw [evalWithin, run_eq]
      refine extension.rel_bind hl (fun a => ?_) value hself
      cases a with
      | error e => exact extension.rel_pure _
      | ok a => exact extension.rel_bind hr fun b => extension.rel_pure _
    | ne =>
      rw [evalWithin, run_ne]
      refine extension.rel_bind hl (fun a => ?_) value hself
      cases a with
      | error e => exact extension.rel_pure _
      | ok a => exact extension.rel_bind hr fun b => extension.rel_pure _
    | _ =>
      rw [evalWithin, run_onDimensions _ _ _ (fun _ => rfl) (by decide)]
      refine extension.rel_bind hl (fun a => ?_) value hself
      cases a.bind (Expr.expectDimension _) with
      | error e => exact extension.rel_pure _
      | ok a => exact extension.rel_bind hr fun b => extension.rel_pure _
  | conditional cond yes no =>
    obtain ⟨n, hn⟩ := exists_depth (ih here) [cond, yes, no]
    refine ⟨n, ?_⟩
    rw [evalWithin, run_conditional]
    refine extension.rel_bind (hn cond (by simp)) (fun a => ?_) value hself
    rcases a.bind (Expr.expectBoolean .condition) with _ | _ | _
    · exact extension.rel_pure _
    · exact hn no (by simp)
    · exact hn yes (by simp)

/-- A property has a plain value iff it has one at some depth. -/
theorem lookup_eq_some_iff_within {value : Option (Except EvalError Value)} :
    lookup r h name = some value ↔ ∃ n, within r n h name = some value := by
  refine ⟨fun hv => ?_, fun ⟨n, hn⟩ => lookup_of_within n h name value hn⟩
  cases hb : bound? r h name with
  | none =>
    rw [lookup, hb] at hv
    exact ⟨1, (within_undeclared hb).trans hv⟩
  | some e =>
    rw [lookup, hb] at hv
    obtain ⟨v, heval, rfl⟩ := Option.map_eq_some_iff.mp hv
    obtain ⟨n, hn⟩ := exists_evalWithin heval
    refine ⟨n + 1, ?_⟩
    rw [within_declared hb, hn]
    rfl

end Stencil.Plain
