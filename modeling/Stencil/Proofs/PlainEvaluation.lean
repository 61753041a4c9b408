import Stencil.Proofs.Simulation
import Stencil.Session

/-!
# Plain evaluation

The value of an expression, said without a memo, without an order and without a record of what is
under evaluation: a property is read by evaluating the expression that is declared for it last, in
the scope of the element that declares it. Properties that read each other have no value in this
way, so the evaluator is a partial function.

* `Plain.eval` — the evaluator, one equation for each form of an expression
* `Plain.eval_eq_run` — it is `Expr.eval` in a scope that reads properties by plain evaluation
-/

namespace Stencil.Plain

open Stencil.Expr

/-! ## What a reference reads -/

/-- The element that a reference reads: the one that the selector addresses, or the one at hand.
Rules outside of all elements have none at hand. -/
def target? (r : Registry) (here : Option Handle) : Option Selector → Option Handle
  | none => here
  | some s => r.first s

/-- The expression of a property of an element. -/
def bound? (r : Registry) (h : Handle) (name : String) : Option Expr :=
  (r.element? h).bind (·.inlineProperty? name)

/-- What a reference stands for that reads nothing: a bare name is text, a selector is a failure. -/
def unread : Option Selector → String → Except EvalError Value
  | none, name => .ok (.string name)
  | some s, name => .error (.unresolvedReference s.text name)

/-! ## The evaluator -/

/-- The value of an expression, or its failure. There is neither if properties read each other. An
expression means a function of the element at hand, and so do its parts. -/
def eval (r : Registry) (here : Option Handle) (e : Expr) : Option (Except EvalError Value) := do
  match e with
  | .literal text => return .ok (.string text)
  | .dimension value unit => return .ok (.dimension value (normalUnit unit))
  | .property selector name =>
    match target? r here selector with
    | none => return unread selector name
    | some h =>
      match bound? r h name with
      | some e => (eval r (e := e)) (some h)
      | none => return unread selector name
  | .var group name => return .error (.unresolvedVariable group name)
  | .binary .and left right =>
    match (← (eval r (e := left)) here).bind (expectBoolean (.operator .and)) with
    | .ok true =>
      return ((← (eval r (e := right)) here).bind (expectBoolean (.operator .and))).map .boolean
    | .ok false => return .ok (.boolean false)
    | .error e => return .error e
  | .binary .or left right =>
    match (← (eval r (e := left)) here).bind (expectBoolean (.operator .or)) with
    | .ok true => return .ok (.boolean true)
    | .ok false =>
      return ((← (eval r (e := right)) here).bind (expectBoolean (.operator .or))).map .boolean
    | .error e => return .error e
  | .binary .eq left right =>
    match ← (eval r (e := left)) here with
    | .ok a => return (← (eval r (e := right)) here).map fun b => .boolean (a.same b)
    | .error e => return .error e
  | .binary .ne left right =>
    match ← (eval r (e := left)) here with
    | .ok a => return (← (eval r (e := right)) here).map fun b => .boolean (!a.same b)
    | .error e => return .error e
  | .binary op left right =>
    match (← (eval r (e := left)) here).bind (expectDimension op) with
    | .ok a =>
      let b := (← (eval r (e := right)) here).bind (expectDimension op)
      return b.bind fun b => (onDimensions op a b).map Computed.value
    | .error e => return .error e
  | .conditional cond yes no =>
    match (← (eval r (e := cond)) here).bind (expectBoolean .condition) with
    | .ok true => (eval r (e := yes)) here
    | .ok false => (eval r (e := no)) here
    | .error e => return .error e
partial_fixpoint

/-- The value of a property of an element, or `none` if the element does not declare it. -/
def lookup (r : Registry) (h : Handle) (name : String) : Option (Option (Except EvalError Value)) :=
  match bound? r h name with
  | some e => (eval r (some h) e).map some
  | none => some none

/-! ## The evaluator as a scope -/

/-- The scope in which properties are read by a given lookup. Notes are left out. -/
def scopeOf (look : Handle → String → Option (Option (Except EvalError Value))) (r : Registry)
    (here : Option Handle) : Scope Option where
  read selector name :=
    match target? r here selector with
    | none => some (.ok none)
    | some h => (look h name).bind fun
      | some value => some (value.map some)
      | none => some (.ok none)
  note _ := some ()

/-- The scope in which properties are read by plain evaluation. Notes are left out. -/
def scope (r : Registry) (here : Option Handle) : Scope Option where
  read selector name :=
    match target? r here selector with
    | none => some (.ok none)
    | some h => (lookup r h name).bind fun
      | some value => some (value.map some)
      | none => some (.ok none)
  note _ := some ()

/-- An operand that is evaluated, checked and used. -/
theorem run_checked {α β γ : Type} (x : ExceptT EvalError Option α) (check : α → Except EvalError β)
    (f : β → ExceptT EvalError Option γ) :
    (x >>= fun a => liftM (check a) >>= f).run = x.run.bind fun a =>
      match a.bind check with
      | .ok b => (f b).run
      | .error e => some (.error e) := by
  refine Option.bind_congr fun a _ => ?_
  cases a with
  | error e => rfl
  | ok a =>
    show (liftM (check a) >>= f).run = match check a with
      | .ok b => (f b).run
      | .error e => some (.error e)
    cases check a <;> rfl

variable {r : Registry} {here : Option Handle}

/-! ## Lookups -/

variable {h : Handle} {entry : Entry} {name : String}

theorem lookup_absent (he : r.entry? h = none) : lookup r h name = some none := by
  simp [lookup, bound?, Registry.element?, he]

theorem lookup_undeclared (he : r.entry? h = some entry)
    (hp : entry.element.inlineProperty? name = none) : lookup r h name = some none := by
  simp [lookup, bound?, Registry.element?, he, hp]

/-- A property of an element is its expression, evaluated where the element stands. -/
theorem lookup_declared {e : Expr} (he : r.entry? h = some entry)
    (hp : entry.element.inlineProperty? name = some e) :
    lookup r h name = (eval r (some h) e).map some := by
  simp [lookup, bound?, Registry.element?, he, hp]

/-! ## Forms of expressions in a plain scope -/

section Forms

variable (t : Scope Option) (left right : Expr)

/-- A property that is not declared is text if it is a bare name, and a failure if it is selected.
-/
theorem run_property (selector : Option Selector) (name : String) :
    ((property selector name).eval t).run = (t.read selector name).bind fun
      | .ok (some v) => some (.ok v)
      | .ok none => some (unread selector name)
      | .error e => some (.error e) := by
  cases selector <;> refine Option.bind_congr fun a _ => ?_ <;> rcases a with _ | _ | _ <;> rfl

/-- The right operand is not evaluated if the left one is false. -/
theorem run_and : ((binary .and left right).eval t).run = do
    match (← (left.eval t).run).bind (expectBoolean (.operator .and)) with
    | .ok true =>
      return ((← (right.eval t).run).bind (expectBoolean (.operator .and))).map .boolean
    | .ok false => return .ok (.boolean false)
    | .error e => return .error e := by
  rw [Expr.eval, run_checked]
  refine Option.bind_congr fun a _ => ?_
  rcases a.bind (expectBoolean (.operator .and)) with _ | _ | _
  · rfl
  · rfl
  · simp only [if_true, run_checked]
    refine Option.bind_congr fun b _ => ?_
    cases b.bind (expectBoolean (.operator .and)) <;> rfl

/-- The right operand is not evaluated if the left one is true. -/
theorem run_or : ((binary .or left right).eval t).run = do
    match (← (left.eval t).run).bind (expectBoolean (.operator .or)) with
    | .ok true => return .ok (.boolean true)
    | .ok false =>
      return ((← (right.eval t).run).bind (expectBoolean (.operator .or))).map .boolean
    | .error e => return .error e := by
  rw [Expr.eval, run_checked]
  refine Option.bind_congr fun a _ => ?_
  rcases a.bind (expectBoolean (.operator .or)) with _ | _ | _
  · rfl
  · simp only [Bool.false_eq_true, if_false, run_checked]
    refine Option.bind_congr fun b _ => ?_
    cases b.bind (expectBoolean (.operator .or)) <;> rfl
  · rfl

theorem run_eq : ((binary .eq left right).eval t).run = do
    match ← (left.eval t).run with
    | .ok a => return (← (right.eval t).run).map fun b => .boolean (a.same b)
    | .error e => return .error e := by
  refine Option.bind_congr fun a _ => ?_
  cases a with
  | error e => rfl
  | ok a => refine Option.bind_congr fun b _ => ?_; cases b <;> rfl

theorem run_ne : ((binary .ne left right).eval t).run = do
    match ← (left.eval t).run with
    | .ok a => return (← (right.eval t).run).map fun b => .boolean (!a.same b)
    | .error e => return .error e := by
  refine Option.bind_congr fun a _ => ?_
  cases a with
  | error e => rfl
  | ok a => refine Option.bind_congr fun b _ => ?_; cases b <;> rfl

/-- The other operators work on dimensions. -/
theorem run_onDimensions (hnote : ∀ k, t.note k = some ()) {op : BinaryOp}
    (hop : op ≠ .and ∧ op ≠ .or ∧ op ≠ .eq ∧ op ≠ .ne) :
    ((binary op left right).eval t).run = do
    match (← (left.eval t).run).bind (expectDimension op) with
    | .ok a =>
      let b := (← (right.eval t).run).bind (expectDimension op)
      return b.bind fun b => (onDimensions op a b).map Computed.value
    | .error e => return .error e := by
  obtain ⟨hand, hor, heq, hne⟩ := hop
  rw [Expr.eval.eq_def]
  simp only [run_checked]
  refine Option.bind_congr fun a _ => ?_
  cases a.bind (expectDimension op) with
  | error e => rfl
  | ok a =>
    refine Option.bind_congr fun b _ => ?_
    cases b.bind (expectDimension op) with
    | error e => rfl
    | ok b =>
      dsimp only [Except.bind]
      cases onDimensions op a b with
      | error e => rfl
      | ok computed =>
        rcases computed with ⟨value, _ | note⟩
        · rfl
        · show (ExceptT.lift (t.note note) >>= fun _ => pure value).run = _
          rw [hnote]
          rfl

/-- One of the two branches is evaluated. -/
theorem run_conditional (cond yes no : Expr) : ((conditional cond yes no).eval t).run = do
    match (← (cond.eval t).run).bind (expectBoolean .condition) with
    | .ok true => (yes.eval t).run
    | .ok false => (no.eval t).run
    | .error e => return .error e := by
  rw [Expr.eval, run_checked]
  refine Option.bind_congr fun a _ => ?_
  rcases a.bind (expectBoolean .condition) with _ | _ | _ <;> rfl

end Forms

/-! ## Expressions -/

theorem read_eq (selector : Option Selector) (name : String) :
    (scope r here).read selector name = match target? r here selector with
      | none => some (.ok none)
      | some h => (lookup r h name).bind fun
        | some value => some (value.map some)
        | none => some (.ok none) := rfl

/-- Plain evaluation is evaluation in the scope that reads properties by plain evaluation. -/
theorem eval_eq_run (e : Expr) : eval r here e = (e.eval (scope r here)).run := by
  induction e with
  | literal text => rw [eval]; rfl
  | dimension value unit => rw [eval]; rfl
  | property selector name =>
    rw [eval, run_property, read_eq]
    cases target? r here selector with
    | none => rfl
    | some h =>
      dsimp only [lookup]
      cases bound? r h name with
      | none => rfl
      | some e =>
        -- The expression that is read is no part of this one, so there is no induction hypothesis.
        -- None is needed: both sides evaluate it plainly.
        show eval r (some h) e = (((eval r (some h) e).map some).bind _).bind _
        rcases eval r (some h) e with _ | _ | _ <;> rfl
  | var group name => rw [eval]; rfl
  | binary op left right ihl ihr =>
    cases op with
    | and => rw [eval, run_and, ← ihl, ← ihr]
    | or => rw [eval, run_or, ← ihl, ← ihr]
    | eq => rw [eval, run_eq, ← ihl, ← ihr]
    | ne => rw [eval, run_ne, ← ihl, ← ihr]
    | _ =>
      rw [run_onDimensions _ _ _ (fun _ => rfl) (by decide), ← ihl, ← ihr]
      simp only [eval]
  | conditional cond yes no ihc ihy ihn => rw [eval, run_conditional, ← ihc, ← ihy, ← ihn]

end Stencil.Plain
