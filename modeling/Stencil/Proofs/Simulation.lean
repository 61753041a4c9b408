import Stencil.Expr.Eval

/-!
# Evaluation in related scopes

The same expression may be evaluated in two scopes, which work in different monads. If what the one
scope reads is related to what the other reads, then so are the two values of the expression.

* `Simulation` — a relation between the computations of two monads that `pure` and `>>=` keep
* `Simulation.rel_eval` — evaluation keeps it, if it holds of the properties that the expression
  reads
* `Simulation.rel_eval_failing` — the same of a relation that knows a failure from a result
* `Simulation.rel_eval_throwing` — the same of a relation that knows one failure from another
-/

namespace Stencil

/-- What goes wrong in an expression itself, given the values that it reads. The other errors are about
what comes before evaluation: a variable that was not replaced, and a property that reads itself. -/
def EvalError.Local : EvalError → Prop
  | .unitMismatch .. | .operandType .. | .unresolvedReference .. => True
  | .unresolvedVariable .. | .circularProperty .. => False

/-- A relation between computations that is kept by doing nothing and by doing one thing after
another. -/
structure Simulation (m n : Type → Type) [Monad m] [Monad n] where
  rel : {α : Type} → m α → n α → Prop
  rel_pure : ∀ {α : Type} (a : α), rel (pure a) (pure a)
  rel_bind : ∀ {α β : Type} {x : m α} {y : n α} {f : α → m β} {g : α → n β},
    rel x y → (∀ a, rel (f a) (g a)) → rel (x >>= f) (y >>= g)

namespace Expr

/-- The expression itself is the first of its parts. -/
theorem self_mem_walk (e : Expr) : e ∈ e.walk := by
  cases e <;> exact List.mem_cons_self

theorem mem_walk_left {op : BinaryOp} {left right e : Expr} (h : e ∈ left.walk) :
    e ∈ (binary op left right).walk :=
  List.mem_cons_of_mem _ (List.mem_append_left _ h)

theorem mem_walk_right {op : BinaryOp} {left right e : Expr} (h : e ∈ right.walk) :
    e ∈ (binary op left right).walk :=
  List.mem_cons_of_mem _ (List.mem_append_right _ h)

theorem mem_walk_cond {cond yes no e : Expr} (h : e ∈ cond.walk) :
    e ∈ (conditional cond yes no).walk :=
  List.mem_cons_of_mem _ (List.mem_append_left _ (List.mem_append_left _ h))

theorem mem_walk_yes {cond yes no e : Expr} (h : e ∈ yes.walk) :
    e ∈ (conditional cond yes no).walk :=
  List.mem_cons_of_mem _ (List.mem_append_left _ (List.mem_append_right _ h))

theorem mem_walk_no {cond yes no e : Expr} (h : e ∈ no.walk) :
    e ∈ (conditional cond yes no).walk :=
  List.mem_cons_of_mem _ (List.mem_append_right _ h)

/-! ## Errors of operators -/

/-- Failures of operands are about expressions. -/
theorem local_of_expectBoolean (site : Site) (v : Value) {e : EvalError}
    (h : expectBoolean site v = .error e) : e.Local := by
  cases v with
  | boolean b => cases h
  | _ =>
    cases h
    trivial

theorem local_of_expectDimension (op : BinaryOp) (v : Value) {e : EvalError}
    (h : expectDimension op v = .error e) : e.Local := by
  cases v with
  | dimension value unit => cases h
  | _ =>
    cases h
    trivial

theorem local_of_onDimensions (op : BinaryOp) (a b : Float × Option String) {e : EvalError}
    (h : onDimensions op a b = .error e) : e.Local := by
  have hsum : ∀ value, onDimensions.sum a b value = .error e → e.Local := by
    intro value hsum
    unfold onDimensions.sum at hsum
    split at hsum
    · cases hsum
      trivial
    · cases hsum
  cases op with
  | add | sub => exact hsum _ h
  | _ => cases h

end Expr

namespace Simulation

variable {m n : Type → Type} [Monad m] [Monad n] {α β : Type}

/-! ## Expressions -/

section Failing

variable {s : Scope m} {t : Scope n} (sim : Simulation (ExceptT EvalError m) (ExceptT EvalError n))
  {allowed : EvalError → Prop}
  (hthrow : ∀ {α : Type} (e : EvalError), allowed e →
    sim.rel (throw e : ExceptT EvalError m α) (throw e : ExceptT EvalError n α))
include hthrow

/-- A check comes out the same way on both sides. -/
theorem rel_check {checked : Except EvalError α} (h : ∀ e, checked = .error e → allowed e) :
    sim.rel (liftM checked : ExceptT EvalError m α) (liftM checked : ExceptT EvalError n α) := by
  cases checked with
  | ok a => exact sim.rel_pure a
  | error e => exact hthrow e (h e rfl)

/-- An operand is evaluated, checked and used. -/
theorem rel_checked {x : ExceptT EvalError m α} {y : ExceptT EvalError n α}
    {check : α → Except EvalError β} {γ : Type} {f : β → ExceptT EvalError m γ}
    {g : β → ExceptT EvalError n γ} (hcheck : ∀ a e, check a = .error e → allowed e)
    (hx : sim.rel x y) (hf : ∀ b, sim.rel (f b) (g b)) :
    sim.rel (x >>= fun a => liftM (check a) >>= f) (y >>= fun a => liftM (check a) >>= g) :=
  sim.rel_bind hx fun a => sim.rel_bind (sim.rel_check hthrow (hcheck a)) hf

/-- Evaluation keeps a simulation of computations that may fail, if it holds of all properties that
the expression reads, and of the errors that it may raise by itself. -/
theorem rel_eval_throwing (hlocal : ∀ e : EvalError, e.Local → allowed e)
    (hnote : ∀ k, sim.rel (ExceptT.lift (s.note k)) (ExceptT.lift (t.note k))) (e : Expr)
    (hvar : ∀ group name, .var group name ∈ e.walk → allowed (.unresolvedVariable group name))
    (hread : ∀ selector name, .property selector name ∈ e.walk →
      sim.rel (ExceptT.mk (s.read selector name)) (ExceptT.mk (t.read selector name))) :
    sim.rel (e.eval s) (e.eval t) := by
  have hboolean (site : Site) (v : Value) (e : EvalError)
      (h : Expr.expectBoolean site v = .error e) : allowed e :=
    hlocal e (Expr.local_of_expectBoolean site v h)
  have hdimension (op : BinaryOp) (v : Value) (e : EvalError)
      (h : Expr.expectDimension op v = .error e) : allowed e :=
    hlocal e (Expr.local_of_expectDimension op v h)
  induction e with
  | literal text => exact sim.rel_pure _
  | dimension value unit => exact sim.rel_pure _
  | property selector name =>
    refine sim.rel_bind (hread selector name (Expr.self_mem_walk _)) fun a => ?_
    cases a with
    | some value => exact sim.rel_pure _
    | none =>
      cases selector with
      | none => exact sim.rel_pure _
      | some selector => exact hthrow _ (hlocal _ trivial)
  | var group name => exact hthrow _ (hvar group name (Expr.self_mem_walk _))
  | binary op left right ihl ihr =>
    have hl := ihl (fun group name h => hvar group name (Expr.mem_walk_left h))
      fun sel name h => hread sel name (Expr.mem_walk_left h)
    have hr := ihr (fun group name h => hvar group name (Expr.mem_walk_right h))
      fun sel name h => hread sel name (Expr.mem_walk_right h)
    cases op with
    | and =>
      refine sim.rel_checked hthrow (hboolean _) hl fun b => ?_
      cases b with
      | false => exact sim.rel_pure _
      | true => exact sim.rel_checked hthrow (hboolean _) hr fun b => sim.rel_pure _
    | or =>
      refine sim.rel_checked hthrow (hboolean _) hl fun b => ?_
      cases b with
      | true => exact sim.rel_pure _
      | false => exact sim.rel_checked hthrow (hboolean _) hr fun b => sim.rel_pure _
    | eq => exact sim.rel_bind hl fun a => sim.rel_bind hr fun b => sim.rel_pure _
    | ne => exact sim.rel_bind hl fun a => sim.rel_bind hr fun b => sim.rel_pure _
    | _ =>
      refine sim.rel_checked hthrow (hdimension _) hl fun a =>
        sim.rel_checked hthrow (hdimension _) hr fun b => ?_
      refine sim.rel_bind (sim.rel_check hthrow fun e h =>
        hlocal e (Expr.local_of_onDimensions _ a b h)) fun computed => ?_
      cases computed.note with
      | none => exact sim.rel_pure _
      | some note => exact sim.rel_bind (hnote note) fun _ => sim.rel_pure _
  | conditional cond yes no ihc ihy ihn =>
    refine sim.rel_checked hthrow (hboolean _)
      (ihc (fun group name h => hvar group name (Expr.mem_walk_cond h))
        fun sel name h => hread sel name (Expr.mem_walk_cond h)) fun b => ?_
    cases b with
    | true =>
      exact ihy (fun group name h => hvar group name (Expr.mem_walk_yes h))
        fun sel name h => hread sel name (Expr.mem_walk_yes h)
    | false =>
      exact ihn (fun group name h => hvar group name (Expr.mem_walk_no h))
        fun sel name h => hread sel name (Expr.mem_walk_no h)

omit hthrow

/-- The same where it holds of every error. -/
theorem rel_eval_failing
    (hthrow : ∀ {α : Type} (e : EvalError),
      sim.rel (throw e : ExceptT EvalError m α) (throw e : ExceptT EvalError n α))
    (hnote : ∀ k, sim.rel (ExceptT.lift (s.note k)) (ExceptT.lift (t.note k))) (e : Expr)
    (hread : ∀ selector name, .property selector name ∈ e.walk →
      sim.rel (ExceptT.mk (s.read selector name)) (ExceptT.mk (t.read selector name))) :
    sim.rel (e.eval s) (e.eval t) :=
  sim.rel_eval_throwing (fun e (_ : True) => hthrow e) (fun _ _ => trivial) hnote e
    (fun _ _ _ => trivial) hread

end Failing

/-! ## Computations that may fail -/

variable {ε : Type} (sim : Simulation m n)

/-- Computations that may fail are related if what they run is: a failure is a result like others. -/
def failing : Simulation (ExceptT ε m) (ExceptT ε n) where
  rel x y := sim.rel x.run y.run
  rel_pure _ := sim.rel_pure _
  rel_bind hx hf := by
    rw [ExceptT.run_bind, ExceptT.run_bind]
    refine sim.rel_bind hx fun a => ?_
    cases a with
    | ok a => exact hf a
    | error e => exact sim.rel_pure _

variable [LawfulMonad m] [LawfulMonad n] {s : Scope m} {t : Scope n}

/-- A computation that cannot fail is related as it is. -/
theorem rel_liftExcept {x : m α} {y : n α} (hx : sim.rel x y) :
    sim.failing.rel (ExceptT.lift x : ExceptT ε m α) (ExceptT.lift y : ExceptT ε n α) := by
  show sim.rel (ExceptT.lift x).run (ExceptT.lift y).run
  rw [ExceptT.run_lift, ExceptT.run_lift, map_eq_pure_bind, map_eq_pure_bind]
  exact sim.rel_bind hx fun a => sim.rel_pure _

/-- Evaluation keeps a simulation that holds of all properties that the expression reads. -/
theorem rel_eval (hnote : ∀ k, sim.rel (s.note k) (t.note k)) (e : Expr)
    (hread : ∀ selector name, .property selector name ∈ e.walk →
      sim.rel (s.read selector name) (t.read selector name)) :
    sim.rel (e.eval s).run (e.eval t).run :=
  sim.failing.rel_eval_failing (fun _ => sim.rel_pure _) (fun k => sim.rel_liftExcept (hnote k)) e
    hread

end Simulation

end Stencil
