import Stencil.Proofs.ListedOnce
import Stencil.Proofs.References

/-!
# What evaluation asks for

The order of evaluation comes from what expressions mention, which is found out by walking through them
and without evaluating anything. Evaluation reads properties as it goes along: it leaves out operands
that do not matter, and it stops where something fails. Whatever answers it gets, it asks for
properties that are mentioned, in the order in which they are mentioned, and so for none that the order
of evaluation does not know of.

* `Expr.questions` — the properties that an expression mentions
* `Asking` — a computation that lists what it asks for
* `Expr.asked` — the properties that evaluation asks for, in any scope
* `Expr.asked_sublist` — they are among those that are mentioned
* `Dependencies.asked_covered` — they belong to elements that the element at hand depends on
-/

namespace Stencil

/-! ## Mentioned properties -/

/-- A property that is asked for: of the element that a selector addresses, or of the one at hand. -/
abbrev Question := Option Selector × String

namespace Expr

/-- The property that an expression asks for if it is nothing but a reference. -/
def question? : Expr → Option Question
  | .property selector name => some (selector, name)
  | _ => none

/-- The properties that an expression mentions, in the order of `walk`. -/
def questions (e : Expr) : List Question := e.walk.filterMap question?

theorem questions_binary (op : BinaryOp) (left right : Expr) :
    (binary op left right).questions = left.questions ++ right.questions :=
  List.filterMap_append

theorem questions_conditional (cond yes no : Expr) :
    (conditional cond yes no).questions = cond.questions ++ (yes.questions ++ no.questions) := by
  show ((cond.walk ++ yes.walk) ++ no.walk).filterMap question? = _
  rw [List.append_assoc, List.filterMap_append, List.filterMap_append]
  rfl

theorem mem_walk_of_mem_questions {e : Expr} {selector : Option Selector} {name : String}
    (h : (selector, name) ∈ e.questions) : property selector name ∈ e.walk := by
  obtain ⟨part, hpart, hq⟩ := List.mem_filterMap.mp h
  cases part with
  | property selector' name' =>
    cases hq
    exact hpart
  | _ => cases hq

end Expr

/-! ## Computations that list what they ask for -/

/-- A computation with a state, which may never come back. It lists what it asks for in any case. -/
def Asking (σ α : Type) : Type := σ → Option (α × σ) × List Question

namespace Asking

variable {σ α β : Type}

instance : Monad (Asking σ) where
  pure a s := (some (a, s), [])
  bind x f s :=
    match x s with
    | (none, asked) => (none, asked)
    | (some (a, s'), asked) => ((f a s').1, asked ++ (f a s').2)

/-- What the computation comes back with. -/
def result (x : Asking σ α) (s : σ) : Option (α × σ) := (x s).1

/-- What the computation asks for, in order. -/
def asked (x : Asking σ α) (s : σ) : List Question := (x s).2

/-- A computation of which it is known what it asks for. -/
def about (questions : List Question) (x : StateT σ Option α) : Asking σ α :=
  fun s => (x.run s, questions)

theorem result_bind (x : Asking σ α) (f : α → Asking σ β) (s : σ) :
    (x >>= f).result s = (x.result s).bind fun p => (f p.1).result p.2 := by
  simp only [result, bind]
  rcases x s with ⟨_ | ⟨a, s'⟩, asked⟩ <;> rfl

/-- The questions of the first step come first, and those of the second one follow if there is one. -/
theorem asked_bind (x : Asking σ α) (f : α → Asking σ β) (s : σ) :
    (x >>= f).asked s = x.asked s ++ (x.result s).elim [] fun p => (f p.1).asked p.2 := by
  simp only [asked, result, bind]
  rcases x s with ⟨_ | ⟨a, s'⟩, asked⟩
  · simp
  · rfl

theorem result_map (f : α → β) (x : Asking σ α) (s : σ) :
    (f <$> x).result s = (x.result s).map fun p => (f p.1, p.2) := by
  simp only [result, Functor.map]
  rcases x s with ⟨_ | ⟨a, s'⟩, asked⟩ <;> rfl

theorem asked_map (f : α → β) (x : Asking σ α) (s : σ) : (f <$> x).asked s = x.asked s := by
  simp only [asked, Functor.map]
  rcases x s with ⟨_ | ⟨a, s'⟩, asked⟩
  · rfl
  · exact List.append_nil asked

end Asking

/-- The scope that answers as another one does, and lists what it is asked for. The other scope may
answer as it likes: by what it has been asked before, or not at all. -/
def Scope.asking {σ : Type} (scope : Scope (StateT σ Option)) : Scope (Asking σ) where
  read selector name := .about [(selector, name)] (scope.read selector name)
  note n := .about [] (scope.note n)

namespace Expr

variable {σ α β γ : Type}

/-- The properties that evaluation asks a scope for, in order. -/
def asked (e : Expr) (scope : Scope (StateT σ Option)) (s : σ) : List Question :=
  (e.eval scope.asking).run.asked s

/-! ## Listing changes nothing -/

/-- A computation comes back with the same, whether it lists what it asks for or not. -/
def answering : Simulation (Asking σ) (StateT σ Option) where
  rel x y := ∀ s, x.result s = y.run s
  rel_pure _ _ := rfl
  rel_bind {α β x y f g} hx hf s := by
    rw [Asking.result_bind, hx s]
    exact Option.bind_congr fun p _ => hf p.1 p.2

theorem result_asking (e : Expr) (scope : Scope (StateT σ Option)) (s : σ) :
    (e.eval scope.asking).run.result s = (e.eval scope).run.run s := by
  have hnote (n : Note) : answering.failing.rel
      (ExceptT.lift (scope.asking.note n) : ExceptT EvalError (Asking σ) Unit)
      (ExceptT.lift (scope.note n)) := by
    intro s
    show (Except.ok <$> scope.asking.note n : Asking σ _).result s = (Except.ok <$> scope.note n).run s
    rw [Asking.result_map, StateT.run_map]
    rfl
  exact answering.failing.rel_eval_failing (fun _ => answering.rel_pure _) hnote e
    (fun _ _ _ _ => rfl) s

/-! ## Questions are mentioned -/

/-- The computation asks for properties of a list only, in the order of the list, and for each of them
no more often than it is listed. -/
def Asks (limit : List Question) (x : ExceptT EvalError (Asking σ) α) : Prop :=
  ∀ s, (x.run.asked s).Sublist limit

namespace Asks

variable {limit first second : List Question}

theorem pure (a : α) : Asks limit (Pure.pure a : ExceptT EvalError (Asking σ) α) :=
  fun _ => List.nil_sublist _

theorem throw (e : EvalError) : Asks limit (throw e : ExceptT EvalError (Asking σ) α) :=
  fun _ => List.nil_sublist _

theorem mono {x : ExceptT EvalError (Asking σ) α} (hx : Asks first x)
    (h : first.Sublist second) : Asks second x := fun s => (hx s).trans h

theorem bind {x : ExceptT EvalError (Asking σ) α} {f : α → ExceptT EvalError (Asking σ) β}
    (hx : Asks first x) (hf : ∀ a, Asks second (f a)) : Asks (first ++ second) (x >>= f) := by
  intro s
  rw [ExceptT.run_bind, Asking.asked_bind]
  refine (hx s).append ?_
  cases x.run.result s with
  | none => exact List.nil_sublist _
  | some p =>
    obtain ⟨a, s'⟩ := p
    cases a with
    | error e => exact List.nil_sublist _
    | ok a => exact hf a s'

/-- Nothing is asked for in what comes after a computation. -/
theorem bind_quiet {x : ExceptT EvalError (Asking σ) α} {f : α → ExceptT EvalError (Asking σ) β}
    (hx : Asks limit x) (hf : ∀ a, Asks [] (f a)) : Asks limit (x >>= f) := by
  have h := hx.bind hf
  rw [List.append_nil] at h
  exact h

/-- A check asks for nothing. -/
theorem check_bind {checked : Except EvalError α} {f : α → ExceptT EvalError (Asking σ) β}
    (hf : ∀ a, Asks limit (f a)) : Asks limit (liftM checked >>= f) := by
  have hcheck : Asks [] (liftM checked : ExceptT EvalError (Asking σ) α) := by
    cases checked with
    | ok a => exact pure a
    | error e => exact throw e
  exact hcheck.bind hf

/-- A note asks for nothing. -/
theorem note (scope : Scope (StateT σ Option)) (n : Note) :
    Asks [] (ExceptT.lift (scope.asking.note n)) := by
  intro s
  show ((Except.ok <$> scope.asking.note n : Asking σ _).asked s).Sublist []
  rw [Asking.asked_map]
  exact List.Sublist.refl []

end Asks

/-- Evaluation asks for what is mentioned, in that order: an operand that is left out leaves out what
it mentions, and so does a failure for what comes after it. -/
theorem asks_eval (scope : Scope (StateT σ Option)) (e : Expr) :
    Asks e.questions (e.eval scope.asking) := by
  induction e with
  | literal text => exact .pure _
  | dimension value unit => exact .pure _
  | var group name => exact .throw _
  | property selector name =>
    have hread : Asks [(selector, name)] (ExceptT.mk (scope.asking.read selector name)) :=
      fun s => List.Sublist.refl _
    refine hread.bind_quiet fun a => ?_
    cases a with
    | some value => exact .pure _
    | none =>
      cases selector with
      | none => exact .pure _
      | some selector => exact .throw _
  | binary op left right ihl ihr =>
    rw [questions_binary]
    cases op with
    | and =>
      refine ihl.bind fun a => Asks.check_bind fun b => ?_
      cases b with
      | false => exact .pure _
      | true => exact ihr.bind_quiet fun a => Asks.check_bind fun b => .pure _
    | or =>
      refine ihl.bind fun a => Asks.check_bind fun b => ?_
      cases b with
      | true => exact .pure _
      | false => exact ihr.bind_quiet fun a => Asks.check_bind fun b => .pure _
    | eq => exact ihl.bind fun a => ihr.bind_quiet fun b => .pure _
    | ne => exact ihl.bind fun a => ihr.bind_quiet fun b => .pure _
    | _ =>
      refine ihl.bind fun a => Asks.check_bind fun a => ?_
      refine ihr.bind_quiet fun b => Asks.check_bind fun b => Asks.check_bind fun computed => ?_
      cases computed.note with
      | none => exact .pure _
      | some note => exact (Asks.note scope note).bind_quiet fun _ => .pure _
  | conditional cond yes no ihc ihy ihn =>
    rw [questions_conditional]
    refine ihc.bind fun a => Asks.check_bind fun b => ?_
    cases b with
    | true => exact ihy.mono (List.sublist_append_left _ _)
    | false => exact ihn.mono (List.sublist_append_right _ _)

/-- In any scope, evaluation asks for properties that the expression mentions, in that order. -/
theorem asked_sublist (e : Expr) (scope : Scope (StateT σ Option)) (s : σ) :
    (e.asked scope s).Sublist e.questions := asks_eval scope e s

end Expr

/-! ## Found elements -/

namespace Registry

variable {tree : List Node} {target : Target} {selector : Selector} {h : Handle}

theorem lt_size_of_byId {name : String} (hid : (build tree).value.byId.get? name = some h) :
    h < (build tree).value.entries.size := by
  suffices ∀ name h, (build tree).value.byId.get? name = some h →
      h < (build tree).value.entries.size from this name h hid
  rw [build_eq_foldlM]
  refine Logged.foldlM_induction
    (P := fun r : Registry => ∀ name h, r.byId.get? name = some h → h < r.entries.size)
    (fun _ _ hget => nomatch hget) ?_
  intro r hr e _ name h hget
  rw [value_add] at hget ⊢
  rw [Array.size_push]
  cases he : e.id? with
  | none =>
    simp only [he] at hget
    exact Nat.lt_succ_of_lt (hr name h hget)
  | some id =>
    simp only [he, OrderedMap.get?_insert] at hget
    split at hget
    · cases hget
      exact Nat.lt_succ_self _
    · exact Nat.lt_succ_of_lt (hr name h hget)

/-- What is listed under a key is an element. -/
theorem Lists.exists_element {r : Registry} {keys : Element → List String}
    {index : OrderedMap String (List Handle)} {name : String} (hr : r.Lists keys index)
    (hmem : h ∈ listed index name) : ∃ e, r.element? h = some e := by
  have hcount := List.count_pos_iff.mpr hmem
  rw [hr] at hcount
  cases he : r.element? h with
  | none => simp [he] at hcount
  | some e => exact ⟨e, rfl⟩

theorem exists_element_of_matching (hmem : h ∈ (build tree).value.matching target) :
    ∃ e, (build tree).value.element? h = some e := by
  obtain ⟨hclass, htag⟩ := lists_build tree
  cases target with
  | id name =>
    have hlt := lt_size_of_byId (Option.mem_toList.mp hmem)
    exact ⟨_, congrArg _ (Array.getElem?_eq_getElem hlt)⟩
  | className name => exact hclass.exists_element hmem
  | tag name => exact htag.exists_element hmem

/-- A reference leads to an element of the tree, or to none. -/
theorem exists_entry_of_first (hfirst : (build tree).value.first selector = some h) :
    ∃ entry, (build tree).value.entry? h = some entry := by
  have hfind : h ∈ (build tree).value.find selector := List.mem_of_head? hfirst
  have hmem : h ∈ (build tree).value.matching selector.target := by
    unfold find at hfind
    split at hfind
    · exact hfind
    · exact List.mem_of_getElem? (Option.mem_toList.mp hfind)
  obtain ⟨e, he⟩ := exists_element_of_matching hmem
  obtain ⟨entry, hentry, -⟩ := Option.map_eq_some_iff.mp he
  exact ⟨entry, hentry⟩

end Registry

/-! ## Dependencies -/

namespace Dependencies

open Registry Plain

/-- **Evaluation asks for nothing that the dependencies do not cover.** In any scope, evaluation asks
for properties that the expression mentions, in the order in which it mentions them. So if all primary
names differ, then whatever a property of an element asks for through a selector is a property of no
element, of the element itself, or of one that the element depends on directly. Listing what is asked
for does not change what evaluation comes to. -/
theorem asked_covered :
    (∀ (σ : Type) (scope : Scope (StateT σ Option)) (e : Expr) (s : σ),
      (e.asked scope s).Sublist e.questions ∧
        (e.eval scope.asking).run.result s = (e.eval scope).run.run s) ∧
    ∀ (tree : List Node), let r := (Registry.build tree).value
      r.Distinct →
      ∀ (h : Handle) (entry : Entry) (name : String) (e : Expr), r.entry? h = some entry →
        entry.element.inlineProperty? name = some e →
      ∀ (σ : Type) (scope : Scope (StateT σ Option)) (s : σ) (selector : Selector)
        (property : String), (some selector, property) ∈ e.asked scope s →
      r.first selector = none ∨ r.first selector = some h ∨
        ∃ target other, r.first selector = some target ∧ r.entry? target = some other ∧
          (build r).DependsOn entry.primary other.primary := by
  refine ⟨fun σ scope e s => ⟨e.asked_sublist scope s, e.result_asking scope s⟩, ?_⟩
  intro tree r hd h entry name e he hdecl σ scope s selector property hasked
  have hmem : .property (some selector) property ∈ e.walk :=
    Expr.mem_walk_of_mem_questions ((e.asked_sublist scope s).subset hasked)
  cases hfirst : r.first selector with
  | none => exact Or.inl rfl
  | some target =>
    by_cases hself : h = target
    · exact Or.inr (Or.inl (congrArg some hself.symm))
    · obtain ⟨other, hother⟩ := exists_entry_of_first hfirst
      have hreads : Reads r (h, name) (target, property) :=
        ⟨e, bound?_eq_some_iff.mpr ⟨entry, he, hdecl⟩, some selector, hmem, hfirst⟩
      have hdep := dependsOn_of_reads hd hreads he hother hself
      exact Or.inr (Or.inr ⟨target, other, rfl, hother, hdep⟩)

/-- A width that is one of two other properties, by what the shape of a frame is. -/
def fittedWidth : Expr :=
  .conditional (.binary .eq (.property (some ⟨.id "frame", none⟩) "shape") (.literal "wide"))
    (.property (some ⟨.tag "img", none⟩) "height") (.property (some ⟨.id "gone", none⟩) "width")

/-- An element with two style blocks, of which the last one counts. -/
def fitted : Element :=
  ⟨"img", .ofList [("class", "inner")],
    [.style { inline := .ofList [("width", .property (some ⟨.id "gone", none⟩) "width")] },
     .style { inline := .ofList [("width", fittedWidth)] }]⟩

def framed : List Node :=
  [.element ⟨"div", .ofList [("id", "frame")],
    [.style { inline := .ofList [("shape", .literal "wide")] }]⟩, .element fitted]

/-- A scope that counts what it is asked for, and answers the first question only. -/
def shortLived : Scope (StateT Nat Option) where
  read _ _ := fun n => if n = 0 then some (.ok (some (.string "wide")), 1) else none
  note _ := pure ()

/-- The last of the properties that are mentioned is never asked for. The first one makes the element
depend on its frame. -/
theorem asked_covered_framed :
    let r := (Registry.build framed).value
    let shape : Question := (some ⟨.id "frame", none⟩, "shape")
    let height : Question := (some ⟨.tag "img", none⟩, "height")
    r.Distinct ∧ r.entry? 1 = some ⟨fitted, ".inner"⟩ ∧
      fitted.inlineProperty? "width" = some fittedWidth ∧
      fittedWidth.asked shortLived 0 = [shape, height] ∧
      [shape, height].Sublist fittedWidth.questions ∧ (build r).DependsOn ".inner" "#frame" := by
  intro r shape height
  have hr : r = ((preorder framed).foldlM Registry.add .empty).value :=
    congrArg Logged.value (Registry.build_eq_foldlM framed)
  have hd : r.Distinct := by
    rw [hr]
    decide
  have hentry : r.entry? 1 = some ⟨fitted, ".inner"⟩ := by
    rw [hr]
    rfl
  have hfirst : r.first ⟨.id "frame", none⟩ = some 0 := by
    rw [hr]
    rfl
  have hframe : r.primary? 0 = some "#frame" := by
    rw [hr]
    rfl
  have hwidth : fitted.inlineProperty? "width" = some fittedWidth := rfl
  have hasked : fittedWidth.asked shortLived 0 = [shape, height] := rfl
  obtain ⟨hmentioned, hcovered⟩ := asked_covered
  have hsub := (hmentioned Nat shortLived fittedWidth 0).1
  rw [hasked] at hsub
  refine ⟨hd, hentry, hwidth, hasked, hsub, ?_⟩
  have hmem : shape ∈ fittedWidth.asked shortLived 0 := by
    rw [hasked]
    exact List.mem_cons_self
  rcases hcovered framed hd 1 _ "width" _ hentry hwidth Nat shortLived 0 _ _ hmem with
    hnone | hself | ⟨target, other, htarget, hother, hdep⟩
  · cases hfirst.symm.trans hnone
  · cases hfirst.symm.trans hself
  · cases hfirst.symm.trans htarget
    rw [Registry.primary?, hother] at hframe
    exact Option.some.inj hframe ▸ hdep

end Dependencies

end Stencil
