import Mathlib.Data.List.Induction
import Stencil.Proofs.Budget
import Stencil.Proofs.EvaluationDepth
import Stencil.Proofs.Resolving

/-!
# Questions asked one after the other

A session is asked for properties, one after the other, and keeps what it finds. The answer to a
question should not depend on what was asked before. It does not, as long as no question failed. A
property that reads itself fails the first time it is asked for; its failure is kept, and the next
time it is answered as a property that has this failure.

* `settled_lookup` — a property that has a plain value is answered with it, in any session
* `alike_lookup` — any other property is answered alike in any two sessions, up to the first failure
  that one of them has kept
* `answer_eq_fresh` — the answer to a question after others
-/

namespace Stencil.Session

variable {r : Registry} {failed : Prop} {path : List PropertyKey} {look : Lookup}
  {h : Handle} {entry : Entry} {property : String} {s t : Session} {n fuel : Nat}

/-! ## What is kept -/

/-- The failure of a property that was found to read itself, or that reads such a property. -/
def Blocked {α : Type} (value : Except EvalError α) : Prop :=
  ∃ selector property, value = .error (.circularProperty selector property)

/-- What the memo may keep for a property: its plain value; or, once a question has failed, that the
property is blocked. Then it has no plain value. -/
def Kept (r : Registry) (failed : Prop) (h : Handle) (property : String)
    (value : Except EvalError Value) : Prop :=
  Plain.lookup r h property = some (some value) ∨
    failed ∧ Plain.lookup r h property = none ∧ Blocked value

theorem Kept.mono {failed' : Prop} (himp : failed → failed') {value : Except EvalError Value}
    (hk : Kept r failed h property value) : Kept r failed' h property value :=
  hk.imp_right fun ⟨hf, hk⟩ => ⟨himp hf, hk⟩

/-- A session with the properties of a path under evaluation, which keeps only what it may. -/
structure On (r : Registry) (failed : Prop) (path : List PropertyKey) (s : Session) : Prop where
  inProgress : s.inProgress = path
  memo : Memoized r (Kept r failed) s

namespace On

theorem init : On r failed [] {} := ⟨rfl, .init⟩

theorem mono {failed' : Prop} (himp : failed → failed') (hs : On r failed path s) :
    On r failed' path s :=
  ⟨hs.inProgress, fun _ _ _ _ he hm => (hs.memo he hm).mono himp⟩

/-- If no question has failed, the memo holds plain values. -/
theorem sound (hs : On r False path s) : Sound r s := by
  refine sound_iff.mpr fun h entry property value he hm => ?_
  rcases hs.memo he hm with hv | ⟨hf, _⟩
  · exact hv
  · exact hf.elim

theorem enter (hs : On r failed path s) (key : PropertyKey) :
    On r failed (key :: path) (enter key s) :=
  ⟨congrArg _ hs.inProgress, hs.memo⟩

/-- What is kept stays so when a property is done. -/
theorem leave {key : PropertyKey} (hs : On r failed (key :: path) s) (hd : r.Distinct)
    {value : Except EvalError Value} (he : r.entry? h = some entry)
    (hv : Kept r failed h property value) :
    On r failed path (leave (entry.primary, property) value s) where
  inProgress := by
    show s.inProgress.tail = path
    rw [hs.inProgress, List.tail_cons]
  memo := hs.memo.leave hd he hv

theorem recordCycle (hs : On r failed path s) (key : PropertyKey) :
    On r failed path (recordCycle key s) :=
  ⟨hs.inProgress, hs.memo⟩

end On

/-! ## Properties that have a plain value -/

/-- A computation has the plain result, if there is one, and it finds no cycle. -/
def settled (r : Registry) (failed : Prop) (path : List PropertyKey) :
    Simulation Evaluating Option where
  rel {α} x y := ∀ ⦃s : Session⦄ ⦃a : α⦄ ⦃s' : Session⦄, x.run s = some (a, s') →
    On r failed path s → ∀ ⦃v⦄, y = some v →
    a = v ∧ s'.circular = s.circular ∧ On r failed path s'
  rel_pure a s b s' hrun hs v hv := by
    cases hrun
    cases hv
    exact ⟨rfl, rfl, hs⟩
  rel_bind {α β x y f g} hx hf s b s' hrun hs v hv := by
    obtain ⟨⟨a, s₁⟩, hx', hf'⟩ := Option.bind_eq_some_iff.mp hrun
    obtain ⟨a', hy, hg⟩ := Option.bind_eq_some_iff.mp hv
    obtain ⟨rfl, hc₁, hs₁⟩ := hx hx' hs hy
    obtain ⟨rfl, hc, hs'⟩ := hf a hf' hs₁ hg
    exact ⟨rfl, hc.trans hc₁, hs'⟩

theorem settled_note (k : Note) : (settled r failed path).rel (note k) (some ()) := by
  intro s a s' hrun hs v hv
  cases hrun
  exact ⟨rfl, rfl, hs.inProgress, hs.memo⟩

/-- No property under evaluation has a value that a plain lookup finds. -/
def Valueless (r : Registry) (plain : Handle → String → Option (Option (Except EvalError Value)))
    (path : List PropertyKey) : Prop :=
  ∀ ⦃h entry property⦄, r.entry? h = some entry → (entry.primary, property) ∈ path →
    plain h property = none

namespace Valueless

variable {plain plain' : Handle → String → Option (Option (Except EvalError Value))}

theorem nil : Valueless r plain [] := fun _ _ _ _ hmem => nomatch hmem

/-- A lookup that finds less finds nothing either. -/
theorem of_extension (hpath : Valueless r plain' path)
    (hext : ∀ h property, Plain.extension.rel (plain h property) (plain' h property)) :
    Valueless r plain path := by
  intro h entry property he hmem
  cases hv : plain h property with
  | none => rfl
  | some value =>
    have hnone := hpath he hmem
    rw [hext h property value hv] at hnone
    cases hnone

/-- A property that has no plain value can be put on the path. -/
theorem cons (hpath : Valueless r plain path) (hd : r.Distinct) (he : r.entry? h = some entry)
    (hnone : plain h property = none) : Valueless r plain ((entry.primary, property) :: path) := by
  intro h' entry' property' he' hmem
  rcases List.mem_cons.mp hmem with hkey | hmem
  · obtain ⟨hname, rfl⟩ := Prod.mk.inj hkey
    rw [hd.handle_eq he' he hname]
    exact hnone
  · exact hpath he' hmem

end Valueless

/-- A property that has a plain value is answered with it, whatever the session keeps, if no property
under evaluation has a value at that depth. -/
theorem settled_lookup (hd : r.Distinct) (hpath : Valueless r (Plain.within r n) path) (fuel : Nat)
    (h : Handle) (property : String) :
    (settled r failed path).rel (lookup r fuel h property) (Plain.within r n h property) := by
  induction n generalizing path fuel h property with
  | zero => exact fun _ _ _ _ _ _ hv => nomatch hv
  | succ n ih =>
    -- A property with a value at a lesser depth is left to the induction. Any other one has none at
    -- that depth, so the path stays without values when it is entered.
    have hpath' := hpath.of_extension (Plain.within_succ n)
    cases hn : Plain.within r n h property with
    | some v =>
      rw [Plain.within_succ n h property v hn, ← hn]
      exact ih hpath' fuel h property
    | none =>
      intro s answer s' hrun hs v hv
      have hplain := Plain.lookup_of_within _ h property v hv
      cases fuel with
      | zero => cases hrun
      | succ fuel =>
        cases lookupStep_cases hrun with
        | absent he =>
          rw [Plain.lookup_absent he] at hplain
          exact ⟨Option.some.inj hplain, rfl, hs⟩
        | known he hm =>
          rcases hs.memo he hm with hkept | ⟨_, hkept, _⟩
          · exact ⟨Option.some.inj (hkept.symm.trans hplain), rfl, hs⟩
          · rw [hkept] at hplain
            cases hplain
        | undeclared he hm hp =>
          rw [Plain.lookup_undeclared he hp] at hplain
          exact ⟨Option.some.inj hplain, rfl, hs⟩
        | circular he hm hp hin =>
          rw [hpath he (hs.inProgress ▸ hin)] at hv
          cases hv
        | @evaluated entry e value s₁ he hm hp hin heval =>
          have hb : Plain.bound? r h property = some e := by
            simp [Plain.bound?, Registry.element?, he, hp]
          rw [Plain.within_declared hb] at hv
          obtain ⟨value', hvalue, rfl⟩ := Option.map_eq_some_iff.mp hv
          have hlook := ih (hpath'.cons hd he hn) fuel
          obtain ⟨rfl, hc, hs₁⟩ :=
            rel_eval_elementScope settled_note hlook h e heval (hs.enter _) hvalue
          exact ⟨rfl, hc, hs₁.leave hd he (.inl hplain)⟩

/-! ## Two sessions side by side -/

/-- Two sessions in which the same properties are under evaluation, and that have found no cycle. The
second one has kept plain values only. -/
structure Pair (r : Registry) (failed : Prop) (path : List PropertyKey) (s t : Session) : Prop where
  left : On r failed path s
  right : On r False path t
  left_calm : s.circular = none
  right_calm : t.circular = none

namespace Pair

/-- The second session of a pair has kept no failures, and goes with itself. -/
theorem right_self (hpair : Pair r failed path s t) : Pair r False path t t :=
  ⟨hpair.right, hpair.right, hpair.right_calm, hpair.right_calm⟩

theorem enter (hpair : Pair r failed path s t) (key : PropertyKey) :
    Pair r failed (key :: path) (enter key s) (enter key t) :=
  ⟨hpair.left.enter key, hpair.right.enter key, hpair.left_calm, hpair.right_calm⟩

end Pair

/-- The second session has found a cycle. The first one has found the same, or has stopped before, at
a failure that it had kept. -/
structure Stopped (r : Registry) (failed : Prop) (path : List PropertyKey) (s t : Session) :
    Prop where
  left : On r True path s
  cycle : ∃ selector names, t.circular = some (.circularProperty selector names)
  same : s.circular = t.circular ∨ failed ∧ s.circular = none

/-- Two computations go alike: they have the same result, or both are stopped. `Stop` tells the
results of computations that are. -/
def Alike {α : Type} (r : Registry) (failed : Prop) (path : List PropertyKey) (Stop : α → Prop)
    (x y : Evaluating α) : Prop :=
  ∀ ⦃s : Session⦄ ⦃a : α⦄ ⦃s' : Session⦄, x.run s = some (a, s') →
    ∀ ⦃t : Session⦄ ⦃b : α⦄ ⦃t' : Session⦄, y.run t = some (b, t') →
    Pair r failed path s t →
    a = b ∧ Pair r failed path s' t' ∨ Stop a ∧ Stop b ∧ Stopped r failed path s' t'

namespace Alike

variable {α β : Type} {P : α → Prop} {Q : β → Prop} {x y : Evaluating α} {f g : α → Evaluating β}

theorem pure (a : α) : Alike r failed path P (pure a) (pure a) := by
  intro s b s' hx t c t' hy hpair
  cases hx
  cases hy
  exact .inl ⟨rfl, hpair⟩

/-- One computation after another, of which a stopped result leaves nothing to do. -/
theorem bind (hx : Alike r failed path P x y)
    (hstop : ∀ a, P a → ∃ b, Q b ∧ f a = Pure.pure b ∧ g a = Pure.pure b)
    (hf : ∀ a, Alike r failed path Q (f a) (g a)) : Alike r failed path Q (x >>= f) (y >>= g) := by
  intro s b s' hxf t c t' hyg hpair
  obtain ⟨⟨a, s₁⟩, hx₁, hf₁⟩ := Option.bind_eq_some_iff.mp hxf
  obtain ⟨⟨a', t₁⟩, hy₁, hg₁⟩ := Option.bind_eq_some_iff.mp hyg
  rcases hx hx₁ hy₁ hpair with ⟨rfl, hpair₁⟩ | ⟨hP, hP', hstopped⟩
  · exact hf a hf₁ hg₁ hpair₁
  · obtain ⟨b', hb, hfa, _⟩ := hstop a hP
    obtain ⟨c', hc, _, hga⟩ := hstop a' hP'
    dsimp only at hf₁ hg₁
    rw [hfa] at hf₁
    rw [hga] at hg₁
    cases hf₁
    cases hg₁
    exact .inr ⟨hb, hc, hstopped⟩

theorem note (k : Note) : Alike r failed path (fun _ => False) (note k) (note k) := by
  intro s a s' hx t b t' hy hpair
  cases hx
  cases hy
  exact .inl ⟨rfl, ⟨hpair.left.inProgress, hpair.left.memo⟩,
    ⟨hpair.right.inProgress, hpair.right.memo⟩, hpair.left_calm, hpair.right_calm⟩

end Alike

/-- Computations that go alike, as a simulation: a failure is passed on, so a blocked computation
stops. -/
def alike (r : Registry) (failed : Prop) (path : List PropertyKey) :
    Simulation (ExceptT EvalError Evaluating) (ExceptT EvalError Evaluating) where
  rel x y := Alike r failed path Blocked x.run y.run
  rel_pure a := .pure _
  rel_bind {α β x y f g} hx hf := by
    rw [ExceptT.run_bind, ExceptT.run_bind]
    refine hx.bind ?_ fun a => ?_
    · rintro a ⟨selector, property, rfl⟩
      exact ⟨_, ⟨selector, property, rfl⟩, rfl, rfl⟩
    · cases a with
      | ok a => exact hf a
      | error e => exact .pure _

/-- The answer of a lookup that is stopped. -/
def BlockedAnswer (answer : Option (Except EvalError Value)) : Prop :=
  ∃ value, answer = some value ∧ Blocked value

section Reads

variable
  (hlook : ∀ h property, Alike r failed path BlockedAnswer (look h property) (look h property))
include hlook

theorem alike_readFrom (h : Handle) (selector : Option Selector) (property : String) :
    Alike r failed path Blocked (readFrom r look h selector property)
      (readFrom r look h selector property) := by
  cases selector with
  | none =>
    refine (hlook h property).bind ?_ fun answer => ?_
    · rintro answer ⟨value, rfl, name, property, rfl⟩
      exact ⟨_, ⟨name, property, rfl⟩, rfl, rfl⟩
    · cases answer <;> exact .pure _
  | some selector =>
    dsimp only [readFrom]
    cases r.first selector with
    | none => exact (Alike.note _).bind (fun _ => False.elim) fun _ => .pure _
    | some target =>
      refine (hlook target property).bind ?_ fun answer => ?_
      · rintro answer ⟨value, rfl, name, property, rfl⟩
        exact ⟨_, ⟨name, property, rfl⟩, rfl, rfl⟩
      · cases answer with
        | some value => exact .pure _
        | none => exact (Alike.note _).bind (fun _ => False.elim) fun _ => .pure _

theorem alike_eval (h : Handle) (e : Expr) :
    Alike r failed path Blocked (e.eval (elementScope r look h)).run
      (e.eval (elementScope r look h)).run := by
  refine (alike r failed path).rel_eval_failing (fun _ => .pure _) (fun k => ?_) e
    fun selector name _ => alike_readFrom hlook h selector name
  show Alike r failed path Blocked (ExceptT.lift (note k)).run (ExceptT.lift (note k)).run
  rw [ExceptT.run_lift, map_eq_pure_bind]
  exact (Alike.note k).bind (fun _ => False.elim) fun _ => .pure _

end Reads

/-- A property with no plain value is declared, and its expression has none. -/
theorem exists_of_unsettled (hnone : Plain.lookup r h property = none) :
    ∃ entry e, r.entry? h = some entry ∧ entry.element.inlineProperty? property = some e ∧
      Plain.eval r (some h) e = none := by
  cases he : r.entry? h with
  | none =>
    rw [Plain.lookup_absent he] at hnone
    cases hnone
  | some entry =>
    cases hp : entry.element.inlineProperty? property with
    | none =>
      rw [Plain.lookup_undeclared he hp] at hnone
      cases hnone
    | some e =>
      rw [Plain.lookup_declared he hp] at hnone
      exact ⟨entry, e, rfl, hp, Option.map_eq_none_iff.mp hnone⟩

/-- What a lookup of such a property may do: its failure is known, or it is under evaluation, or it is
evaluated now. -/
theorem unsettled_cases (hs : On r failed path s) (hnone : Plain.lookup r h property = none)
    {e : Expr} (he : r.entry? h = some entry)
    (hp : entry.element.inlineProperty? property = some e)
    {answer : Option (Except EvalError Value)} {s' : Session}
    (hrun : (lookupStep r look h property).run s = some (answer, s')) :
    (failed ∧ BlockedAnswer answer ∧ s' = s) ∨
    ((entry.primary, property) ∈ path ∧
      answer = some (.error (.circularProperty entry.primary property)) ∧
      s' = recordCycle (entry.primary, property) s) ∨
    ((entry.primary, property) ∉ path ∧ ∃ value s₁,
      (e.eval (elementScope r look h)).run.run (enter (entry.primary, property) s)
        = some (value, s₁) ∧
      answer = some value ∧ s' = leave (entry.primary, property) value s₁) := by
  have hpath := hs.inProgress
  cases lookupStep_cases hrun with
  | absent he' => simp [he] at he'
  | known he' hm =>
    rcases hs.memo he' hm with hkept | ⟨hfailed, _, hblocked⟩
    · simp [hnone] at hkept
    · exact .inl ⟨hfailed, ⟨_, rfl, hblocked⟩, rfl⟩
  | undeclared he' hm hp' =>
    rw [Plain.lookup_undeclared he' hp'] at hnone
    cases hnone
  | circular he' hm hp' hin =>
    obtain rfl := Option.some.inj (he.symm.trans he')
    exact .inr (.inl ⟨hpath ▸ hin, rfl, rfl⟩)
  | evaluated he' hm hp' hin heval =>
    obtain rfl := Option.some.inj (he.symm.trans he')
    obtain rfl := Option.some.inj (hp.symm.trans hp')
    exact .inr (.inr ⟨hpath ▸ hin, _, _, heval, rfl, rfl⟩)

/-- An expression with no plain value is stopped in both sessions. -/
theorem stopped_eval (hd : r.Distinct) {e : Expr}
    (hlook : ∀ h property, Alike r failed path BlockedAnswer (lookup r fuel h property)
      (lookup r fuel h property))
    (hnone : Plain.eval r (some h) e = none) {a b : Except EvalError Value} {s' t' : Session}
    (hx : (e.eval (elementScope r (lookup r fuel) h)).run.run s = some (a, s'))
    (hy : (e.eval (elementScope r (lookup r fuel) h)).run.run t = some (b, t'))
    (hpair : Pair r failed path s t) : Blocked a ∧ Blocked b ∧ Stopped r failed path s' t' := by
  rcases alike_eval hlook h e hx hy hpair with ⟨_, hpair'⟩ | hstopped
  · -- Without a cycle on record the second session has the plain value, but there is none.
    obtain ⟨_, hagree⟩ := rel_elementScope (rel_lookup hd fuel) h e hy hpair'.right_calm
    obtain ⟨_, hv⟩ := hagree hpair.right.sound
    rw [hnone] at hv
    cases hv
  · exact hstopped

/-- A property with no plain value is stopped in both sessions, if lookups of the properties that it
reads go alike. -/
theorem stopped_lookupStep (hd : r.Distinct) (hpath : Valueless r (Plain.lookup r) path)
    (hlook : ∀ {failed : Prop} {path : List PropertyKey}, Valueless r (Plain.lookup r) path →
      ∀ h property, Alike r failed path BlockedAnswer (lookup r fuel h property)
        (lookup r fuel h property))
    (hnone : Plain.lookup r h property = none) {a b : Option (Except EvalError Value)}
    {s' t' : Session} (hx : (lookupStep r (lookup r fuel) h property).run s = some (a, s'))
    (hy : (lookupStep r (lookup r fuel) h property).run t = some (b, t'))
    (hpair : Pair r failed path s t) :
    BlockedAnswer a ∧ BlockedAnswer b ∧ Stopped r failed path s' t' := by
  obtain ⟨entry, e, he, hp, heval⟩ := exists_of_unsettled hnone
  have hpath' := hpath.cons hd he hnone
  rcases unsettled_cases hpair.right hnone he hp hy with
    ⟨hf, _⟩ | ⟨hin, rfl, rfl⟩ | ⟨hnin, vt, t₁, ht, rfl, rfl⟩
  · exact hf.elim
  · have hcycle : (recordCycle (entry.primary, property) t).circular = some
        (.circularProperty entry.primary (cycle (entry.primary, property) path)) := by
      rw [recordCycle, hpair.right_calm, hpair.right.inProgress]
      rfl
    rcases unsettled_cases hpair.left hnone he hp hx with
      ⟨hfailed, hblocked, rfl⟩ | ⟨_, rfl, rfl⟩ | ⟨hnin, _⟩
    · exact ⟨hblocked, ⟨_, rfl, _, _, rfl⟩, hpair.left.mono fun _ => trivial,
        ⟨_, _, hcycle⟩, .inr ⟨hfailed, hpair.left_calm⟩⟩
    · -- Both are at the same place of the same path, so they record the same cycle.
      refine ⟨⟨_, rfl, _, _, rfl⟩, ⟨_, rfl, _, _, rfl⟩,
        (hpair.left.recordCycle _).mono fun _ => trivial, ⟨_, _, hcycle⟩, .inl ?_⟩
      rw [hcycle, recordCycle, hpair.left_calm, hpair.left.inProgress]
      rfl
    · exact absurd hin hnin
  · rcases unsettled_cases hpair.left hnone he hp hx with
      ⟨hfailed, hblocked, rfl⟩ | ⟨hin, _⟩ | ⟨_, vs, s₁, hs, rfl, rfl⟩
    · -- The second session goes on alone, to a cycle: it goes like itself.
      obtain ⟨_, hblocked', hstopped⟩ :=
        stopped_eval hd (hlook hpath') heval ht ht (hpair.right_self.enter _)
      exact ⟨hblocked, ⟨_, rfl, hblocked'⟩, hpair.left.mono fun _ => trivial, hstopped.cycle,
        .inr ⟨hfailed, hpair.left_calm⟩⟩
    · exact absurd hin hnin
    · obtain ⟨hvs, hvt, hstopped⟩ :=
        stopped_eval hd (hlook hpath') heval hs ht (hpair.enter _)
      exact ⟨⟨_, rfl, hvs⟩, ⟨_, rfl, hvt⟩,
        hstopped.left.leave hd he (.inr ⟨trivial, hnone, hvs⟩), hstopped.cycle, hstopped.same⟩

/-- A lookup goes alike in two sessions, if no property under evaluation has a plain value. -/
theorem alike_lookup (hd : r.Distinct) (hpath : Valueless r (Plain.lookup r) path) (fuel : Nat)
    (h : Handle) (property : String) :
    Alike r failed path BlockedAnswer (lookup r fuel h property) (lookup r fuel h property) := by
  induction fuel generalizing failed path h property with
  | zero => exact fun _ _ _ hrun => nomatch hrun
  | succ fuel ih =>
    intro s a s' hx t b t' hy hpair
    cases hplain : Plain.lookup r h property with
    | some v =>
      obtain ⟨n, hn⟩ := Plain.lookup_eq_some_iff_within.mp hplain
      have hpath' := hpath.of_extension (Plain.lookup_of_within n)
      obtain ⟨rfl, hcs, hs'⟩ := settled_lookup hd hpath' _ h property hx hpair.left hn
      obtain ⟨rfl, hct, ht'⟩ := settled_lookup hd hpath' _ h property hy hpair.right hn
      exact .inl ⟨rfl, hs', ht', hcs.trans hpair.left_calm, hct.trans hpair.right_calm⟩
    | none => exact .inr (stopped_lookupStep hd hpath ih hplain hx hy hpair)

/-! ## Questions and answers -/

/-- What a session answers to a question. -/
abbrev Answer := Except ResolveError (Option (Except EvalError Value))

/-- The session after some questions, each for a property of an element. -/
def after (r : Registry) (earlier : List (Handle × String)) : Session :=
  earlier.foldl (fun s q => ((evaluate r q.1 q.2).run.run s).2) {}

/-- The answer to a question after others. -/
def answer (r : Registry) (earlier : List (Handle × String)) (q : Handle × String) : Answer :=
  ((evaluate r q.1 q.2).run.run (after r earlier)).1

/-- Some question was answered with an error that ends the work on the document. -/
def FailedBefore (r : Registry) (earlier : List (Handle × String)) : Prop :=
  ∃ before q error, before ++ [q] <+: earlier ∧ answer r before q = .error error

/-- A session between questions. -/
structure AtRest (r : Registry) (failed : Prop) (s : Session) : Prop where
  on : On r failed [] s
  calm : s.circular = none

theorem AtRest.init : AtRest r failed {} := ⟨.init, rfl⟩

theorem AtRest.mono {failed' : Prop} (himp : failed → failed') (hs : AtRest r failed s) :
    AtRest r failed' s :=
  ⟨hs.on.mono himp, hs.calm⟩

/-- How a question is answered, next to what a new session answers: in the same way; or it is fatal in
a new session only, since its failure was kept. -/
inductive Answered (r : Registry) (failed : Prop) (fresh : Answer) : Answer × Session → Prop
  | same {a : Option (Except EvalError Value)} {s : Session} :
      fresh = .ok a → AtRest r failed s → Answered r failed fresh (.ok a, s)
  | fatal {error : ResolveError} {s : Session} :
      fresh = .error error → AtRest r True s → Answered r failed fresh (.error error, s)
  | kept {selector : String} {names : List String} {value : Except EvalError Value} {s : Session} :
      failed → fresh = .error (.circularProperty selector names) → Blocked value →
      AtRest r True s → Answered r failed fresh (.ok (some value), s)

/-- One more question. -/
theorem answered_evaluate (hd : r.Distinct) (hs : AtRest r failed s) (q : Handle × String) :
    Answered r failed (answer r [] q) ((evaluate r q.1 q.2).run.run s) := by
  obtain ⟨a, s', hx, _⟩ := returns_lookup .init q.1 q.2 hs.on.inProgress
  obtain ⟨b, t', hy, _⟩ := returns_lookup (r := r) (s := {}) .init q.1 q.2 rfl
  rcases alike_lookup hd .nil (budget r) q.1 q.2 hx hy ⟨hs.on, .init, hs.calm, rfl⟩ with
    ⟨rfl, hpair⟩ | ⟨⟨value, rfl, hblocked⟩, _, hstopped⟩
  · have hfresh : answer r [] q = .ok a := congrArg Prod.fst (run_settle_calm hy hpair.right_calm)
    rw [evaluate, run_settle_calm hx hpair.left_calm]
    exact .same hfresh ⟨hpair.left, hpair.left_calm⟩
  · obtain ⟨selector, names, hcycle⟩ := hstopped.cycle
    have hfresh : answer r [] q = .error (.circularProperty selector names) :=
      congrArg Prod.fst (run_settle_cycle hy hcycle)
    rcases hstopped.same with hsame | ⟨hfailed, hnone⟩
    · rw [evaluate, run_settle_cycle hx (hsame.trans hcycle)]
      exact .fatal hfresh ⟨⟨hstopped.left.inProgress, hstopped.left.memo⟩, rfl⟩
    · rw [evaluate, run_settle_calm hx hnone]
      exact .kept hfailed hfresh hblocked ⟨hstopped.left, hnone⟩

/-- One question more is asked in the session that the others leave. -/
theorem after_append (earlier : List (Handle × String)) (q : Handle × String) :
    after r (earlier ++ [q]) = ((evaluate r q.1 q.2).run.run (after r earlier)).2 := by
  rw [after, List.foldl_append]
  rfl

theorem FailedBefore.append {earlier : List (Handle × String)} (hf : FailedBefore r earlier)
    (q : Handle × String) : FailedBefore r (earlier ++ [q]) := by
  obtain ⟨before, q', error, hpre, herror⟩ := hf
  exact ⟨before, q', error, hpre.trans (List.prefix_append _ _), herror⟩

/-- A session between questions keeps failures only if a question has failed. -/
theorem atRest_after (hd : r.Distinct) (earlier : List (Handle × String)) :
    AtRest r (FailedBefore r earlier) (after r earlier) := by
  induction earlier using List.reverseRecOn with
  | nil => exact .init
  | append_singleton earlier q ih =>
    have hanswered := answered_evaluate hd ih q
    rw [after_append]
    cases hresult : (evaluate r q.1 q.2).run.run (after r earlier) with
    | mk given s =>
      rw [hresult] at hanswered
      cases hanswered with
      | same hfresh hs => exact hs.mono fun hf => hf.append q
      | fatal hfresh hs =>
        exact hs.mono fun _ => ⟨earlier, q, _, List.prefix_rfl, congrArg Prod.fst hresult⟩
      | kept hfailed hfresh hblocked hs => exact hs.mono fun _ => hfailed.append q

/-- **Earlier questions do not change answers.** The answer to a question is the one of a new session;
unless a question before it was fatal. Then a question that is fatal in a new session may be answered
as a property that is blocked. -/
theorem answer_eq_fresh (tree : List Node) (hd : (Registry.build tree).value.Distinct)
    (earlier : List (Handle × String)) (q : Handle × String) :
    answer (Registry.build tree).value earlier q = answer (Registry.build tree).value [] q ∨
    FailedBefore (Registry.build tree).value earlier ∧
      (∃ selector names, answer (Registry.build tree).value [] q
        = .error (.circularProperty selector names)) ∧
      ∃ selector property, answer (Registry.build tree).value earlier q
        = .ok (some (.error (.circularProperty selector property))) := by
  have hanswered := answered_evaluate hd (atRest_after hd earlier) q
  rw [answer]
  cases hresult : (evaluate (Registry.build tree).value q.1 q.2).run.run
      (after (Registry.build tree).value earlier) with
  | mk given s =>
    rw [hresult] at hanswered
    cases hanswered with
    | same hfresh _ => exact .inl hfresh.symm
    | fatal hfresh _ => exact .inl hfresh.symm
    | kept hfailed hfresh hblocked _ =>
      obtain ⟨selector, property, rfl⟩ := hblocked
      exact .inr ⟨hfailed, ⟨_, _, hfresh⟩, selector, property, rfl⟩

/-- Two properties that read each other, and one that reads nothing. -/
def mirror : List Node :=
  [.element ⟨"div", .ofList [("id", "a")], [.style
    { inline := .ofList
        [("x", .property none "y"), ("y", .property none "x"), ("color", .literal "red")] }]⟩]

theorem answer_eq_fresh_mirror :
    (Registry.build mirror).value.Distinct ∧
      answer (Registry.build mirror).value [(0, "x"), (0, "y")] (0, "color")
        = .ok (some (.ok (.string "red"))) := by
  have hd : (Registry.build mirror).value.Distinct := by
    rw [Registry.build_eq_foldlM]
    decide
  have hfresh : answer (Registry.build mirror).value [] (0, "color")
      = .ok (some (.ok (.string "red"))) := by
    rw [Registry.build_eq_foldlM]
    rfl
  refine ⟨hd, ?_⟩
  rcases answer_eq_fresh mirror hd [(0, "x"), (0, "y")] (0, "color") with
    heq | ⟨_, ⟨_, _, herror⟩, _⟩
  · rw [heq, hfresh]
  · rw [hfresh] at herror
    cases herror

/-- The same question twice: the second answer is not the first one. -/
theorem answer_changes_mirror :
    answer (Registry.build mirror).value [] (0, "x")
        = .error (.circularProperty "#a" ["x", "y", "x"]) ∧
      answer (Registry.build mirror).value [(0, "x")] (0, "x")
        = .ok (some (.error (.circularProperty "#a" "x"))) := by
  rw [Registry.build_eq_foldlM]
  exact ⟨rfl, rfl⟩

end Stencil.Session
