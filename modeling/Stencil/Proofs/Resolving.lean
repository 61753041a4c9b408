import Mathlib.Data.List.Forall2
import Stencil.Resolution

/-!
# Steps of a resolution

A resolution goes on from one session to the next until it fails. `Ensures I x P` says what holds if
it does not fail: the invariant `I` of sessions is kept, and the result has the property `P`. There
is one rule for each way in which steps are put together.

* `Ensures.bind` — one step after another
* `Ensures.mapM` — a step for each entry of a list
* `Ensures.mapM_entries` — a step for each entry of a map

`Leads P x Q E` says where a step leads in either case: from a session with `P` to a result and a
session with `Q`, or to an error with `E`. The steps of a list may each add to what holds.
-/

namespace Stencil.Session

variable {α β : Type} {I : Session → Prop}

/-! ## Runs -/

theorem run_bind_ok {x : Resolving α} {f : α → Resolving β} {a : α} {s s' : Session}
    (hx : x.run.run s = (.ok a, s')) : (x >>= f).run.run s = (f a).run.run s' := by
  rw [ExceptT.run_bind, StateT.run_bind, hx]
  rfl

theorem run_bind_error {x : Resolving α} {f : α → Resolving β} {error : ResolveError}
    {s s' : Session} (hx : x.run.run s = (.error error, s')) :
    (x >>= f).run.run s = (.error error, s') := by
  rw [ExceptT.run_bind, StateT.run_bind, hx]
  rfl

theorem run_settle_exhausted {x : Evaluating α} {s : Session} (hx : x.run s = none) :
    (settle x).run.run s = (.error .exhausted, s) := by
  rw [StateT.run] at hx
  simp only [settle, StateT.run, ExceptT.run_mk, hx]

theorem run_settle_calm {x : Evaluating α} {a : α} {s s' : Session}
    (hx : x.run s = some (a, s')) (hc : s'.circular = none) :
    (settle x).run.run s = (.ok a, s') := by
  rw [StateT.run] at hx
  simp only [settle, StateT.run, ExceptT.run_mk, hx, hc]

/-- A cycle on record is reported, and taken off the record. -/
theorem run_settle_cycle {x : Evaluating α} {a : α} {s s' : Session} {error : ResolveError}
    (hx : x.run s = some (a, s')) (hc : s'.circular = some error) :
    (settle x).run.run s = (.error error, { s' with circular := none }) := by
  rw [StateT.run] at hx
  simp only [settle, StateT.run, ExceptT.run_mk, hx, hc]

/-! ## What a step ensures -/

/-- If the step succeeds in a session with `I`, it leaves one with `I`, and its result has `P`. -/
def Ensures (I : Session → Prop) (x : Resolving α) (P : α → Prop) : Prop :=
  ∀ ⦃s : Session⦄ ⦃a : α⦄ ⦃s' : Session⦄, I s → x.run.run s = (.ok a, s') → I s' ∧ P a

namespace Ensures

theorem pure {P : α → Prop} {a : α} (h : P a) : Ensures I (pure a) P := by
  intro s b s' hs hrun
  cases hrun
  exact ⟨hs, h⟩

theorem mono {x : Resolving α} {P Q : α → Prop} (hx : Ensures I x P) (h : ∀ a, P a → Q a) :
    Ensures I x Q :=
  fun _ _ _ hs hrun => (hx hs hrun).imp_right (h _)

theorem bind {x : Resolving α} {f : α → Resolving β} {P : α → Prop} {Q : β → Prop}
    (hx : Ensures I x P) (hf : ∀ a, P a → Ensures I (f a) Q) : Ensures I (x >>= f) Q := by
  intro s b s' hs hrun
  rcases hx' : x.run.run s with ⟨_ | a, s₁⟩
  · rw [run_bind_error hx'] at hrun
    cases hrun
  · rw [run_bind_ok hx'] at hrun
    obtain ⟨hs₁, ha⟩ := hx hs hx'
    exact hf a ha hs₁ hrun

/-- A step for each entry of a list. -/
theorem mapM {f : α → Resolving β} {R : α → β → Prop} {l : List α}
    (h : ∀ a ∈ l, Ensures I (f a) (R a)) : Ensures I (l.mapM f) (List.Forall₂ R l) := by
  induction l with
  | nil => exact pure List.Forall₂.nil
  | cons a rest ih =>
    rw [List.mapM_cons]
    refine bind (h a List.mem_cons_self) fun b hb => ?_
    refine bind (ih fun a ha => h a (List.mem_cons_of_mem _ ha)) fun bs hbs => ?_
    exact pure (List.Forall₂.cons hb hbs)

/-- A step for each entry of a map. The keys stay as they are. -/
theorem mapM_entries {γ : Type} {f : α → β → Resolving γ} {R : α × β → γ → Prop}
    {m : OrderedMap α β} (h : ∀ e ∈ m.entries, Ensures I (f e.1 e.2) (R e)) :
    Ensures I (m.mapM f) fun n =>
      List.Forall₂ (fun e e' => e'.1 = e.1 ∧ R e e'.2) m.entries n.entries := by
  suffices ∀ l : List (α × β), (∀ e ∈ l, Ensures I (f e.1 e.2) (R e)) →
      Ensures I (OrderedMap.entriesM f l) fun r =>
        List.Forall₂ (fun e e' => e'.1 = e.1 ∧ R e e'.2) l r.1 from
    bind (this m.entries h) fun r hr => pure hr
  intro l
  induction l with
  | nil => exact fun _ => pure List.Forall₂.nil
  | cons e rest ih =>
    intro h
    refine bind (h e List.mem_cons_self) fun w hw => ?_
    refine bind (ih fun e he => h e (List.mem_cons_of_mem _ he)) fun tail htail => ?_
    exact pure (List.Forall₂.cons ⟨rfl, hw⟩ htail)

/-- A change of a session that keeps the invariant. -/
theorem modify {f : Session → Session} (h : ∀ s, I s → I (f s)) :
    Ensures I (modify f) fun _ => True := by
  intro s a s' hs hrun
  cases hrun
  exact ⟨h s hs, trivial⟩

/-- A step of evaluation that leaves no cycle on record. -/
theorem settle {x : Evaluating α} {P : α → Prop}
    (h : ∀ s a s', I s → x.run s = some (a, s') → s'.circular = none → I s' ∧ P a) :
    Ensures I (settle x) P := by
  intro s a s' hs hrun
  cases hx : x.run s with
  | none =>
    rw [run_settle_exhausted hx] at hrun
    cases hrun
  | some p =>
    obtain ⟨b, s₁⟩ := p
    cases hc : s₁.circular with
    | some error =>
      rw [run_settle_cycle hx hc] at hrun
      cases hrun
    | none =>
      rw [run_settle_calm hx hc] at hrun
      cases hrun
      exact h s a s' hs hx hc

end Ensures

/-! ## Where a step leads -/

/-- From a session with `P` the step leads to a result and a session with `Q`, or it fails with an
error that has `E`. -/
def Leads (P : Session → Prop) (x : Resolving α) (Q : α → Session → Prop) (E : ResolveError → Prop) :
    Prop :=
  ∀ ⦃s : Session⦄, P s →
    (∀ ⦃a : α⦄ ⦃s' : Session⦄, x.run.run s = (.ok a, s') → Q a s') ∧
    ∀ ⦃error : ResolveError⦄ ⦃s' : Session⦄, x.run.run s = (.error error, s') → E error

namespace Leads

variable {P P' : Session → Prop} {E E' : ResolveError → Prop}

theorem pure {Q : α → Session → Prop} {a : α} (h : ∀ s, P s → Q a s) : Leads P (pure a) Q E := by
  intro s hs
  refine ⟨fun b s' hrun => ?_, fun _ _ hrun => nomatch hrun⟩
  cases hrun
  exact h s hs

theorem mono {x : Resolving α} {Q Q' : α → Session → Prop} (hx : Leads P x Q E)
    (hP : ∀ s, P' s → P s) (hQ : ∀ a s, Q a s → Q' a s) (hE : ∀ error, E error → E' error) :
    Leads P' x Q' E' := by
  intro s hs
  obtain ⟨hok, herror⟩ := hx (hP s hs)
  exact ⟨fun a s' hrun => hQ a s' (hok hrun), fun error s' hrun => hE error (herror hrun)⟩

theorem bind {x : Resolving α} {f : α → Resolving β} {R : α → Session → Prop}
    {Q : β → Session → Prop} (hx : Leads P x R E) (hf : ∀ a, Leads (R a) (f a) Q E) :
    Leads P (x >>= f) Q E := by
  intro s hs
  obtain ⟨hok, herror⟩ := hx hs
  rcases hrun : x.run.run s with ⟨error | a, s₁⟩
  · rw [run_bind_error hrun]
    refine ⟨fun _ _ hb => (nomatch hb), fun error' s' he => ?_⟩
    cases he
    exact herror hrun
  · rw [run_bind_ok hrun]
    exact hf a (hok hrun)

/-- A change of a session. -/
theorem modify {f : Session → Session} {Q : PUnit → Session → Prop} (h : ∀ s, P s → Q ⟨⟩ (f s)) :
    Leads P (modify f) Q E := by
  intro s hs
  refine ⟨fun a s' hrun => ?_, fun _ _ hrun => nomatch hrun⟩
  cases hrun
  exact h s hs

/-- A step of evaluation that comes back leads on, unless it leaves a cycle on record. -/
theorem settle {x : Evaluating α} {Q : α → Session → Prop}
    (h : ∀ s, P s → ∃ a s', x.run s = some (a, s') ∧ (s'.circular = none → Q a s') ∧
      ∀ error, s'.circular = some error → E error) :
    Leads P (settle x) Q E := by
  intro s hs
  obtain ⟨a, s₁, hx, hcalm, hcycle⟩ := h s hs
  cases hc : s₁.circular with
  | none =>
    rw [run_settle_calm hx hc]
    refine ⟨fun b s' hb => ?_, fun _ _ he => nomatch he⟩
    cases hb
    exact hcalm hc
  | some error =>
    rw [run_settle_cycle hx hc]
    refine ⟨fun _ _ hb => (nomatch hb), fun error' s' he => ?_⟩
    cases he
    exact hcycle error hc

/-- A step for each entry of a list. `I done` is what holds when the entries of `done` have had their
steps. -/
theorem mapM {f : α → Resolving β} {I : List α → Session → Prop} {l : List α}
    (h : ∀ done a rest, l = done ++ a :: rest →
      Leads (I done) (f a) (fun _ => I (done ++ [a])) E) :
    Leads (I []) (l.mapM f) (fun _ => I l) E := by
  suffices ∀ rest done, l = done ++ rest → Leads (I done) (rest.mapM f) (fun _ => I l) E from
    this l [] rfl
  intro rest
  induction rest with
  | nil =>
    intro done hl
    rw [hl, List.append_nil]
    exact pure fun s hs => hs
  | cons a rest ih =>
    intro done hl
    rw [List.mapM_cons]
    refine bind (h done a rest hl) fun b => ?_
    refine bind (ih (done ++ [a]) (by rw [hl]; simp)) fun bs => ?_
    exact pure fun s hs => hs

/-- A step for each entry of a map. -/
theorem mapM_entries {γ : Type} {f : α → β → Resolving γ} {I : List (α × β) → Session → Prop}
    {m : OrderedMap α β}
    (h : ∀ done e rest, m.entries = done ++ e :: rest →
      Leads (I done) (f e.1 e.2) (fun _ => I (done ++ [e])) E) :
    Leads (I []) (m.mapM f) (fun _ => I m.entries) E := by
  suffices ∀ rest done, m.entries = done ++ rest →
      Leads (I done) (OrderedMap.entriesM f rest) (fun _ => I m.entries) E from
    bind (this m.entries [] rfl) fun r => pure fun s hs => hs
  intro rest
  induction rest with
  | nil =>
    intro done hm
    rw [hm, List.append_nil]
    exact pure fun s hs => hs
  | cons e rest ih =>
    intro done hm
    refine bind (h done e rest hm) fun w => ?_
    refine bind (ih (done ++ [e]) (by rw [hm]; simp)) fun tail => ?_
    exact pure fun s hs => hs

end Leads

end Stencil.Session
