import Stencil.Note
import Stencil.OrderedMap

/-!
# Results with notes: laws

What holds of the result of a computation that makes notes, whatever the notes are.

* `Logged.foldlM_induction` — a property that every step keeps holds in the end
* `Checked.outcome_bind_eq_ok_iff` — what a sequence succeeds with
* `Checked.keys_of_mapM`, `Checked.rel_get?_of_mapM` — what a map is taken to by steps that succeed
* `Checked.bind_congr_ok` — what follows a computation matters for the result it succeeds with only
* `Checked.Yields` — a property of the result of a computation that may fail, if it does not fail
* `Checked.Raises` — a property of its error, if it does
-/

namespace Stencil

namespace Logged

variable {α β : Type}

theorem value_foldlM (f : α → β → Logged α) (init : α) (l : List β) :
    (l.foldlM f init).value = l.foldl (fun a b => (f a b).value) init := by
  induction l generalizing init with
  | nil => rfl
  | cons b rest ih => exact ih (f init b).value

/-- A property that every step keeps holds in the end. -/
theorem foldlM_induction {P : α → Prop} {f : α → β → Logged α} {init : α} {l : List β} (h : P init)
    (step : ∀ a, P a → ∀ b ∈ l, P (f a b).value) : P (l.foldlM f init).value := by
  induction l generalizing init with
  | nil => exact h
  | cons b rest ih =>
    exact ih (step init h b List.mem_cons_self) fun a ha b hb =>
      step a ha b (List.mem_cons_of_mem _ hb)

/-- What comes after a computation is asked for its value only. -/
theorem bind_congr_value {x : Logged α} {f g : α → Logged β} (h : f x.value = g x.value) :
    x >>= f = x >>= g := by
  show Logged.mk (f x.value).value _ = Logged.mk (g x.value).value _
  rw [h]

end Logged

namespace Checked

variable {ε α β γ : Type}

@[simp] theorem outcome_lift (x : Logged α) : outcome (ExceptT.lift x : Checked ε α) = .ok x.value :=
  rfl

@[simp] theorem outcome_adapt {ε' : Type} (f : ε → ε') (x : Checked ε α) :
    outcome (x.adapt f : Checked ε' α) = (outcome x).mapError f := rfl

/-- A sequence succeeds where both of its steps do. -/
theorem outcome_bind_eq_ok_iff {x : Checked ε α} {f : α → Checked ε β} {b : β} :
    (x >>= f).outcome = .ok b ↔ ∃ a, x.outcome = .ok a ∧ (f a).outcome = .ok b := by
  rw [outcome_bind]
  cases x.outcome with
  | error e => simp [Except.bind]
  | ok a => simp [Except.bind]

/-- Keys stay, in their order. -/
theorem keys_of_mapM {f : α → β → Checked ε γ} {m : OrderedMap α β} {n : OrderedMap α γ}
    (h : (m.mapM f).outcome = .ok n) : n.keys = m.keys := by
  obtain ⟨r, -, hn⟩ := outcome_bind_eq_ok_iff.mp h
  cases hn
  exact r.2

/-- The result binds the keys that the map binds, each to what the step on its value succeeds with. -/
theorem rel_get?_of_mapM [DecidableEq α] {f : α → β → Checked ε γ} {m : OrderedMap α β}
    {n : OrderedMap α γ} (h : (m.mapM f).outcome = .ok n) (k : α) :
    Option.Rel (fun v w => (f k v).outcome = .ok w) (m.get? k) (n.get? k) := by
  obtain ⟨r, hr, hn⟩ := outcome_bind_eq_ok_iff.mp h
  cases hn
  show Option.Rel _ (m.entries.lookup k) (r.1.lookup k)
  clear h
  generalize m.entries = l at r hr
  induction l with
  | nil =>
    cases hr
    exact .none
  | cons e rest ih =>
    obtain ⟨w, hw, htail⟩ := outcome_bind_eq_ok_iff.mp hr
    obtain ⟨tail, hrest, hr⟩ := outcome_bind_eq_ok_iff.mp htail
    cases hr
    rw [OrderedMap.lookup_cons_eq_ite, OrderedMap.lookup_cons_eq_ite]
    by_cases hk : e.1 = k
    · rw [if_pos hk, if_pos hk]
      exact .some (hk ▸ hw)
    · rw [if_neg hk, if_neg hk]
      exact ih tail hrest

/-- What comes after a computation matters for the result it succeeds with only. -/
theorem bind_congr_ok {x : Checked ε α} {f g : α → Checked ε β}
    (h : ∀ a, x.outcome = .ok a → f a = g a) : x >>= f = x >>= g := by
  refine ExceptT.ext ?_
  rw [ExceptT.run_bind, ExceptT.run_bind]
  refine Logged.bind_congr_value ?_
  cases hx : x.run.value with
  | ok a => exact congrArg ExceptT.run (h a hx)
  | error e => rfl

/-- If the computation succeeds, its result has the property. -/
def Yields (x : Checked ε α) (P : α → Prop) : Prop := ∀ ⦃a : α⦄, x.outcome = .ok a → P a

namespace Yields

theorem pure {P : α → Prop} {a : α} (h : P a) : Yields (pure a : Checked ε α) P := by
  intro b hb
  cases hb
  exact h

theorem throw {P : α → Prop} (e : ε) : Yields (throw e : Checked ε α) P := fun _ h => nomatch h

theorem lift {P : α → Prop} {x : Logged α} (h : P x.value) :
    Yields (ExceptT.lift x : Checked ε α) P := by
  intro b hb
  cases hb
  exact h

theorem bind {x : Checked ε α} {f : α → Checked ε β} {P : α → Prop} {Q : β → Prop}
    (hx : Yields x P) (hf : ∀ a, P a → Yields (f a) Q) : Yields (x >>= f) Q := by
  intro b hb
  obtain ⟨a, ha, hb⟩ := outcome_bind_eq_ok_iff.mp hb
  exact hf a (hx ha) hb

theorem adapt {ε' : Type} {x : Checked ε α} {P : α → Prop} (hx : Yields x P) (f : ε → ε') :
    Yields (x.adapt f) P := by
  intro a ha
  rw [outcome_adapt] at ha
  cases h : x.outcome with
  | error e => rw [h] at ha; cases ha
  | ok b =>
    rw [h] at ha
    cases ha
    exact hx h

/-- A step of which nothing needs to be known. -/
theorem bind_any {x : Checked ε α} {f : α → Checked ε β} {Q : β → Prop}
    (hf : ∀ a, Yields (f a) Q) : Yields (x >>= f) Q :=
  bind (P := fun _ => True) (fun _ _ => trivial) fun a _ => hf a

/-- A property of each result of a list of steps. -/
theorem mapM {P : β → Prop} {f : α → Checked ε β} (h : ∀ a, Yields (f a) P) (l : List α) :
    Yields (l.mapM f) fun bs => ∀ b ∈ bs, P b := by
  induction l with
  | nil => exact pure fun _ hb => nomatch hb
  | cons a rest ih =>
    rw [List.mapM_cons]
    refine bind (h a) fun b hb => bind ih fun bs hbs => pure ?_
    exact List.forall_mem_cons.mpr ⟨hb, hbs⟩

/-- A property of each value of a map whose values come from steps. -/
theorem mapM_entries {P : γ → Prop} {f : α → β → Checked ε γ} (h : ∀ k v, Yields (f k v) P)
    (m : OrderedMap α β) : Yields (m.mapM f) fun n => ∀ e ∈ n.entries, P e.2 := by
  suffices ∀ l : List (α × β), Yields (OrderedMap.entriesM f l) fun r => ∀ e ∈ r.1, P e.2 from
    bind (this m.entries) fun r hr => pure hr
  intro l
  induction l with
  | nil => exact pure fun _ he => nomatch he
  | cons e rest ih =>
    refine bind (h e.1 e.2) fun w hw => bind ih fun tail htail => pure ?_
    exact List.forall_mem_cons.mpr ⟨hw, htail⟩

end Yields

/-- If the computation fails, its error has the property. -/
def Raises (x : Checked ε α) (P : ε → Prop) : Prop := ∀ ⦃e : ε⦄, x.outcome = .error e → P e

namespace Raises

variable {P : ε → Prop}

theorem of_ok {x : Checked ε α} {a : α} (h : x.outcome = .ok a) : Raises x P := by
  intro e he
  rw [h] at he
  cases he

theorem pure (a : α) : Raises (pure a : Checked ε α) P := of_ok rfl

theorem throw {e : ε} (h : P e) : Raises (throw e : Checked ε α) P := by
  intro e' he
  cases he
  exact h

/-- The second of two steps is taken with what the first one succeeds with. -/
theorem bind {x : Checked ε α} {f : α → Checked ε β} (hx : Raises x P)
    (hf : ∀ a, x.outcome = .ok a → Raises (f a) P) : Raises (x >>= f) P := by
  intro e he
  rw [outcome_bind] at he
  cases ha : x.outcome with
  | error e' =>
    rw [ha] at he
    cases he
    exact hx ha
  | ok a =>
    rw [ha] at he
    exact hf a ha he

theorem mapM {f : α → Checked ε β} {l : List α} (h : ∀ a ∈ l, Raises (f a) P) :
    Raises (l.mapM f) P := by
  induction l with
  | nil => exact pure _
  | cons a rest ih =>
    rw [List.forall_mem_cons] at h
    rw [List.mapM_cons]
    exact bind h.1 fun _ _ => bind (ih h.2) fun _ _ => pure _

theorem mapM_entries {f : α → β → Checked ε γ} {m : OrderedMap α β}
    (h : ∀ e ∈ m.entries, Raises (f e.1 e.2) P) : Raises (m.mapM f) P := by
  suffices ∀ l : List (α × β), (∀ e ∈ l, Raises (f e.1 e.2) P) →
      Raises (OrderedMap.entriesM f l) P from
    bind (this m.entries h) fun _ _ => pure _
  intro l hl
  induction l with
  | nil => exact pure _
  | cons e rest ih =>
    rw [List.forall_mem_cons] at hl
    exact bind hl.1 fun _ _ => bind (ih hl.2) fun _ _ => pure _

end Raises

end Checked

end Stencil
