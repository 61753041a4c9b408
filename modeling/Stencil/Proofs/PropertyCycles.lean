import Stencil.Proofs.Budget
import Stencil.Proofs.DependencyCycles
import Stencil.Proofs.References
import Stencil.Proofs.Resolving

/-!
# Properties of an element that read each other

While the properties of one element are evaluated, those of the elements that it reads are in the memo
already. So the properties under evaluation all belong to that element, each one is read by the one
before it, and a cycle that is found among them is a cycle of the element alone.

* `Keeps` — an invariant of sessions that a step of evaluation keeps
* `Loop` — properties of one element that read each other in a circle
* `Inside` — only properties of one element are under evaluation
* `keeps_lookup_own` — a lookup inside of an element stays inside
-/

namespace Stencil.Session

open Plain

variable {r : Registry} {look : Lookup} {h : Handle} {entry : Entry} {property : String}
  {s s' : Session} {I : Session → Prop}

/-! ## Invariants of evaluation -/

/-- If the step comes back from a session with `I`, it leaves one with `I`. -/
def Keeps {α : Type} (I : Session → Prop) (x : Evaluating α) : Prop :=
  ∀ ⦃s : Session⦄ ⦃a : α⦄ ⦃s' : Session⦄, I s → x.run s = some (a, s') → I s'

/-- Keeping an invariant, as a relation to anything else. -/
def keeping (I : Session → Prop) : Simulation Evaluating Option where
  rel x _ := Keeps I x
  rel_pure a s b s' hs hrun := by
    cases hrun
    exact hs
  rel_bind {α β x y f g} hx hf s b s' hs hrun := by
    obtain ⟨⟨a, s₁⟩, hx', hf'⟩ := Option.bind_eq_some_iff.mp hrun
    exact hf a (hx hs hx') hf'

theorem keeps_pure {α : Type} (a : α) : Keeps I (pure a) := (keeping I).rel_pure a

/-- What is done after a step needs to be looked at alone. The relation is to `none`, which is a step
of `Option` like any other. -/
theorem keeps_bind {α β : Type} {x : Evaluating α} {f : α → Evaluating β} (hx : Keeps I x)
    (hf : ∀ a, Keeps I (f a)) : Keeps I (x >>= f) :=
  (keeping I).rel_bind (y := none) (g := fun _ => none) hx hf

section Reads

variable (hnote : ∀ n, Keeps I (note n))
include hnote

/-- Reading a property keeps what its lookup keeps. -/
theorem keeps_readFrom {selector : Option Selector}
    (hlook : ∀ target, target? r (some h) selector = some target → Keeps I (look target property)) :
    Keeps I (readFrom r look h selector property) := by
  cases selector with
  | none =>
    refine keeps_bind (hlook h rfl) fun answer => ?_
    cases answer <;> exact keeps_pure _
  | some selector =>
    dsimp only [readFrom]
    cases hfirst : r.first selector with
    | none => exact keeps_bind (hnote _) fun _ => keeps_pure _
    | some target =>
      refine keeps_bind (hlook target hfirst) fun answer => ?_
      cases answer with
      | some value => exact keeps_pure _
      | none => exact keeps_bind (hnote _) fun _ => keeps_pure _

/-- An expression of an element keeps what the lookups of the properties that it mentions keep. -/
theorem keeps_elementScope {e : Expr}
    (hlook : ∀ slot, Refers r (some h) e slot → Keeps I (look slot.1 slot.2)) :
    Keeps I (e.eval (elementScope r look h)).run := by
  refine (keeping I).rel_eval (s := elementScope r look h) (t := Plain.scope r none) hnote e
    fun selector name hmem => ?_
  exact keeps_readFrom hnote fun target htarget => hlook (target, name) ⟨selector, hmem, htarget⟩

/-- The same of an expression outside of all elements. -/
theorem keeps_documentScope {e : Expr}
    (hlook : ∀ slot, Refers r none e slot → Keeps I (look slot.1 slot.2)) :
    Keeps I (e.eval (documentScope r look)).run := by
  refine (keeping I).rel_eval (s := documentScope r look) (t := Plain.scope r none) hnote e
    fun selector name hmem => ?_
  show Keeps I ((documentScope r look).read selector name)
  dsimp only [documentScope]
  cases htarget : selector.bind r.first with
  | none => exact keeps_pure _
  | some target =>
    have hrefers : Refers r none e (target, name) := by
      cases selector with
      | none => cases htarget
      | some selector => exact ⟨some selector, hmem, htarget⟩
    refine keeps_readFrom hnote fun target' htarget' => ?_
    obtain rfl := Option.some.inj htarget'
    exact hlook _ hrefers

end Reads

/-! ## Properties that are in the memo -/

/-- A lookup of a property that is in the memo, if it is declared at all, changes nothing. -/
theorem eq_of_lookup_kept {fuel : Nat} {answer : Option (Except EvalError Value)}
    (hkept : ∀ entry e, r.entry? h = some entry → entry.element.inlineProperty? property = some e →
      s.memo.lookup (entry.primary, property) ≠ none)
    (hrun : (lookup r fuel h property).run s = some (answer, s')) : s' = s := by
  cases fuel with
  | zero => cases hrun
  | succ fuel =>
    cases lookupStep_cases hrun with
    | absent | known | undeclared => rfl
    | circular he hm hp => exact absurd hm (hkept _ _ he hp)
    | evaluated he hm hp => exact absurd hm (hkept _ _ he hp)

/-- A declared property is in the memo once it has been looked up with nothing under evaluation. -/
theorem lookup_memo_of_lookup {fuel : Nat} {e : Expr} {answer : Option (Except EvalError Value)}
    (he : r.entry? h = some entry) (hp : entry.element.inlineProperty? property = some e)
    (hrest : s.inProgress = []) (hrun : (lookup r fuel h property).run s = some (answer, s')) :
    s'.memo.lookup (entry.primary, property) ≠ none := by
  cases fuel with
  | zero => cases hrun
  | succ fuel =>
    cases lookupStep_cases hrun with
    | absent he' => simp [he] at he'
    | known he' hm =>
      obtain rfl := Option.some.inj (he.symm.trans he')
      simp [hm]
    | undeclared he' hm hp' =>
      obtain rfl := Option.some.inj (he.symm.trans he')
      simp [hp] at hp'
    | circular he' hm hp' hin => simp [hrest] at hin
    | evaluated he' hm hp' hin heval =>
      obtain rfl := Option.some.inj (he.symm.trans he')
      simp [leave]

/-! ## Cycles of one element -/

/-- Properties of one element that read each other in a circle: all of them differ, but for the first
one, which stands at the end again. -/
def Loop (r : Registry) (h : Handle) (cycle : List String) : Prop :=
  ∃ x inner, cycle = x :: inner ++ [x] ∧ (x :: inner).Nodup ∧
    cycle.IsChain fun a b => Reads r (h, a) (h, b)

/-- The cycle through a property, if all properties under evaluation are of one element. -/
theorem cycle_own (primary x : String) (names : List String) :
    cycle (primary, x) (names.map (primary, ·)) = x :: (names.takeWhile (· ≠ x)).reverse ++ [x] := by
  have hwhile : (names.map (primary, ·)).takeWhile (· ≠ (primary, x))
      = (names.takeWhile (· ≠ x)).map (primary, ·) := by
    rw [List.takeWhile_map]
    simp [Function.comp_def]
  simp only [cycle]
  rw [hwhile]
  simp [Function.comp_def]

/-- A property that is read again closes a loop. The properties under evaluation are listed with the
innermost first, each of them read by the next one. -/
theorem loop_of_linked {x : String} {names : List String} (hnodup : names.Nodup)
    (hlinked : (x :: names).IsChain fun inner outer => Reads r (h, outer) (h, inner))
    (hx : x ∈ names) : Loop r h (x :: (names.takeWhile (· ≠ x)).reverse ++ [x]) :=
  ⟨x, (names.takeWhile (· ≠ x)).reverse, rfl, nodup_around hnodup, isChain_around hlinked hx⟩

/-! ## Inside of an element -/

/-- Only properties of one element are under evaluation, the properties of `kept` are in the memo, and
a cycle that is on record is one of the element. -/
structure Inside (r : Registry) (h : Handle) (primary : String) (kept : List PropertyKey)
    (names : List String) (s : Session) : Prop where
  inProgress : s.inProgress = names.map (primary, ·)
  memo : ∀ key ∈ kept, s.memo.lookup key ≠ none
  circular : ∀ error, s.circular = some error →
    ∃ cycle, error = .circularProperty primary cycle ∧ Loop r h cycle

namespace Inside

variable {primary x : String} {kept : List PropertyKey} {names : List String}

theorem keeps_note (n : Note) : Keeps (Inside r h primary kept names) (note n) := by
  intro s a s' hs hrun
  cases hrun
  exact ⟨hs.inProgress, hs.memo, hs.circular⟩

theorem enter (hs : Inside r h primary kept names s) (x : String) :
    Inside r h primary kept (x :: names) (enter (primary, x) s) where
  inProgress := congrArg ((primary, x) :: ·) hs.inProgress
  memo := hs.memo
  circular := hs.circular

theorem leave (hs : Inside r h primary kept (x :: names) s) (value : Except EvalError Value) :
    Inside r h primary kept names (leave (primary, x) value s) where
  inProgress := by
    show s.inProgress.tail = _
    rw [hs.inProgress, List.map_cons, List.tail_cons]
  memo := by
    intro key hkey
    rw [Session.leave, List.lookup_cons]
    split
    · simp
    · exact hs.memo key hkey
  circular := hs.circular

theorem recordCycle (hs : Inside r h primary kept names s)
    (hloop : Loop r h (cycle (primary, x) (names.map (primary, ·)))) :
    Inside r h primary kept names (recordCycle (primary, x) s) where
  inProgress := hs.inProgress
  memo := hs.memo
  circular := by
    intro error herror
    rw [Session.recordCycle] at herror
    cases hc : s.circular with
    | some earlier =>
      rw [hc] at herror
      exact hs.circular error (hc.trans herror)
    | none =>
      rw [hc, hs.inProgress] at herror
      cases herror
      exact ⟨_, rfl, hloop⟩

end Inside

/-- What the properties of an element read in other elements, if it is declared there, is in a list of
properties. -/
def OthersKept (r : Registry) (h : Handle) (kept : List PropertyKey) : Prop :=
  ∀ ⦃name slot entry e⦄, Reads r (h, name) slot → slot.1 ≠ h → r.entry? slot.1 = some entry →
    entry.element.inlineProperty? slot.2 = some e → (entry.primary, slot.2) ∈ kept

/-- A lookup inside of an element stays inside, if what the element reads in others is in the memo. -/
theorem keeps_lookup_own {kept : List PropertyKey} (he : r.entry? h = some entry)
    (hothers : OthersKept r h kept) (fuel : Nat) {names : List String} (hnodup : names.Nodup)
    {x : String} (hlinked : (x :: names).IsChain fun inner outer => Reads r (h, outer) (h, inner)) :
    Keeps (Inside r h entry.primary kept names) (lookup r fuel h x) := by
  induction fuel generalizing names x with
  | zero => exact fun _ _ _ _ hrun => nomatch hrun
  | succ fuel ih =>
    intro s answer s' hs hrun
    cases lookupStep_cases hrun with
    | absent | known | undeclared => exact hs
    | circular he' hm hp hin =>
      obtain rfl := Option.some.inj (he.symm.trans he')
      have hx : x ∈ names := by
        rw [hs.inProgress] at hin
        simpa using hin
      refine hs.recordCycle ?_
      rw [cycle_own]
      exact loop_of_linked hnodup hlinked hx
    | @evaluated _ e value s₁ he' hm hp hin heval =>
      obtain rfl := Option.some.inj (he.symm.trans he')
      have hx : x ∉ names := by
        rw [hs.inProgress] at hin
        simpa using hin
      refine Inside.leave (keeps_elementScope Inside.keeps_note (fun slot hslot => ?_)
        (hs.enter x) heval) value
      have hreads : Reads r (h, x) slot := ⟨e, bound?_eq_some_iff.mpr ⟨entry, he, hp⟩, hslot⟩
      by_cases hown : slot.1 = h
      · obtain ⟨h', y⟩ := slot
        obtain rfl : h' = h := hown
        exact ih (List.nodup_cons.mpr ⟨hx, hnodup⟩) (List.IsChain.cons_cons hreads hlinked)
      · intro t answer t' ht hrun
        rw [eq_of_lookup_kept (fun other e hother hdecl =>
          ht.memo _ (hothers hreads hown hother hdecl)) hrun]
        exact ht

end Stencil.Session
