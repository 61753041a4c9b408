import Stencil.Proofs.Budget

/-!
# Lookups that watch what is under evaluation

A lookup may read properties that read others, and these may come back to the first one. It comes to
an end all the same, because of what is under evaluation meanwhile: never a property twice, and only
properties that some element declares. To say that this holds all along, lookups are compared with
others that look at what is under evaluation whenever a lookup or an expression starts and ends, and
give up if something is out of order.

* `Orderly` — what is under evaluation is in order
* `lookupBy` — a step of a lookup, by how expressions are evaluated
* `guardedLookup` — lookups that give up where it is not, or where it does not become what it was
* `unhindered_lookup` — they do the same as lookups do, whatever the fuel, as long as there is room
* `lookup_comes_back` — lookups have an answer, and nothing is out of order on the way
-/

namespace Stencil.Session

variable {r : Registry} {look look' : Lookup} {h : Handle} {property : String}
  {path : List PropertyKey} {key : PropertyKey} {fuel fuel' : Nat} {α : Type} {x y : Evaluating α}

/-! ## Order -/

/-- Some element has the name, and declares the property. -/
def Declares (r : Registry) (key : PropertyKey) : Prop :=
  ∃ h entry e, r.entry? h = some entry ∧ entry.primary = key.1 ∧
    entry.element.inlineProperty? key.2 = some e

theorem mem_declared_iff : key ∈ declared r ↔ Declares r key := by
  constructor
  · intro hkey
    obtain ⟨entry, hentry, hkey⟩ := List.mem_flatMap.mp hkey
    obtain ⟨name, hname, rfl⟩ := List.mem_map.mp hkey
    obtain ⟨block, hblock, hname⟩ := List.mem_flatMap.mp hname
    obtain ⟨h, he⟩ := Array.mem_iff_getElem?.mp (Array.mem_toList_iff.mp hentry)
    -- The block binds the property, so there is a last block that does.
    rw [← OrderedMap.contains_iff_mem_keys, OrderedMap.contains] at hname
    obtain ⟨e, hget⟩ := Option.isSome_iff_exists.mp hname
    have hmem : e ∈ entry.element.styleBlocks.filterMap fun b => b.inline.get? name :=
      List.mem_filterMap.mpr ⟨block, hblock, hget⟩
    exact ⟨h, entry, _, he, rfl, List.getLast?_eq_some_getLast (List.ne_nil_of_mem hmem)⟩
  · rintro ⟨h, entry, e, he, hname, hp⟩
    have hkey := mem_declared he hp
    rwa [hname] at hkey

/-- The properties of a list are all different, and each is declared by an element. -/
structure Orderly (r : Registry) (path : List PropertyKey) : Prop where
  nodup : path.Nodup
  declares : ∀ key ∈ path, Declares r key

theorem orderly_iff : Orderly r path ↔ path.Nodup ∧ path ⊆ declared r := by
  constructor
  · intro h
    exact ⟨h.nodup, fun key hkey => mem_declared_iff.mpr (h.declares key hkey)⟩
  · intro h
    exact ⟨h.1, fun key hkey => mem_declared_iff.mp (h.2 hkey)⟩

instance (r : Registry) (path : List PropertyKey) : Decidable (Orderly r path) :=
  decidable_of_iff _ orderly_iff.symm

theorem Room.orderly (hroom : Room r fuel path) : Orderly r path :=
  orderly_iff.mpr ⟨hroom.nodup, hroom.subset⟩

/-- Where all is in order, the budget leaves room. -/
theorem Orderly.room (hpath : Orderly r path) (hfuel : budget r ≤ fuel) : Room r fuel path where
  nodup := hpath.nodup
  subset := (orderly_iff.mp hpath).2
  enough := by
    rw [budget] at hfuel
    omega

/-! ## Watching -/

/-- Gives up if what is under evaluation is out of order at the start, or has changed in the end. -/
def guarded (r : Registry) (x : Evaluating α) : Evaluating α := do
  let path := (← get).inProgress
  guard (Orderly r path)
  let a ← x
  guard ((← get).inProgress = path)
  pure a

/-- Finds the value of a property, which is under evaluation meanwhile, unless it is already. -/
def undertake (key : PropertyKey) (x : Evaluating (Except EvalError Value)) :
    Evaluating (Except EvalError Value) := do
  if (← get).inProgress.contains key then
    modify (recordCycle key)
    pure (.error (.circularProperty key.1 key.2))
  else
    modify (enter key)
    let value ← x
    modify (leave key value)
    pure value

/-- Looks up a property, given how to evaluate the expressions of elements. -/
def lookupBy (r : Registry) (evaluate : Handle → Expr → Evaluating (Except EvalError Value))
    (h : Handle) (property : String) : Evaluating (Option (Except EvalError Value)) :=
  (r.entry? h).elim (pure none) fun entry => do
    let key := (entry.primary, property)
    ((← get).memo.lookup key).elim
      ((entry.element.inlineProperty? property).elim (pure none) fun e => do
        let value ← undertake key (evaluate h e)
        pure (some value))
      fun value => pure (some value)

theorem lookupStep_eq_lookupBy (r : Registry) (look : Lookup) :
    lookupStep r look = lookupBy r fun h e => (e.eval (elementScope r look h)).run := by
  funext h property
  unfold lookupStep lookupBy
  cases r.entry? h with
  | none => rfl
  | some entry =>
    refine bind_congr fun s => ?_
    dsimp only
    cases s.memo.lookup (entry.primary, property) with
    | some value => rfl
    | none =>
      cases entry.element.inlineProperty? property with
      | none => rfl
      | some e =>
        dsimp only [Option.elim, undertake]
        rw [bind_assoc]
        refine bind_congr fun s => ?_
        by_cases hc : (entry.primary, property) ∈ s.inProgress
        · rw [if_pos hc, if_pos (List.contains_iff_mem.mpr hc)]
          rfl
        · rw [if_neg hc, if_neg (mt List.contains_iff_mem.mp hc)]
          simp only [bind_assoc, pure_bind]

/-- Looks up a property, at most `fuel` properties deep. Every lookup and every expression on the
way is guarded. -/
def guardedLookup (r : Registry) : Nat → Lookup
  | 0 => fun _ _ => failure
  | fuel + 1 => fun h property =>
    guarded r (lookupBy r
      (fun h e => guarded r (e.eval (elementScope r (guardedLookup r fuel) h)).run) h property)

/-! ## Doing the same -/

/-- Two computations, one of which may be guarded, come back with the same, and with the properties
under evaluation as they were. -/
def unhindered (path : List PropertyKey) : Simulation Evaluating Evaluating where
  rel x y := ∀ ⦃s : Session⦄, s.inProgress = path →
    ∃ a s', x.run s = some (a, s') ∧ y.run s = some (a, s') ∧ s'.inProgress = path
  rel_pure a s hs := ⟨a, s, rfl, rfl, hs⟩
  rel_bind {α β x y f g} hxy hfg s hs := by
    obtain ⟨a, s₁, hx, hy, hs₁⟩ := hxy hs
    obtain ⟨b, s₂, hf, hg, hs₂⟩ := hfg a hs₁
    exact ⟨b, s₂, Option.bind_eq_some_iff.mpr ⟨_, hx, hf⟩,
      Option.bind_eq_some_iff.mpr ⟨_, hy, hg⟩, hs₂⟩

theorem unhindered_note (n : Note) : (unhindered path).rel (note n) (note n) :=
  fun _ hs => ⟨(), _, rfl, rfl, hs⟩

section Reads

variable (hlook : ∀ h property, (unhindered path).rel (look h property) (look' h property))
include hlook

theorem unhindered_readFrom (h : Handle) (selector : Option Selector) (property : String) :
    (unhindered path).rel (readFrom r look h selector property)
      (readFrom r look' h selector property) := by
  cases selector with
  | none =>
    refine (unhindered path).rel_bind (hlook h property) fun a => ?_
    cases a <;> exact (unhindered path).rel_pure _
  | some selector =>
    dsimp only [readFrom]
    cases r.first selector with
    | none =>
      exact (unhindered path).rel_bind (unhindered_note _) fun _ => (unhindered path).rel_pure _
    | some target =>
      refine (unhindered path).rel_bind (hlook target property) fun a => ?_
      cases a with
      | some value => exact (unhindered path).rel_pure _
      | none =>
        exact (unhindered path).rel_bind (unhindered_note _) fun _ => (unhindered path).rel_pure _

theorem unhindered_eval (h : Handle) (e : Expr) :
    (unhindered path).rel (e.eval (elementScope r look h)).run
      (e.eval (elementScope r look' h)).run :=
  (unhindered path).rel_eval unhindered_note e fun selector name _ =>
    unhindered_readFrom hlook h selector name

end Reads

/-- Where all is in order, a guard does nothing. -/
theorem unhindered_guarded (hpath : Orderly r path) (hxy : (unhindered path).rel x y) :
    (unhindered path).rel x (guarded r y) := by
  intro s hs
  obtain ⟨a, s', hx, hy, hs'⟩ := hxy hs
  refine ⟨a, s', hx, ?_, hs'⟩
  have hstart : Orderly r s.inProgress := hs ▸ hpath
  have hend : s'.inProgress = s.inProgress := hs'.trans hs.symm
  simp [guarded, guard, hstart, hy, hend]

/-- A value is found in the same way, if it is with the property under evaluation. -/
theorem unhindered_undertake {x y : Evaluating (Except EvalError Value)}
    (hxy : key ∉ path → (unhindered (key :: path)).rel x y) :
    (unhindered path).rel (undertake key x) (undertake key y) := by
  intro s hs
  unfold undertake
  simp only [StateT.run_bind, StateT.run_get, pure_bind]
  by_cases hc : s.inProgress.contains key = true
  · simp only [if_pos hc]
    exact ⟨_, _, rfl, rfl, hs⟩
  · have hfresh : key ∉ path := hs ▸ mt List.contains_iff_mem.mpr hc
    have henter : (enter key s).inProgress = key :: path := congrArg _ hs
    obtain ⟨value, s₁, hx, hy, hs₁⟩ := hxy hfresh henter
    simp only [if_neg hc]
    refine ⟨value, leave key value s₁, ?_, ?_, ?_⟩
    · exact Option.bind_eq_some_iff.mpr ⟨_, hx, rfl⟩
    · exact Option.bind_eq_some_iff.mpr ⟨_, hy, rfl⟩
    · show s₁.inProgress.tail = path
      rw [hs₁, List.tail_cons]

theorem unhindered_get : (unhindered path).rel get get := fun s hs => ⟨s, s, rfl, rfl, hs⟩

/-- Lookups do the same if expressions come out the same, one property further in. -/
theorem unhindered_lookupBy
    {evaluate evaluate' : Handle → Expr → Evaluating (Except EvalError Value)}
    (heval : ∀ key, key ∉ path → key ∈ declared r → ∀ h e,
      (unhindered (key :: path)).rel (evaluate h e) (evaluate' h e)) (h : Handle)
    (property : String) :
    (unhindered path).rel (lookupBy r evaluate h property) (lookupBy r evaluate' h property) := by
  unfold lookupBy
  cases he : r.entry? h with
  | none => exact (unhindered path).rel_pure none
  | some entry =>
    refine (unhindered path).rel_bind unhindered_get fun s => ?_
    cases s.memo.lookup (entry.primary, property) with
    | some value => exact (unhindered path).rel_pure (some value)
    | none =>
      cases hp : entry.element.inlineProperty? property with
      | none => exact (unhindered path).rel_pure none
      | some e =>
        refine (unhindered path).rel_bind ?_ fun value => (unhindered path).rel_pure (some value)
        exact unhindered_undertake fun hfresh => heval _ hfresh (mem_declared he hp) h e

/-- With room for both, lookups do the same as guarded ones. -/
theorem unhindered_lookup (hroom : Room r fuel path) (hroom' : Room r fuel' path) (h : Handle)
    (property : String) :
    (unhindered path).rel (lookup r fuel h property) (guardedLookup r fuel' h property) := by
  induction fuel generalizing fuel' path h property with
  | zero => exact absurd hroom.fuel_pos (Nat.lt_irrefl 0)
  | succ fuel ih =>
    cases fuel' with
    | zero => exact absurd hroom'.fuel_pos (Nat.lt_irrefl 0)
    | succ fuel' =>
      rw [lookup, lookupStep_eq_lookupBy]
      refine unhindered_guarded hroom.orderly
        (unhindered_lookupBy (fun key hfresh hkey h e => ?_) h property)
      -- One property more is under evaluation, and one less is left to be.
      have hinner := hroom.enter hfresh hkey
      have hinner' := hroom'.enter hfresh hkey
      exact unhindered_guarded hinner.orderly (unhindered_eval (ih hinner hinner') h e)

/-- **A lookup comes to an end, and leaves what is under evaluation as it was.** This holds of every
element and property, also where elements share their names and properties read each other. All the
way, the properties under evaluation are different, and some element declares them: a guard at the
start and the end of every lookup and every expression changes nothing. Neither does more fuel. -/
theorem lookup_comes_back (r : Registry) {s : Session} (hs : Orderly r s.inProgress) (h : Handle)
    (property : String) :
    ∃ answer s', (lookup r (budget r) h property).run s = some (answer, s') ∧
      s'.inProgress = s.inProgress ∧
      (guardedLookup r (budget r) h property).run s = some (answer, s') ∧
      ∀ fuel, budget r ≤ fuel → (lookup r fuel h property).run s = some (answer, s') := by
  have hroom := hs.room (Nat.le_refl (budget r))
  obtain ⟨answer, s', hrun, hguarded, hs'⟩ := unhindered_lookup hroom hroom h property rfl
  refine ⟨answer, s', hrun, hs', hguarded, fun fuel hfuel => ?_⟩
  -- Lookups with any two amounts of fuel do the same as the guarded one.
  obtain ⟨answer', s'', hmore, hsame, -⟩ := unhindered_lookup (hs.room hfuel) hroom h property rfl
  rw [hguarded] at hsame
  cases hsame
  exact hmore

/-- The last two elements are both called `.a[1]`. They read the first one, and that reads the
second. -/
def entangled : List Node :=
  let reading (name : String) (e : Expr) : Node := .style { inline := .ofList [(name, e)] }
  [.element ⟨"p", .ofList [("class", "a")],
    [reading "y" (.property (some ⟨.className "a", some 1⟩) "x")]⟩,
   .element ⟨"p", .ofList [("class", "a")],
    [reading "x" (.property (some ⟨.className "a", none⟩) "y")]⟩,
   .element ⟨"p", .ofList [("class", "a[1]")],
    [reading "x" (.property (some ⟨.className "a", none⟩) "y")]⟩]

/-- While `x` of the third element is under evaluation, `y` of the first one reads `x` of the second.
That counts as the same property, since the two elements have one name. -/
theorem lookup_comes_back_entangled :
    let r := (Registry.build entangled).value
    let s : Session := { inProgress := [(".a[1]", "x")] }
    let answer : Option (Except EvalError Value) := some (.error (.circularProperty ".a[1]" "x"))
    ¬ r.Distinct ∧ Orderly r s.inProgress ∧
      ∃ s', (lookup r (budget r) 0 "y").run s = some (answer, s') ∧
        s'.inProgress = s.inProgress ∧
        (guardedLookup r (budget r) 0 "y").run s = some (answer, s') ∧
        ∀ fuel, budget r ≤ fuel → (lookup r fuel 0 "y").run s = some (answer, s') := by
  intro r s answer
  have hr : r = ((preorder entangled).foldlM Registry.add .empty).value :=
    congrArg Logged.value (Registry.build_eq_foldlM entangled)
  have hd : ¬ r.Distinct := by
    rw [hr]
    decide
  have hs : Orderly r s.inProgress := by
    rw [hr]
    decide
  have hanswer : ((lookup r (budget r) 0 "y").run s).map Prod.fst = some answer := by
    rw [hr]
    rfl
  obtain ⟨answer', s', hrun, hs', hguarded, hmore⟩ := lookup_comes_back r hs 0 "y"
  rw [hrun] at hanswer
  obtain rfl : answer' = answer := Option.some.inj hanswer
  exact ⟨hd, hs, s', hrun, hs', hguarded, hmore⟩

end Stencil.Session
