import Mathlib.Data.List.Nodup
import Stencil.Proofs.Memo

/-!
# Enough fuel

A lookup goes no deeper than there are declared properties: those under evaluation are all different,
and each is declared. So it always comes back, with the same properties under evaluation as before.

* `Room` — there is fuel left for every property that is not under evaluation yet
* `returns_lookup` — a lookup with room comes back
-/

namespace Stencil.Session

variable {r : Registry} {look : Lookup} {h : Handle} {entry : Entry} {property : String}
  {path : List PropertyKey} {key : PropertyKey} {fuel : Nat}

/-- A property of an element is one of those that are declared. -/
theorem mem_declared {e : Expr} (he : r.entry? h = some entry)
    (hp : entry.element.inlineProperty? property = some e) :
    (entry.primary, property) ∈ declared r := by
  have hentry : entry ∈ r.entries.toList := Array.mem_toList_iff.mpr (Array.mem_of_getElem? he)
  -- The expression comes from some style block of the element, and that block binds the property.
  obtain ⟨block, hblock, hget⟩ := List.mem_filterMap.mp (List.mem_of_getLast? hp)
  have hkey : property ∈ block.inline.keys := by
    rw [← OrderedMap.contains_iff_mem_keys, OrderedMap.contains, hget]
    rfl
  have hname : property ∈ entry.element.styleBlocks.flatMap fun b => b.inline.keys :=
    List.mem_flatMap.mpr ⟨block, hblock, hkey⟩
  exact List.mem_flatMap.mpr ⟨entry, hentry, List.mem_map.mpr ⟨property, hname, rfl⟩⟩

/-! ## Room -/

/-- There is fuel for every declared property that is not under evaluation yet. -/
structure Room (r : Registry) (fuel : Nat) (path : List PropertyKey) : Prop where
  nodup : path.Nodup
  subset : path ⊆ declared r
  enough : (declared r).length < fuel + path.length

theorem Room.init : Room r (budget r) [] where
  nodup := List.nodup_nil
  subset := List.nil_subset _
  enough := by simp [budget]

theorem Room.fuel_pos (hroom : Room r fuel path) : 0 < fuel := by
  have hlen := List.Nodup.length_le_of_subset hroom.nodup hroom.subset
  have henough := hroom.enough
  omega

/-- Each property on the path takes one of the declared ones, and one unit of fuel. -/
theorem Room.enter (hroom : Room r (fuel + 1) path) (hfresh : key ∉ path) (hkey : key ∈ declared r) :
    Room r fuel (key :: path) where
  nodup := List.nodup_cons.mpr ⟨hfresh, hroom.nodup⟩
  subset := List.cons_subset.mpr ⟨hkey, hroom.subset⟩
  enough := by
    have henough := hroom.enough
    rw [List.length_cons]
    omega

/-! ## Coming back -/

/-- The computation comes back, with the properties under evaluation as they were. -/
def Returns {α : Type} (path : List PropertyKey) (x : Evaluating α) : Prop :=
  ∀ ⦃s : Session⦄, s.inProgress = path → ∃ a s', x.run s = some (a, s') ∧ s'.inProgress = path

/-- Coming back, as a relation to anything else. -/
def returning (path : List PropertyKey) : Simulation Evaluating Option where
  rel x _ := Returns path x
  rel_pure a s hs := ⟨a, s, rfl, hs⟩
  rel_bind {α β x y f g} hx hf s hs := by
    obtain ⟨a, s₁, hx, hs₁⟩ := hx hs
    obtain ⟨b, s₂, hf, hs₂⟩ := hf a hs₁
    exact ⟨b, s₂, Option.bind_eq_some_iff.mpr ⟨_, hx, hf⟩, hs₂⟩

theorem returns_note (n : Note) : Returns path (note n) := fun _ hs => ⟨(), _, rfl, hs⟩

/-- An expression comes back, if lookups do. -/
theorem returns_eval (hlook : ∀ h property, Returns path (look h property)) (h : Handle) (e : Expr) :
    Returns path (e.eval (elementScope r look h)).run := by
  show (returning path).rel _ (e.eval (Plain.scopeOf (fun _ _ => none) r (some h))).run
  exact rel_eval_elementScope returns_note hlook h e

/-- The same of an expression outside of all elements. -/
theorem returns_documentScope (hlook : ∀ h property, Returns path (look h property)) (e : Expr) :
    Returns path (e.eval (documentScope r look)).run := by
  refine (returning path).rel_eval (s := documentScope r look) (t := Plain.scope r none) returns_note e
    fun selector name _ => ?_
  dsimp only [documentScope]
  cases selector.bind r.first with
  | none => exact (returning path).rel_pure (Except.ok none)
  | some target =>
    show (returning path).rel _ ((Plain.scopeOf (fun _ _ => none) r (some target)).read none name)
    exact rel_readFrom returns_note hlook target none name

/-- A lookup with room comes back. -/
theorem returns_lookup (hroom : Room r fuel path) (h : Handle) (property : String) :
    Returns path (lookup r fuel h property) := by
  induction fuel generalizing path h property with
  | zero => exact absurd hroom.fuel_pos (Nat.lt_irrefl 0)
  | succ fuel ih =>
    intro s hs
    cases he : r.entry? h with
    | none => exact ⟨_, _, (LookupStep.absent he).run_eq, hs⟩
    | some entry =>
      cases hm : s.memo.lookup (entry.primary, property) with
      | some value => exact ⟨_, _, (LookupStep.known he hm).run_eq, hs⟩
      | none =>
        cases hp : entry.element.inlineProperty? property with
        | none => exact ⟨_, _, (LookupStep.undeclared he hm hp).run_eq, hs⟩
        | some e =>
          by_cases hc : (entry.primary, property) ∈ s.inProgress
          · exact ⟨_, _, (LookupStep.circular he hm hp hc).run_eq, hs⟩
          · have hroom := hroom.enter (hs ▸ hc) (mem_declared he hp)
            have henter : (enter (entry.primary, property) s).inProgress
                = (entry.primary, property) :: path := congrArg _ hs
            obtain ⟨value, s₁, hv, hs₁⟩ := returns_eval (ih hroom) h e henter
            refine ⟨_, _, (LookupStep.evaluated he hm hp hc hv).run_eq, ?_⟩
            show s₁.inProgress.tail = path
            rw [hs₁, List.tail_cons]

end Stencil.Session
