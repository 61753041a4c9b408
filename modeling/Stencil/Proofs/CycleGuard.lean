import Mathlib
import Stencil.Proofs.DefinitionsAsImport
import Stencil.Proofs.DepthLimit

/-!
# The cycle guard

A definition that is being expanded is not entered again. So the frames on a stack are all different,
and as each of them belongs to a definition, stacks cannot grow beyond the number of definitions. With
a depth limit of that size, nothing is ever cut off: expansion comes to an end because of the cycle
guard alone, whatever uses whatever.

* `Namespace.weight` — element and style definitions, and variables, counted over all namespaces
* `reached_induction` — what holds of all stacks that are reached
* `Inside.Unlimited` — expansion without a depth limit
* `bounded_by_cycle_guard` — it is expansion with any limit that is not below the weight
-/

namespace Stencil

/-! ## Counting frames -/

/-- How many frames a definition has: an element or a style has one, a group one for each variable. -/
def Definition.weight (d : Definition) : Nat :=
  match d.body with
  | .style _ | .element _ => 1
  | .vars bindings => bindings.size

theorem Definition.length_frames (name : String) (d : Definition) :
    (d.frames name).length = d.weight := by
  unfold Definition.frames Definition.weight
  cases d.body with
  | vars bindings => simp [OrderedMap.keys, OrderedMap.size]
  | _ => rfl

namespace Namespace

mutual

/-- The number of element and style definitions plus the number of variables, over all namespaces. -/
def Tree.weight : Tree → Nat
  | ⟨symbols, children⟩ => (symbols.values.map Definition.weight).sum + Tree.weightAll children

def Tree.weightAll : List (String × Tree) → Nat
  | [] => 0
  | (_, child) :: rest => child.weight + Tree.weightAll rest

end

@[inherit_doc Tree.weight]
def weight (ns : Namespace) : Nat := ns.tree.weight

theorem length_flatMap_frames (entries : List ((String × Kind) × Definition)) :
    (entries.flatMap fun e => e.2.frames e.1.1).length
      = ((entries.map Prod.snd).map Definition.weight).sum := by
  rw [List.length_flatMap, List.map_map]
  simp only [Definition.length_frames, Function.comp_def]

mutual

/-- The frames of a tree are counted definition by definition. -/
theorem Tree.length_frames : (t : Tree) → t.frames.length = t.weight
  | ⟨symbols, children⟩ => by
    rw [Tree.frames, Tree.weight, List.length_append, length_flatMap_frames,
      Tree.length_framesAll children, OrderedMap.values]

theorem Tree.length_framesAll : (children : List (String × Tree)) →
    (Tree.framesAll children).length = Tree.weightAll children
  | [] => rfl
  | (step, child) :: rest => by
    rw [Tree.framesAll, Tree.weightAll, List.length_append, List.length_map,
      Tree.length_frames child, Tree.length_framesAll rest]

end

theorem length_frames (ns : Namespace) : ns.frames.length = ns.weight := ns.tree.length_frames

end Namespace

namespace Expansion

variable {table : Namespace} {maxDepth maxDepth' n n' : Nat} {stack : List Frame} {frame : Frame}
  {α : Type}

/-! ## Stacks that are reached -/

/-- What can be done inside of a definition, if something else is done with one of the stacks. -/
def levelWithDetour (table : Namespace) (maxDepth : Nat) (stack₀ : List Frame) (other : Inside) :
    Nat → Option Inside
  | 0 => none
  | n + 1 =>
    let site (stack : List Frame) : Site :=
      { table, maxDepth, stack, inside := levelWithDetour table maxDepth stack₀ other n }
    some
      { nodes := fun stack nodes =>
          if stack = stack₀ then other.nodes stack nodes else (site stack).expandNodes nodes
        style := fun stack block =>
          if stack = stack₀ then other.style stack block else (site stack).mergeStyle block
        value := fun stack e =>
          if stack = stack₀ then other.value stack e else (site stack).substitute e }

/-- The site outside of all definitions, if something else is done with one of the stacks. -/
def Site.startWithDetour (table : Namespace) (maxDepth : Nat) (stack₀ : List Frame)
    (other : Inside) : Site :=
  { table, maxDepth, stack := [], inside := levelWithDetour table maxDepth stack₀ other maxDepth }

/-- A stack is reached on the way to what is asked for: it makes a difference what is done with it. For
a stack that is reached, it would if a failure of another kind came up there. -/
def Reached (table : Namespace) (maxDepth : Nat) (request : Request α) (stack : List Frame) : Prop :=
  ∃ other, (Site.startWithDetour table maxDepth stack other).run request
    ≠ (Site.start table maxDepth).run request

/-- Where all stacks have a property, nothing is seen of what is done with a stack that has not. -/
theorem related_detour {P : List Frame → Prop} {stack₀ : List Frame} (hstack₀ : ¬ P stack₀)
    (hpush : ∀ {stack frame}, P stack → frame ∈ table.frames → frame ∉ stack → P (frame :: stack))
    (other : Inside) (hstack : P stack) :
    Site.Related sameness (fun _ => True)
      ⟨table, maxDepth, stack, levelWithDetour table maxDepth stack₀ other n⟩
      (Site.atLevel table maxDepth n stack) := by
  induction n generalizing stack with
  | zero => exact related_of_enter rfl rfl (fun _ _ => rfl) fun _ _ _ => rfl
  | succ n ih =>
    refine related_of_enter_fresh rfl rfl (fun _ _ => rfl)
      fun content frame hframe (hfresh : frame ∉ stack) => ?_
    have hpushed : P (frame :: stack) := hpush hstack hframe hfresh
    have hne : frame :: stack ≠ stack₀ := by
      rintro rfl
      exact hstack₀ hpushed
    rw [enterWith_atLevel_succ hfresh, ← rel_expandContent (ih hpushed) content]
    show Site.enter _ _ _ = _
    unfold Site.enter
    rw [if_neg hfresh]
    cases content <;> exact if_neg hne

/-- **All stacks are built by entering definitions.** What holds of the empty stack, and goes on to
hold when a frame of the table is pushed that is not on the stack yet, holds of all stacks that are
reached. -/
theorem reached_induction {P : List Frame → Prop} (hnil : P [])
    (hpush : ∀ {stack frame}, P stack → frame ∈ table.frames → frame ∉ stack → P (frame :: stack))
    {request : Request α} (h : Reached table maxDepth request stack) : P stack := by
  by_contra hstack
  obtain ⟨other, hother⟩ := h
  exact hother (rel_run (related_detour hstack hpush other hnil) request)

/-- The frames on a stack are all different, and there are no more of them than definitions. -/
theorem nodup_of_reached {request : Request α} (h : Reached table maxDepth request stack) :
    stack.Nodup ∧ stack.length ≤ table.weight := by
  obtain ⟨hnodup, hsubset⟩ : stack.Nodup ∧ stack ⊆ table.frames := by
    refine reached_induction (P := fun stack => stack.Nodup ∧ stack ⊆ table.frames)
      ⟨List.nodup_nil, List.nil_subset _⟩ ?_ h
    rintro stack frame ⟨hnodup, hsubset⟩ hframe hfresh
    exact ⟨List.nodup_cons.mpr ⟨hfresh, hnodup⟩, List.cons_subset.mpr ⟨hframe, hsubset⟩⟩
  refine ⟨hnodup, ?_⟩
  rw [← Namespace.length_frames]
  exact List.Nodup.length_le_of_subset hnodup hsubset

/-! ## Room -/

/-- How many frames of the table are not on the stack. -/
def room (table : Namespace) (stack : List Frame) : Nat :=
  (table.frames.toFinset \ stack.toFinset).card

theorem room_le_weight (table : Namespace) (stack : List Frame) :
    room table stack ≤ table.weight := by
  calc room table stack
      ≤ table.frames.toFinset.card := Finset.card_le_card Finset.sdiff_subset
    _ ≤ table.frames.length := List.toFinset_card_le _
    _ = table.weight := Namespace.length_frames table

/-- Entering a definition takes up room. -/
theorem room_push_lt (hframe : frame ∈ table.frames) (hfresh : frame ∉ stack) :
    room table (frame :: stack) < room table stack := by
  have hmem : frame ∈ table.frames.toFinset \ stack.toFinset := by
    rw [Finset.mem_sdiff, List.mem_toFinset, List.mem_toFinset]
    exact ⟨hframe, hfresh⟩
  unfold room
  rw [List.toFinset_cons, Finset.sdiff_insert]
  exact Finset.card_erase_lt_of_mem hmem

/-! ## Enough levels -/

/-- The two computations are the same, and are not cut off. -/
def uncut : Simulation Expanding Expanding where
  rel x y := x = y ∧ ¬ CutOff x
  rel_pure _ := ⟨rfl, not_cutOff_of_ok rfl⟩
  rel_bind {α β x y f g} hx hf := by
    obtain ⟨rfl, hcut⟩ := hx
    refine ⟨Checked.bind_congr_ok fun a _ => (hf a).1, ?_⟩
    rw [cutOff_bind_iff]
    rintro (hx | ⟨a, -, ha⟩)
    · exact hcut hx
    · exact (hf a).2 ha

/-- Where there are levels for all the room, it makes no difference how many there are. -/
theorem related_of_room (hn : room table stack ≤ n) (hn' : room table stack ≤ n') :
    Site.Related uncut (fun _ => True) (Site.atLevel table maxDepth n stack)
      (Site.atLevel table maxDepth' n' stack) := by
  induction n generalizing n' stack with
  | zero =>
    refine related_of_enter_fresh rfl rfl (fun _ h => ⟨rfl, h⟩)
      fun content frame (hframe : frame ∈ table.frames) (hfresh : frame ∉ stack) => ?_
    -- There is no room, so that every frame of the table is on the stack.
    have hroom := room_push_lt hframe hfresh
    omega
  | succ n ih =>
    refine related_of_enter_fresh rfl rfl (fun _ h => ⟨rfl, h⟩)
      fun content frame (hframe : frame ∈ table.frames) (hfresh : frame ∉ stack) => ?_
    have hroom := room_push_lt hframe hfresh
    obtain ⟨k, rfl⟩ : ∃ k, n' = k + 1 := ⟨n' - 1, by omega⟩
    rw [enterWith_atLevel_succ hfresh, enterWith_atLevel_succ hfresh]
    exact rel_expandContent (ih (by omega) (by omega)) content

/-! ## No limit -/

/-- What can be done inside of a definition if there is no limit: all is expanded at a site that goes
on in the same way, so that only cycles are turned away. -/
def Inside.Unlimited (table : Namespace) (inside : Inside) : Prop :=
  ∀ {α : Type} (maxDepth : Nat) (stack : List Frame) (content : Content α),
    inside.run stack content
      = (Site.mk table maxDepth stack (some inside)).expandContent content

/-- As many levels as there are frames are as good as no limit. -/
def unlimited (table : Namespace) : Inside where
  nodes stack nodes := (Site.atLevel table 0 table.weight stack).expandNodes nodes
  style stack block := (Site.atLevel table 0 table.weight stack).mergeStyle block
  value stack e := (Site.atLevel table 0 table.weight stack).substitute e

theorem run_unlimited (table : Namespace) (stack : List Frame) (content : Content α) :
    (unlimited table).run stack content
      = (Site.atLevel table 0 table.weight stack).expandContent content := by
  cases content <;> rfl

theorem related_unlimited (hn : room table stack ≤ n) :
    Site.Related uncut (fun _ => True) (Site.atLevel table maxDepth n stack)
      ⟨table, maxDepth', stack, some (unlimited table)⟩ := by
  refine related_of_enter_fresh rfl rfl (fun _ h => ⟨rfl, h⟩)
    fun content frame (hframe : frame ∈ table.frames) (hfresh : frame ∉ stack) => ?_
  have hroom := room_push_lt hframe hfresh
  have henter : (Site.mk table maxDepth' stack (some (unlimited table))).enterWith frame content
      = (unlimited table).run (frame :: stack) content := if_neg hfresh
  obtain ⟨k, rfl⟩ : ∃ k, n = k + 1 := ⟨n - 1, by omega⟩
  rw [enterWith_atLevel_succ hfresh, henter, run_unlimited]
  exact rel_expandContent (related_of_room (by omega) (room_le_weight table _)) content

theorem unlimited_unlimited (table : Namespace) : (unlimited table).Unlimited table := by
  intro α maxDepth stack content
  rw [run_unlimited]
  exact (rel_expandContent (related_unlimited (room_le_weight table stack)) content).1

/-- **The cycle guard alone bounds expansion.** On the way to whatever is asked for, the frames on the
stack are all different, and are no more than the weight of the definitions. Expansion without a limit
comes to an end: it is the same as with any limit that is not below the weight, and there nothing is
ever cut off. -/
theorem bounded_by_cycle_guard (table : Namespace) :
    (∀ {α : Type} (request : Request α) (maxDepth : Nat) (stack : List Frame),
      Reached table maxDepth request stack → stack.Nodup ∧ stack.length ≤ table.weight) ∧
    ∃ inside : Inside, inside.Unlimited table ∧
      ∀ {α : Type} (request : Request α) (maxDepth : Nat), table.weight ≤ maxDepth →
        (Site.start table maxDepth).run request
          = (Site.mk table maxDepth [] (some inside)).run request ∧
        ¬ CutOff ((Site.start table maxDepth).run request) := by
  refine ⟨fun request maxDepth stack h => nodup_of_reached h, unlimited table,
    unlimited_unlimited table, fun request maxDepth h => ?_⟩
  have hroom : room table [] ≤ maxDepth := Nat.le_trans (room_le_weight table []) h
  exact rel_run (related_unlimited hroom) request

/-- Expanding nothing. -/
def blank : Inside where
  nodes _ _ := pure []
  style _ _ := pure .empty
  value _ e := pure e

/-- Of two elements that use each other, the one is entered inside of the other. The next step would
be a cycle, and it is refused as such, with room left. -/
theorem bounded_by_cycle_guard_gallery :
    let table := (Namespace.ofDocument gallery).value
    let left := Request.usage ⟨.element, "Left", [], []⟩
    let stack : List Frame := [⟨.element, "Right", []⟩, ⟨.element, "Left", []⟩]
    table.weight = 4 ∧ Reached table 4 left stack ∧ stack.Nodup ∧ stack.length ≤ table.weight ∧
      ¬ CutOff ((Site.start table 4).run left) ∧
      ((Site.start table 4).run left).outcome = .error (.cyclic "Left") := by
  intro table left stack
  have hblank : ((Site.startWithDetour table 4 stack blank).run left).outcome = .ok [] := rfl
  have hcycle : ((Site.start table 4).run left).outcome = .error (.cyclic "Left") := rfl
  have hreached : Reached table 4 left stack := by
    refine ⟨blank, fun h => ?_⟩
    rw [h, hcycle] at hblank
    cases hblank
  obtain ⟨hstack, inside, -, hbounded⟩ := bounded_by_cycle_guard table
  have hdistinct := hstack left 4 stack hreached
  exact ⟨rfl, hreached, hdistinct.1, hdistinct.2, (hbounded left 4 (by decide)).2, hcycle⟩

end Expansion

end Stencil
