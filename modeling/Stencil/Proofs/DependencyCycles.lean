import Mathlib.Data.List.TakeWhile
import Stencil.Proofs.EvaluationOrder

/-!
# Reported cycles of dependencies

Where elements cannot be ordered, a cycle is reported. It is cut out of the stack of the walk, from the
element that was met again to the top. The stack is a path that has no element twice, whatever led into
the cycle, so what is cut out of it goes once around.

* `nodup_around`, `isChain_around` — a path that comes back to one of its members
* `SimpleCycle` — once around a cycle
* `order_cycle_simple` — what is reported
-/

namespace Stencil

/-! ## Paths that come back -/

section Linked

variable {α : Type} [DecidableEq α] {R : α → α → Prop} {x : α} {path : List α}

/-- On a path that has no element twice, none comes twice on the way from `x` to the inner end. -/
theorem nodup_around (hnodup : path.Nodup) : (x :: (path.takeWhile (· ≠ x)).reverse).Nodup := by
  rw [List.nodup_cons, List.mem_reverse, List.nodup_reverse]
  refine ⟨fun hx => ?_, hnodup.sublist (List.takeWhile_sublist _)⟩
  simpa using List.mem_takeWhile_imp hx

/-- What comes before the first `x` on a path. -/
theorem takeWhile_ne {inner outer : List α} (hpath : path = inner ++ x :: outer) (hfresh : x ∉ inner) :
    path.takeWhile (· ≠ x) = inner := by
  have hinner : ∀ y ∈ inner, decide (y ≠ x) = true := by
    intro y hy
    exact decide_eq_true fun hyx => hfresh (hyx ▸ hy)
  rw [hpath, List.takeWhile_append_of_pos hinner]
  simp

/-- A path, listed with its inner end first, leads on to one of its members `x`: it goes from `x` to the
inner end and back. -/
theorem isChain_around (hlinked : (x :: path).IsChain fun inner outer => R outer inner)
    (hx : x ∈ path) : (x :: (path.takeWhile (· ≠ x)).reverse ++ [x]).IsChain R := by
  obtain ⟨inner, outer, rfl, hfresh⟩ := List.eq_append_cons_of_mem hx
  rw [takeWhile_ne rfl hfresh]
  have hchain : (x :: inner ++ [x]).IsChain fun inner outer => R outer inner :=
    hlinked.prefix ⟨outer, by simp⟩
  have hreverse := List.isChain_reverse.mpr hchain
  simpa using hreverse

end Linked

namespace Dependencies

variable {g : Dependencies} {cycle : List String}

/-! ## Cycles of a graph -/

/-- Once around a cycle: at least two elements, none of them twice, each followed by one that it
depends on, and the first of them again at the end. -/
structure SimpleCycle (g : Dependencies) (cycle : List String) : Prop where
  length : 3 ≤ cycle.length
  closed : cycle.head? = cycle.getLast?
  nodup : cycle.dropLast.Nodup
  nodes : ∀ node ∈ cycle.dropLast, node ∈ g.nodes
  linked : cycle.IsChain g.DependsOn

/-- No element depends on itself directly. -/
theorem Built.not_dependsOn_self (hg : Built g) (node : String) : ¬ g.DependsOn node node := by
  induction hg with
  | empty => exact List.not_mem_nil
  | addNode other _ ih =>
    rw [DependsOn, of_addNode]
    exact ih
  | addEdge source target _ ih =>
    rw [dependsOn_addEdge]
    rintro (h | ⟨rfl, rfl, hne⟩)
    · exact ih h
    · exact hne rfl

/-- All elements of a chain but the last have dependencies, so that they are in the graph. -/
theorem mem_nodes_of_isChain {nodes : List String} {last : String}
    (h : (nodes ++ [last]).IsChain g.DependsOn) : ∀ node ∈ nodes, node ∈ g.nodes := by
  induction nodes with
  | nil => exact fun _ hn => nomatch hn
  | cons first rest ih =>
    refine List.forall_mem_cons.mpr ⟨?_, ih h.tail⟩
    cases rest with
    | nil => exact source_mem h.rel
    | cons next rest => exact source_mem h.rel

/-- On a stack that has no element twice, the search from the outer end finds what a search from the
inner end finds. -/
theorem cycleAt_eq {node : String} {stack : Stack} (hnodup : (path stack).Nodup)
    (hp : node ∈ path stack) :
    cycleAt node stack = node :: ((path stack).takeWhile (· ≠ node)).reverse ++ [node] := by
  obtain ⟨inner, outer, hpath, hinner⟩ := List.eq_append_cons_of_mem hp
  have houter : node ∉ outer := by
    rw [hpath, List.nodup_append, List.nodup_cons] at hnodup
    exact hnodup.2.1.1
  have hindex : (outer.reverse ++ node :: inner.reverse).idxOf? node = some outer.length := by
    have hnone : outer.reverse.findIdx? (· == node) = none := by
      rw [List.findIdx?_eq_none_iff]
      intro x hx
      exact beq_false_of_ne fun he => houter (he ▸ List.mem_reverse.mp hx)
    rw [List.idxOf?, List.findIdx?_append, hnone, List.findIdx?_cons, beq_self_eq_true, if_pos rfl]
    simp
  rw [cycleAt, takeWhile_ne hpath hinner, hpath, List.reverse_append, List.reverse_cons,
    List.append_assoc, List.singleton_append, hindex, Option.getD_some,
    List.drop_left' (List.length_reverse)]

/-- What is cut out of the stack when a dependency is found on it goes once around a cycle. -/
theorem Walking.simpleCycle (hg : Built g) {node next : String} {deps onPath done order : List String}
    {rest : Stack} (h : Walking g ⟨(node, next :: deps) :: rest, onPath, done, order⟩)
    (hp : next ∈ path ((node, deps) :: rest)) :
    SimpleCycle g (cycleAt next ((node, deps) :: rest)) := by
  have hdep : g.DependsOn node next := h.pending _ List.mem_cons_self next List.mem_cons_self
  have hnodup : (path ((node, deps) :: rest)).Nodup := (List.nodup_append.mp h.nodup).1
  have hlinked : (next :: path ((node, deps) :: rest)).IsChain
      fun inner outer => g.DependsOn outer inner := List.IsChain.cons_cons hdep h.linked
  rw [cycleAt_eq hnodup hp]
  have hcycle := isChain_around hlinked hp
  refine ⟨?_, ?_, ?_, ?_, hcycle⟩
  · -- The top of the stack is not `next`, since it depends on `next`.
    have hne : node ≠ next := fun he => hg.not_dependsOn_self next (he ▸ hdep)
    have hpath : path ((node, deps) :: rest) = node :: path rest := rfl
    simp [hpath, hne]
  · rw [List.getLast?_concat]
    rfl
  · rw [List.dropLast_concat]
    exact nodup_around hnodup
  · rw [List.dropLast_concat]
    exact mem_nodes_of_isChain hcycle

/-- **A reported cycle is one, and it is reported once around.** Whatever the graph, and whatever leads
into the cycle: there are at least three entries, the first and the last are the same, all but the last
are different elements of the graph, and each is followed by one that it depends on directly. -/
theorem order_cycle_simple (hg : Built g)
    (h : g.order.outcome = .error (.circularDependency cycle)) : SimpleCycle g cycle := by
  have hsort : g.sort = .error cycle := by
    rw [outcome_order] at h
    cases hs : g.sort with
    | ok order => rw [hs] at h; cases h
    | error cycle' => rw [hs] at h; cases h; rfl
  rw [sort_eq] at hsort
  cases hw : walkFrom g g.nodes {} with
  | ok w => rw [hw] at hsort; cases hsort
  | error cycle' =>
    rw [hw] at hsort
    cases hsort
    obtain ⟨w, hwalk, hv⟩ :=
      walkFrom_error hg Walking.init rfl (List.nil_subset _) (List.Subset.refl _) hw
    obtain ⟨node, next, deps, rest, onPath, done, order, hwalk', hp, rfl⟩ := visit_error hwalk hv
    exact hwalk'.simpleCycle hg hp

/-- Three elements that depend on each other, one that leads to them, and one that is finished before
the cycle is found. -/
def whirl : Dependencies :=
  ((((empty.addEdge "#entry" "#x").addEdge "#x" "#leaf").addEdge "#x" "#y").addEdge "#y"
    "#z").addEdge "#z" "#x"

theorem order_cycle_simple_whirl :
    Built whirl ∧
      whirl.order.outcome = .error (.circularDependency ["#x", "#y", "#z", "#x"]) ∧
      SimpleCycle whirl ["#x", "#y", "#z", "#x"] := by
  have hg : Built whirl :=
    ((((Built.empty.addEdge "#entry" "#x").addEdge "#x" "#leaf").addEdge "#x" "#y").addEdge "#y"
      "#z").addEdge "#z" "#x"
  have ho : whirl.order.outcome = .error (.circularDependency ["#x", "#y", "#z", "#x"]) := by
    decide +kernel
  exact ⟨hg, ho, order_cycle_simple hg ho⟩

end Dependencies

end Stencil
