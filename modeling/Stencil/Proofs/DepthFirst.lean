import Mathlib.Order.WellFoundedSet
import Stencil.Proofs.EvaluationOrder
import Stencil.Proofs.OrderedMap

/-!
# Depth-first search by recursion

The order of evaluation is found by a walk that keeps a stack: for each element on the way down, the
dependencies that are still to be looked at. Where no element depends on itself, the same order comes
from a search that needs no stack of its own. It emits what an element depends on, then the element,
and leaves out what has been emitted.

* `Addition`, `ofAdditions` — graphs by what was added to them, and in which order
* `nodes_ofAdditions`, `of_ofAdditions` — they keep that order
* `Founded` — going from elements to what they depend on comes to an end
* `emit`, `postorder` — the recursive search
* `visit_frame` — the walk finishes the innermost element of a stack as the search emits it
* `order_eq_postorder` — the walk finds the order of the search
-/

namespace Stencil.Dependencies

open Relation

variable {g : Dependencies}

/-! ## Additions -/

/-- A step in building a graph. -/
inductive Addition where
  | node (element : String)
  | edge (source target : String)

namespace Addition

def add (g : Dependencies) : Addition → Dependencies
  | node element => g.addNode element
  | edge source target => g.addEdge source target

/-- The elements that an addition is about. -/
def elements : Addition → List String
  | node element => [element]
  | edge source target => [source, target]

/-- What an addition makes an element depend on. -/
def target? (element : String) : Addition → Option String
  | node _ => none
  | edge source target => if source = element ∧ source ≠ target then some target else none

end Addition

/-- The graph that comes from additions in order. -/
def ofAdditions (additions : List Addition) : Dependencies := additions.foldl Addition.add empty

theorem ofAdditions_concat (additions : List Addition) (addition : Addition) :
    ofAdditions (additions ++ [addition]) = addition.add (ofAdditions additions) := by
  rw [ofAdditions, List.foldl_concat, ofAdditions]

theorem built_ofAdditions (additions : List Addition) : Built (ofAdditions additions) := by
  induction additions using List.reverseRecOn with
  | nil => exact Built.empty
  | append_singleton additions addition ih =>
    rw [ofAdditions_concat]
    cases addition with
    | node node => exact ih.addNode node
    | edge source target => exact ih.addEdge source target

/-- What is met for the first time comes last. -/
theorem eraseDups_concat (l : List String) (x : String) :
    (l ++ [x]).eraseDups = if x ∈ l.eraseDups then l.eraseDups else l.eraseDups ++ [x] := by
  rw [List.eraseDups_append]
  by_cases hx : x ∈ l <;> simp [List.removeAll, hx, List.eraseDups_cons]

theorem nodes_addNode (g : Dependencies) (node : String) :
    (g.addNode node).nodes = if node ∈ g.nodes then g.nodes else g.nodes ++ [node] := by
  unfold addNode
  by_cases h : node ∈ g.nodes
  · rw [if_pos (OrderedMap.contains_iff_mem_keys.mpr h), if_pos h]
  · rw [if_neg (mt OrderedMap.contains_iff_mem_keys.mp h)]
    exact OrderedMap.keys_insert g.edges node []

theorem nodes_addEdge (g : Dependencies) (source target : String) :
    (g.addEdge source target).nodes = ((g.addNode source).addNode target).nodes := by
  unfold addEdge
  by_cases h : source = target
  · rw [if_pos h, h, nodes_addNode (g.addNode target), if_pos (mem_nodes_addNode.mpr (Or.inr rfl))]
  · have hsource (deps : List String) :
        (Dependencies.mk (g.edges.insert source deps)).nodes = (g.addNode source).nodes :=
      (OrderedMap.keys_insert g.edges source deps).trans (nodes_addNode g source).symm
    rw [if_neg h]
    show (addNode _ target).nodes = _
    rw [nodes_addNode, nodes_addNode _ target]
    simp only [hsource]

theorem of_addEdge (g : Dependencies) (source target element : String) :
    (g.addEdge source target).of element
      = if source = element ∧ source ≠ target then
          if target ∈ g.of element then g.of element else g.of element ++ [target]
        else g.of element := by
  unfold addEdge
  by_cases h : source = target
  · rw [if_pos h, of_addNode, if_neg fun hne => hne.2 h]
  · rw [if_neg h]
    show (addNode _ target).of element = _
    rw [of_addNode, of_insert]
    by_cases hs : source = element
    · rw [if_pos hs, if_pos (c := source = element ∧ source ≠ target) ⟨hs, h⟩, hs]
    · rw [if_neg hs, if_neg fun hne => hs hne.1]

/-- Elements are kept in the order in which they were added. -/
theorem nodes_ofAdditions (additions : List Addition) :
    (ofAdditions additions).nodes = (additions.flatMap Addition.elements).eraseDups := by
  induction additions using List.reverseRecOn with
  | nil => rfl
  | append_singleton additions addition ih =>
    rw [ofAdditions_concat, List.flatMap_append, List.flatMap_singleton]
    cases addition with
    | node node =>
      rw [Addition.add, Addition.elements, nodes_addNode, ih, eraseDups_concat]
    | edge source target =>
      rw [Addition.add, nodes_addEdge, nodes_addNode, nodes_addNode, ih]
      show _ = (_ ++ ([source] ++ [target])).eraseDups
      rw [← List.append_assoc, eraseDups_concat, eraseDups_concat]

/-- What an element depends on is kept in the order in which it was added. -/
theorem of_ofAdditions (additions : List Addition) (element : String) :
    (ofAdditions additions).of element
      = (additions.filterMap (Addition.target? element)).eraseDups := by
  induction additions using List.reverseRecOn with
  | nil => rfl
  | append_singleton additions addition ih =>
    rw [ofAdditions_concat, List.filterMap_append]
    cases addition with
    | node node =>
      rw [Addition.add, of_addNode, ih]
      exact congrArg _ (List.append_nil _).symm
    | edge source target =>
      rw [Addition.add, of_addEdge, ih]
      by_cases h : source = element ∧ source ≠ target
      · have htarget : (Addition.edge source target).target? element = some target := if_pos h
        rw [if_pos h, List.filterMap_cons_some htarget, ← eraseDups_concat]
        rfl
      · have htarget : (Addition.edge source target).target? element = none := if_neg h
        rw [if_neg h, List.filterMap_cons_none htarget]
        exact congrArg _ (List.append_nil _).symm

/-! ## The search -/

/-- Whatever one starts from, going on to what an element depends on comes to an end. -/
def Founded (g : Dependencies) : Prop := WellFounded fun d node => g.DependsOn node d

/-- A graph has finitely many elements, so without a cycle there is no way to go on forever. -/
theorem Built.founded (hg : Built g) (ha : g.Acyclic) : g.Founded := by
  let below (d node : String) : Prop := TransGen g.DependsOn node d
  have : IsTrans String below := ⟨fun _ _ _ hab hbc => hbc.trans hab⟩
  have : Std.Irrefl below := ⟨ha⟩
  have : IsStrictOrder String below := {}
  have hon : {node | node ∈ g.nodes}.WellFoundedOn below := (List.finite_toSet g.nodes).wellFoundedOn
  refine Subrelation.wf ?_ (Set.wellFoundedOn_iff.mp hon)
  intro d node hd
  exact ⟨TransGen.single hd, hg.target_mem hd, source_mem hd⟩

/-- Emits an element after what it depends on, in order, unless it has been emitted. -/
def emit (hg : g.Founded) (node : String) (emitted : List String) : List String :=
  if node ∈ emitted then emitted
  else (g.of node).attach.foldl (fun emitted d => emit hg d.1 emitted) emitted ++ [node]
termination_by hg.wrap node
decreasing_by exact d.2

/-- Emits the elements of a list in order. -/
def emitAll (hg : g.Founded) (nodes emitted : List String) : List String :=
  nodes.foldl (fun emitted node => emit hg node emitted) emitted

/-- All elements, as the search from each of them in turn emits them. -/
def postorder (hg : g.Founded) : List String := emitAll hg g.nodes []

theorem emitAll_cons (hg : g.Founded) (node : String) (nodes emitted : List String) :
    emitAll hg (node :: nodes) emitted = emitAll hg nodes (emit hg node emitted) := rfl

theorem emit_of_mem (hg : g.Founded) {node : String} {emitted : List String}
    (h : node ∈ emitted) : emit hg node emitted = emitted := by
  rw [emit, if_pos h]

theorem emit_of_not_mem (hg : g.Founded) {node : String} {emitted : List String}
    (h : node ∉ emitted) : emit hg node emitted = emitAll hg (g.of node) emitted ++ [node] := by
  rw [emit, if_neg h, List.foldl_attach (f := fun emitted d => emit hg d emitted), emitAll]

/-! ## The walk -/

/-- Without a cycle, no element stands twice on a path. -/
theorem not_mem_outer (ha : g.Acyclic) {node : String} {outer : List String}
    (hpath : (node :: outer).IsChain fun inner outer => g.DependsOn outer inner) : node ∉ outer := by
  intro hmem
  cases outer with
  | nil => cases hmem
  | cons next outer =>
    exact ha node (TransGen.tail' (reaches_head hpath.tail node hmem) hpath.rel)

/-- **The innermost element of a stack is finished as the search emits it.** This holds whatever stack
is below it, as long as it is a path, and whatever has been finished. The walk looks elements up in its
sets, and so they have to agree with the stack and the order. -/
theorem visit_frame (hg : g.Founded) (ha : g.Acyclic) {w : Walk} {node : String} {deps : List String}
    {rest : Stack} (hw : w.Agrees) (hstack : w.stack = (node, deps) :: rest)
    (hdeps : ∀ d ∈ deps, g.DependsOn node d)
    (hpath : (node :: path rest).IsChain fun inner outer => g.DependsOn outer inner) :
    ∃ w' : Walk, w'.Agrees ∧ w'.stack = rest ∧ w'.order = emitAll hg deps w.order ++ [node] ∧
      visit g w = visit g w' := by
  -- Over what the element depends on, and inside over the dependencies that are left.
  induction node using hg.induction generalizing w deps rest with
  | _ node ihnode =>
    induction deps generalizing w with
    | nil =>
      have hfinish := hw.finish hstack (not_mem_outer ha hpath)
      obtain ⟨stack, onPath, done, order⟩ := w
      subst hstack
      exact ⟨_, hfinish, rfl, rfl, by rw [visit]⟩
    | cons next deps ih =>
      obtain ⟨hnext, hdeps⟩ := List.forall_mem_cons.mp hdeps
      obtain ⟨stack, onPath, done, order⟩ := w
      subst hstack
      have hw₀ : Walk.Agrees ⟨(node, deps) :: rest, onPath, done, order⟩ := ⟨hw.onPath, hw.done⟩
      have hfresh : next ∉ onPath := fun hmem =>
        ha next (TransGen.tail' (reaches_head hpath next ((hw₀.onPath next).mp hmem)) hnext)
      rw [visit, dif_neg hfresh]
      by_cases hdone : next ∈ done
      · obtain ⟨w', hw', hrest, horder, hvisit⟩ := ih hw₀ rfl hdeps
        rw [dif_pos hdone]
        refine ⟨w', hw', hrest, ?_, hvisit⟩
        rw [horder, emitAll_cons, emit_of_mem hg ((hw₀.done next).mp hdone)]
      · have hpush : (next :: path ((node, deps) :: rest)).IsChain
            fun inner outer => g.DependsOn outer inner := List.IsChain.cons_cons hnext hpath
        obtain ⟨w₁, hw₁, hstack₁, horder₁, hvisit₁⟩ :=
          ihnode next hnext (hw₀.push next (g.of next)) rfl (fun _ hd => hd) hpush
        obtain ⟨w', hw', hrest, horder, hvisit⟩ := ih hw₁ hstack₁ hdeps
        rw [dif_neg hdone]
        refine ⟨w', hw', hrest, ?_, hvisit₁.trans hvisit⟩
        rw [horder, emitAll_cons, emit_of_not_mem hg (mt (hw₀.done next).mpr hdone), horder₁]
        rfl

/-- The walks from the elements of a list in turn finish what the search from them emits. -/
theorem walkFrom_eq_emitAll (hg : g.Founded) (ha : g.Acyclic) (starts : List String) {w : Walk}
    (hw : w.Agrees) (hstack : w.stack = []) :
    ∃ w', walkFrom g starts w = .ok w' ∧ w'.order = emitAll hg starts w.order := by
  induction starts generalizing w with
  | nil => exact ⟨w, rfl, rfl⟩
  | cons start starts ih =>
    rw [walkFrom_cons, emitAll_cons]
    by_cases hdone : start ∈ w.done
    · rw [if_pos hdone, emit_of_mem hg ((hw.done start).mp hdone)]
      exact ih hw hstack
    · have hframe : (w.push start (g.of start)).stack = [(start, g.of start)] := by
        rw [Walk.push, hstack]
      obtain ⟨w₁, hw₁, hstack₁, horder₁, hvisit⟩ := visit_frame hg ha (hw.push start (g.of start))
        hframe (fun _ hd => hd) (List.IsChain.singleton start)
      have hend : visit g w₁ = .ok w₁ := by
        obtain ⟨stack, onPath, done, order⟩ := w₁
        subst hstack₁
        rw [visit]
      rw [if_neg hdone, hvisit, hend, emit_of_not_mem hg (mt (hw.done start).mpr hdone)]
      obtain ⟨w', hwalk, horder⟩ := ih hw₁ hstack₁
      exact ⟨w', hwalk, by rw [horder, horder₁]; rfl⟩

/-- **The walk with a stack is a recursive search.** Of every graph in which no element depends on
itself, the order of evaluation is the order in which the recursive search emits the elements: started
from each of them in turn, it goes through what the element depends on, then emits the element, and
leaves out what has been emitted. Elements, and what an element depends on, come in the order in which
they were first added. -/
theorem order_eq_postorder (additions : List Addition) (ha : (ofAdditions additions).Acyclic) :
    let g := ofAdditions additions
    g.nodes = (additions.flatMap Addition.elements).eraseDups ∧
      (∀ element, g.of element = (additions.filterMap (Addition.target? element)).eraseDups) ∧
      g.order.outcome = .ok (postorder ((built_ofAdditions additions).founded ha)) := by
  intro g
  have hg : g.Founded := (built_ofAdditions additions).founded ha
  refine ⟨nodes_ofAdditions additions, of_ofAdditions additions, ?_⟩
  obtain ⟨w, hwalk, horder⟩ := walkFrom_eq_emitAll hg ha g.nodes Walk.Agrees.init rfl
  rw [outcome_order, sort_eq, hwalk]
  exact congrArg Except.ok horder

/-- An element that stands alone, one that leads to a third by two ways, and a late one that leads to
what is finished by then. One dependency is added twice, and one leads back to where it starts. -/
def crossing : List Addition :=
  [.node "#lone", .edge "page" ".left", .edge "page" "#base", .edge ".left" "#base",
   .edge "page" ".left", .edge "#base" "#base", .edge "#base" "#root", .edge ".late" ".left"]

theorem order_eq_postorder_crossing :
    ∃ ha : (ofAdditions crossing).Acyclic,
      (ofAdditions crossing).nodes = ["#lone", "page", ".left", "#base", "#root", ".late"] ∧
      (ofAdditions crossing).of "page" = [".left", "#base"] ∧
      postorder ((built_ofAdditions crossing).founded ha)
        = ["#lone", "#root", "#base", ".left", "page", ".late"] := by
  have hs : (ofAdditions crossing).sort
      = .ok ["#lone", "#root", "#base", ".left", "page", ".late"] := by decide +kernel
  have ha : (ofAdditions crossing).Acyclic := acyclic_of_sort_ok (built_ofAdditions crossing) hs
  obtain ⟨hnodes, hof, ho⟩ := order_eq_postorder crossing ha
  rw [outcome_order, hs] at ho
  refine ⟨ha, hnodes.trans ?_, (hof "page").trans ?_, (Except.ok.inj ho).symm⟩
  · decide +kernel
  · decide +kernel

end Stencil.Dependencies
