import Stencil.Registry

/-!
# The order of evaluation

An element depends on another when one of its properties reads a property of the other. Elements are
evaluated after all that they depend on; when that is impossible, a cycle is reported.

* `Dependencies.build` finds the dependencies between the elements of a registry
* `Dependencies.order` lists every element after its dependencies

## Termination

`visit` walks depth-first with an explicit stack. What is left to do is on the stack, or belongs to an
element that has not been reached yet: all its dependencies are still to be looked at. Counting each
element once and each dependency twice, every step leaves less. Going on to an element moves it to the
stack, and the dependency that led to it is no longer to be looked at.
-/

namespace Stencil

/-- Why the styles of a tree cannot be resolved. -/
inductive ResolveError where
  /-- Elements that depend on each other; the first is repeated at the end. -/
  | circularDependency (cycle : List String)
  /-- Properties that read each other, found at an element; the first is repeated at the end. -/
  | circularProperty (selector : String) (cycle : List String)
  /-- Evaluation went on for longer than there are properties. -/
  | exhausted
deriving DecidableEq

def ResolveError.message : ResolveError → String
  | .circularDependency cycle => "circular style dependency: " ++ " -> ".intercalate cycle
  | .circularProperty selector cycle =>
    "circular property reference in " ++ selector ++ ": " ++ " -> ".intercalate cycle
  | .exhausted => "more properties in evaluation than there are"

/-- The elements that depend on others, by primary name, with what they depend on. -/
structure Dependencies where
  edges : OrderedMap String (List String) := .empty

namespace Dependencies

/-- No elements at all. -/
def empty : Dependencies := {}

/-! ## Building -/

def nodes (g : Dependencies) : List String := g.edges.keys

/-- What an element depends on directly. -/
def of (g : Dependencies) (node : String) : List String := (g.edges.get? node).getD []

/-- Adds an element without dependencies, unless it is there. -/
def addNode (g : Dependencies) (node : String) : Dependencies :=
  if g.edges.contains node then g else ⟨g.edges.insert node []⟩

/-- Adds a dependency, and both elements. Of a dependency on itself only the element is kept. -/
def addEdge (g : Dependencies) (source target : String) : Dependencies :=
  if source = target then g.addNode source
  else
    let known := g.of source
    let known' := if target ∈ known then known else known ++ [target]
    (Dependencies.mk (g.edges.insert source known')).addNode target

/-- How many dependencies there are in all. -/
def edgeCount (g : Dependencies) : Nat := g.edges.values.flatten.length

/-- Adds an element of a registry with what its properties read. -/
def addEntry (r : Registry) (g : Dependencies) (entry : Entry) : Dependencies :=
  if entry.element.hasInlineStyle then
    let targets := entry.element.inlineProperties.values.flatMap fun e =>
      e.references.filterMap fun (selector, _) => r.firstPrimary selector
    targets.foldl (fun g target => g.addEdge entry.primary target) (g.addNode entry.primary)
  else g

/-- The dependencies between the styled elements of a registry. -/
def build (r : Registry) : Dependencies := r.entries.toList.foldl (addEntry r) empty

/-! ## Walking -/

/-- A stack of elements, the innermost first, each with the dependencies still to be looked at. -/
abbrev Stack := List (String × List String)

/-- The elements on a stack, the innermost first. -/
def path (stack : Stack) : List String := stack.map Prod.fst

/-- Where a walk stands. The elements on the stack and the finished ones are kept once more as sets, to
look them up. -/
structure Walk where
  stack : Stack := []
  onPath : List String := []
  done : List String := []
  /-- The finished elements, in order. -/
  order : List String := []

namespace Walk

/-- Goes on to an element. -/
def push (w : Walk) (node : String) (deps : List String) : Walk :=
  { w with stack := (node, deps) :: w.stack, onPath := w.onPath.insert node }

/-- Leaves the innermost element, which is then finished. -/
def finish (w : Walk) (node : String) : Walk where
  stack := w.stack.tail
  onPath := w.onPath.filter (· ≠ node)
  done := w.done.insert node
  order := w.order ++ [node]

end Walk

/-- The elements that a walk has not reached. -/
def outside (g : Dependencies) (w : Walk) : List String :=
  g.nodes.filter fun x => x ∉ w.onPath ∧ x ∉ w.done

/-- An element of which nothing has been looked at. -/
def frame (g : Dependencies) (node : String) : String × List String := (node, g.of node)

/-- How much there is to do on a stack. -/
def load (stack : Stack) : Nat := 2 * (stack.flatMap Prod.snd).length + stack.length

/-- How much there is to do in a walk. -/
def measure (g : Dependencies) (w : Walk) : Nat := load w.stack + load ((outside g w).map g.frame)

theorem load_cons (node : String) (deps : List String) (stack : Stack) :
    load ((node, deps) :: stack) = 2 * deps.length + 1 + load stack := by
  simp [load]
  omega

theorem load_perm {stack stack' : Stack} (h : stack.Perm stack') : load stack = load stack' := by
  rw [load, (h.flatMap_right Prod.snd).length_eq, h.length_eq, load]

theorem load_map_filter_le (g : Dependencies) (p : String → Bool) (l : List String) :
    load ((l.filter p).map g.frame) ≤ load (l.map g.frame) := by
  induction l with
  | nil => exact Nat.le_refl _
  | cons x rest ih =>
    rw [List.filter_cons]
    split
    · simp only [List.map_cons, frame, load_cons] at ih ⊢
      omega
    · simp only [List.map_cons, frame, load_cons] at ih ⊢
      omega

/-- Finishing an element puts none outside. -/
theorem load_outside_finish_le (g : Dependencies) (w : Walk) (node : String) :
    load ((outside g (w.finish node)).map g.frame) ≤ load ((outside g w).map g.frame) := by
  have houtside : outside g (w.finish node)
      = (outside g w).filter fun x => x ∉ (w.finish node).onPath ∧ x ∉ (w.finish node).done := by
    rw [outside, outside, List.filter_filter]
    refine List.filter_congr fun x _ => ?_
    by_cases hx : x = node <;> simp [Walk.finish, hx]
  rw [houtside]
  exact load_map_filter_le g _ _

theorem outside_push (g : Dependencies) (w : Walk) (node : String) (deps : List String) :
    outside g (w.push node deps) = (outside g w).filter (· != node) := by
  rw [outside, outside, List.filter_filter]
  refine List.filter_congr fun x _ => ?_
  rw [Bool.eq_iff_iff]
  simp [Walk.push, and_assoc]

/-- Going on to an element takes from outside what there is to do for it. -/
theorem load_outside_push {g : Dependencies} {w : Walk} {node : String} (h : node ∈ outside g w)
    (deps : List String) :
    2 * (g.of node).length + 1 + load ((outside g (w.push node deps)).map g.frame)
      = load ((outside g w).map g.frame) := by
  have hnodup : (outside g w).Nodup := g.edges.keys_nodup.filter _
  have hperm := List.perm_cons_erase h
  rw [hnodup.erase_eq_filter, ← outside_push g w node deps] at hperm
  rw [load_perm (hperm.map g.frame), List.map_cons, frame, load_cons]

theorem of_eq_nil {g : Dependencies} {node : String} (h : node ∉ g.nodes) : g.of node = [] := by
  have hn : g.edges.contains node = false := by
    rw [← Bool.not_eq_true]
    exact fun hc => h (OrderedMap.contains_iff_mem_keys.mp hc)
  cases hg : g.edges.get? node with
  | none => simp [of, hg]
  | some _ => simp [OrderedMap.contains, hg] at hn

theorem measure_finish_lt (g : Dependencies) {w : Walk} {node : String} {rest : Stack}
    (hstack : w.stack = (node, []) :: rest) : measure g (w.finish node) < measure g w := by
  have hrest : (w.finish node).stack = rest := by rw [Walk.finish, hstack, List.tail_cons]
  have houtside := load_outside_finish_le g w node
  rw [measure, measure, hrest, hstack, load_cons]
  omega

/-- Going on to an element is less to do by the dependency that led to it. -/
theorem measure_push_lt (g : Dependencies) {node next : String} {deps : List String} {rest : Stack}
    {onPath done order : List String} (hp : next ∉ onPath) (hd : next ∉ done) :
    measure g (Walk.push ⟨(node, deps) :: rest, onPath, done, order⟩ next (g.of next))
      < measure g ⟨(node, next :: deps) :: rest, onPath, done, order⟩ := by
  have hstack : (Walk.push ⟨(node, deps) :: rest, onPath, done, order⟩ next (g.of next)).stack
      = (next, g.of next) :: (node, deps) :: rest := rfl
  have hsame : outside g ⟨(node, next :: deps) :: rest, onPath, done, order⟩
      = outside g ⟨(node, deps) :: rest, onPath, done, order⟩ := rfl
  simp only [measure, hstack, hsame, load_cons, List.length_cons]
  by_cases hn : next ∈ g.nodes
  · have hmem : next ∈ outside g ⟨(node, deps) :: rest, onPath, done, order⟩ := by
      simp [outside, hn, hp, hd]
    have hload := load_outside_push hmem (g.of next)
    omega
  · have hle := load_map_filter_le g (· != next)
      (outside g ⟨(node, deps) :: rest, onPath, done, order⟩)
    rw [outside_push, of_eq_nil hn, List.length_nil]
    omega

/-- The elements of a stack from where `node` is first found to the top, and `node` again. -/
def cycleAt (node : String) (stack : Stack) : List String :=
  let outward := (path stack).reverse
  outward.drop ((outward.idxOf? node).getD 0) ++ [node]

/-- Walks until the stack is empty. Reaching an element that is on the stack is a cycle. -/
def visit (g : Dependencies) : Walk → Except (List String) Walk
  | ⟨[], onPath, done, order⟩ => .ok ⟨[], onPath, done, order⟩
  | ⟨(node, []) :: rest, onPath, done, order⟩ =>
    visit g (Walk.finish ⟨(node, []) :: rest, onPath, done, order⟩ node)
  | ⟨(node, next :: deps) :: rest, onPath, done, order⟩ =>
    if _hp : next ∈ onPath then .error (cycleAt next ((node, deps) :: rest))
    else if _hd : next ∈ done then visit g ⟨(node, deps) :: rest, onPath, done, order⟩
    else visit g (Walk.push ⟨(node, deps) :: rest, onPath, done, order⟩ next (g.of next))
termination_by w => measure g w
decreasing_by
  · exact measure_finish_lt g rfl
  · simp only [measure, outside, load_cons, List.length_cons]
    omega
  · exact measure_push_lt g _hp _hd

/-- Walks from the elements of a list in turn, unless they are finished by then. -/
def walkFrom (g : Dependencies) (starts : List String) (w : Walk) : Except (List String) Walk :=
  starts.foldlM (fun w start =>
    if start ∈ w.done then .ok w else visit g (w.push start (g.of start))) w

/-- Every element after all that it depends on, or a cycle. Elements are started from in order. -/
def sort (g : Dependencies) : Except (List String) (List String) := do
  let w ← walkFrom g g.nodes {}
  return w.order

/-- The order in which to evaluate the elements. -/
def order (g : Dependencies) : Checked ResolveError (List String) :=
  match g.sort with
  | .error cycle => throw (.circularDependency cycle)
  | .ok order => do
    Checked.note (.evaluationOrder order)
    pure order

end Dependencies

end Stencil
