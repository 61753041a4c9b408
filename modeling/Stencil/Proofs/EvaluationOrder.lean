import Mathlib.Data.List.Chain
import Mathlib.Data.List.Nodup
import Mathlib.Logic.Relation
import Stencil.Dependencies

/-!
# The order of evaluation

`Dependencies.order` finds an order exactly when no element depends on itself through others. The
order then has every element once, after all that it depends on.

`Walking` is what holds of a walk at each step of `visit`:

* the sets of elements, in which the walk looks up what it has met, agree with the stack and with the
  order of the finished elements (`Walk.Agrees`)
* no element is met twice
* the stack is a path in the graph
* what an element on the stack depends on is still to be looked at, or finished, or further in on
  the stack
* what a finished element depends on was finished before it

A step keeps it (`Walking.finish`, `Walking.skip`, `Walking.push`), hence so does the walk
(`visit_ok`, `visit_error`) and the walk from every element in turn (`walkFrom_ok`).
-/

namespace Stencil.Dependencies

open Relation

variable {g : Dependencies}

/-! ## Graphs -/

/-- The graphs that come from adding elements and dependencies, in whatever order. -/
inductive Built : Dependencies → Prop
  | empty : Built empty
  | addNode {g : Dependencies} (node : String) : Built g → Built (g.addNode node)
  | addEdge {g : Dependencies} (source target : String) :
      Built g → Built (g.addEdge source target)

/-- An element reads a property of another. -/
def DependsOn (g : Dependencies) (source target : String) : Prop := target ∈ g.of source

/-- No element depends on itself, be it through others. -/
def Acyclic (g : Dependencies) : Prop := ∀ node, ¬ TransGen g.DependsOn node node

theorem mem_nodes_insert {source node : String} {deps : List String} :
    node ∈ (Dependencies.mk (g.edges.insert source deps)).nodes ↔
      node ∈ g.nodes ∨ node = source := by
  show node ∈ (g.edges.insert source deps).keys ↔ node ∈ g.edges.keys ∨ node = source
  rw [OrderedMap.keys_insert]
  by_cases h : source ∈ g.edges.keys
  · rw [if_pos h]
    exact ⟨Or.inl, fun hn => hn.elim id fun he => he ▸ h⟩
  · rw [if_neg h]
    simp

theorem of_insert {source node : String} {deps : List String} :
    (Dependencies.mk (g.edges.insert source deps)).of node
      = if source = node then deps else g.of node := by
  simp only [of, OrderedMap.get?_insert]
  split <;> rfl

theorem mem_nodes_addNode {node other : String} :
    other ∈ (g.addNode node).nodes ↔ other ∈ g.nodes ∨ other = node := by
  unfold addNode
  by_cases h : g.edges.contains node = true
  · rw [if_pos h]
    exact ⟨Or.inl, fun ho => ho.elim id fun he => he ▸ OrderedMap.contains_iff_mem_keys.mp h⟩
  · rw [if_neg h]
    exact mem_nodes_insert

/-- A new element depends on nothing, and the others keep what they depend on. -/
@[simp] theorem of_addNode {node other : String} : (g.addNode node).of other = g.of other := by
  unfold addNode
  by_cases h : g.edges.contains node = true
  · rw [if_pos h]
  · rw [if_neg h, of_insert]
    split
    · rename_i he
      rw [← he, of_eq_nil fun hn => h (OrderedMap.contains_iff_mem_keys.mpr hn)]
    · rfl

theorem mem_nodes_addEdge {source target node : String} :
    node ∈ (g.addEdge source target).nodes ↔ node ∈ g.nodes ∨ node = source ∨ node = target := by
  unfold addEdge
  by_cases h : source = target
  · rw [if_pos h, mem_nodes_addNode, h]
    simp
  · rw [if_neg h]
    show node ∈ (addNode _ target).nodes ↔ _
    rw [mem_nodes_addNode, mem_nodes_insert, or_assoc]

/-- An edge adds one dependency, unless it leads back to where it starts. -/
theorem dependsOn_addEdge {source target a b : String} :
    (g.addEdge source target).DependsOn a b
      ↔ g.DependsOn a b ∨ (a = source ∧ b = target ∧ source ≠ target) := by
  unfold DependsOn addEdge
  by_cases h : source = target
  · rw [if_pos h, of_addNode]
    simp [h]
  · rw [if_neg h]
    show b ∈ (addNode _ target).of a ↔ _
    rw [of_addNode, of_insert]
    by_cases hs : source = a
    · subst hs
      rw [if_pos rfl]
      by_cases ht : target ∈ g.of source
      · rw [if_pos ht]
        exact ⟨Or.inl, fun hb => hb.elim id fun hb => hb.2.1 ▸ ht⟩
      · rw [if_neg ht]
        simp [h]
    · rw [if_neg hs]
      simp [Ne.symm hs]

/-- What an element depends on is an element too. -/
theorem Built.target_mem (hg : Built g) {a b : String} (h : g.DependsOn a b) : b ∈ g.nodes := by
  induction hg with
  | empty => cases h
  | addNode node _ ih =>
    rw [DependsOn, of_addNode] at h
    exact mem_nodes_addNode.mpr (Or.inl (ih h))
  | addEdge source target _ ih =>
    rcases dependsOn_addEdge.mp h with h | ⟨-, rfl, -⟩
    · exact mem_nodes_addEdge.mpr (Or.inl (ih h))
    · exact mem_nodes_addEdge.mpr (Or.inr (Or.inr rfl))

theorem source_mem {a b : String} (h : g.DependsOn a b) : a ∈ g.nodes := by
  by_contra ha
  rw [DependsOn, of_eq_nil ha] at h
  cases h

/-! ## The graph of a registry -/

theorem Built.foldl_addEdge (hg : Built g) (source : String) (targets : List String) :
    Built (targets.foldl (fun g target => g.addEdge source target) g) := by
  induction targets generalizing g with
  | nil => exact hg
  | cons target rest ih => exact ih (hg.addEdge source target)

theorem mem_nodes_foldl_addEdge {node : String} (h : node ∈ g.nodes) (source : String)
    (targets : List String) :
    node ∈ (targets.foldl (fun g target => g.addEdge source target) g).nodes := by
  induction targets generalizing g with
  | nil => exact h
  | cons target rest ih => exact ih (mem_nodes_addEdge.mpr (Or.inl h))

theorem Built.addEntry (hg : Built g) (r : Registry) (entry : Entry) :
    Built (g.addEntry r entry) := by
  unfold Dependencies.addEntry
  split
  · exact (hg.addNode entry.primary).foldl_addEdge _ _
  · exact hg

theorem mem_nodes_addEntry {r : Registry} {entry : Entry} {node : String} (h : node ∈ g.nodes) :
    node ∈ (g.addEntry r entry).nodes := by
  unfold Dependencies.addEntry
  split
  · exact mem_nodes_foldl_addEdge (mem_nodes_addNode.mpr (Or.inl h)) _ _
  · exact h

theorem primary_mem_nodes_addEntry {r : Registry} {entry : Entry}
    (h : entry.element.hasInlineStyle = true) : entry.primary ∈ (g.addEntry r entry).nodes := by
  unfold Dependencies.addEntry
  rw [if_pos h]
  exact mem_nodes_foldl_addEdge (mem_nodes_addNode.mpr (Or.inr rfl)) _ _

theorem built_build (r : Registry) : Built (build r) := by
  suffices ∀ (entries : List Entry) {g : Dependencies}, Built g →
      Built (entries.foldl (Dependencies.addEntry r) g) from this _ Built.empty
  intro entries
  induction entries with
  | nil => exact fun hg => hg
  | cons entry rest ih => exact fun hg => ih (hg.addEntry r entry)

/-- Every styled element is in the graph. -/
theorem primary_mem_nodes_build {r : Registry} {entry : Entry} (he : entry ∈ r.entries.toList)
    (h : entry.element.hasInlineStyle = true) : entry.primary ∈ (build r).nodes := by
  have keep : ∀ (entries : List Entry) {g : Dependencies}, entry.primary ∈ g.nodes →
      entry.primary ∈ (entries.foldl (Dependencies.addEntry r) g).nodes := by
    intro entries
    induction entries with
    | nil => exact fun hg => hg
    | cons e rest ih => exact fun hg => ih (mem_nodes_addEntry hg)
  obtain ⟨before, after, hsplit⟩ := List.append_of_mem he
  rw [build, hsplit, List.foldl_append, List.foldl_cons]
  exact keep after (primary_mem_nodes_addEntry h)

/-! ## One step of the walk -/

/-- The sets of a walk have the elements of its stack and of its order. -/
structure Walk.Agrees (w : Walk) : Prop where
  onPath : ∀ x, x ∈ w.onPath ↔ x ∈ path w.stack
  done : ∀ x, x ∈ w.done ↔ x ∈ w.order

namespace Walk.Agrees

variable {w : Walk} {node : String} {deps : List String} {rest : Stack}

theorem init : Walk.Agrees {} := ⟨fun _ => Iff.rfl, fun _ => Iff.rfl⟩

theorem push (h : w.Agrees) (node : String) (deps : List String) : (w.push node deps).Agrees where
  onPath x := by
    show x ∈ w.onPath.insert node ↔ x ∈ node :: path w.stack
    rw [List.mem_insert_iff, List.mem_cons, h.onPath]
  done := h.done

/-- An element that is finished goes from one set to the other. It must not stand further out on the
stack, since the set would lose it. -/
theorem finish (h : w.Agrees) (hstack : w.stack = (node, deps) :: rest) (hfresh : node ∉ path rest) :
    (w.finish node).Agrees where
  onPath x := by
    have hpath : path w.stack = node :: path rest := by rw [hstack]; rfl
    show x ∈ w.onPath.filter (· ≠ node) ↔ x ∈ path w.stack.tail
    rw [List.mem_filter, h.onPath, hpath, hstack, List.tail_cons]
    constructor
    · rintro ⟨hx, hne⟩
      exact List.mem_of_ne_of_mem (of_decide_eq_true hne) hx
    · intro hx
      exact ⟨List.mem_cons_of_mem _ hx, decide_eq_true fun he => hfresh (he ▸ hx)⟩
  done x := by
    show x ∈ w.done.insert node ↔ x ∈ w.order ++ [node]
    rw [List.mem_insert_iff, List.mem_append, List.mem_singleton, h.done, or_comm]

end Walk.Agrees

/-- What an element on the stack depends on is still to be looked at, or has been met: it is
finished or further in on the stack. -/
def Covered (g : Dependencies) : List String → Stack → Prop
  | _, [] => True
  | met, (node, deps) :: below =>
    (∀ d, g.DependsOn node d → d ∈ deps ∨ d ∈ met) ∧ Covered g (node :: met) below

/-- Each element of a list comes after what it depends on. -/
def Finished (g : Dependencies) (order : List String) : Prop :=
  ∀ before node rest, order = before ++ node :: rest → ∀ d, g.DependsOn node d → d ∈ before

theorem Covered.mono {met met' : List String} {stack : Stack} (hm : met ⊆ met')
    (h : Covered g met stack) : Covered g met' stack := by
  induction stack generalizing met met' with
  | nil => trivial
  | cons frame below ih =>
    refine ⟨fun d hd => (h.1 d hd).imp_right fun hd => hm hd, ?_⟩
    exact ih (List.cons_subset_cons frame.1 hm) h.2

theorem Finished.concat {node : String} {order : List String} (h : Finished g order)
    (hnode : ∀ d, g.DependsOn node d → d ∈ order) : Finished g (order ++ [node]) := by
  intro before node' rest heq
  rcases List.eq_nil_or_concat rest with rfl | ⟨rest, last, rfl⟩
  · obtain ⟨rfl, hlast⟩ := List.append_inj' heq rfl
    cases hlast
    exact hnode
  · rw [List.concat_eq_append, ← List.cons_append, ← List.append_assoc] at heq
    exact h before node' rest (List.append_inj' heq rfl).1

/-- What holds of a walk at each step. -/
structure Walking (g : Dependencies) (w : Walk) : Prop where
  agrees : w.Agrees
  nodup : (path w.stack ++ w.order).Nodup
  linked : (path w.stack).IsChain fun inner outer => g.DependsOn outer inner
  pending : ∀ frame ∈ w.stack, ∀ d ∈ frame.2, g.DependsOn frame.1 d
  covered : Covered g w.order w.stack
  finished : Finished g w.order

namespace Walking

variable {node next : String} {deps onPath done order : List String} {rest : Stack} {w : Walk}

theorem init : Walking g {} where
  agrees := Walk.Agrees.init
  nodup := List.nodup_nil
  linked := List.IsChain.nil
  pending := by simp
  covered := trivial
  finished := by simp [Finished]

/-- The walk starts at an element that is not finished. -/
theorem start (h : Walking g w) (hstack : w.stack = []) (hn : node ∉ w.done) :
    Walking g (w.push node (g.of node)) := by
  obtain ⟨stack, onPath, done, order⟩ := w
  subst hstack
  exact {
    agrees := h.agrees.push node _
    nodup := List.nodup_cons.mpr ⟨mt (h.agrees.done node).mpr hn, h.nodup⟩
    linked := List.IsChain.singleton node
    pending := by
      intro frame hf d hd
      rw [List.mem_singleton.mp hf] at hd ⊢
      exact hd
    covered := ⟨fun _ hd => Or.inl hd, trivial⟩
    finished := h.finished }

/-- An element whose dependencies have all been looked at is finished. -/
theorem finish (h : Walking g ⟨(node, []) :: rest, onPath, done, order⟩) :
    Walking g (Walk.finish ⟨(node, []) :: rest, onPath, done, order⟩ node) where
  agrees := by
    have hnodup : (node :: path rest).Nodup := (List.nodup_append.mp h.nodup).1
    exact h.agrees.finish rfl (List.nodup_cons.mp hnodup).1
  nodup := by
    have hperm : (node :: path rest ++ order).Perm (path rest ++ (order ++ [node])) := by
      rw [← List.append_assoc]
      exact (List.perm_append_singleton node _).symm
    exact hperm.nodup_iff.mp h.nodup
  linked := h.linked.tail
  pending := fun frame hf => h.pending frame (List.mem_cons_of_mem _ hf)
  covered := by
    refine h.covered.2.mono (List.cons_subset.mpr ⟨?_, ?_⟩)
    · exact List.mem_append_right order (List.mem_singleton.mpr rfl)
    · exact List.subset_append_left order [node]
  finished :=
    h.finished.concat fun d hd => (h.covered.1 d hd).resolve_left List.not_mem_nil

/-- What is left to look at in the innermost element becomes less. -/
theorem pending_tail (h : Walking g ⟨(node, next :: deps) :: rest, onPath, done, order⟩) :
    ∀ frame ∈ (node, deps) :: rest, ∀ d ∈ frame.2, g.DependsOn frame.1 d := by
  intro frame hf d hd
  rcases List.mem_cons.mp hf with rfl | hf
  · exact h.pending _ List.mem_cons_self d (List.mem_cons_of_mem _ hd)
  · exact h.pending frame (List.mem_cons_of_mem _ hf) d hd

/-- A dependency that is finished needs no look. -/
theorem skip (h : Walking g ⟨(node, next :: deps) :: rest, onPath, done, order⟩) (hd : next ∈ done) :
    Walking g ⟨(node, deps) :: rest, onPath, done, order⟩ where
  agrees := ⟨h.agrees.onPath, h.agrees.done⟩
  nodup := h.nodup
  linked := h.linked
  pending := h.pending_tail
  covered := by
    refine ⟨fun d hdep => ?_, h.covered.2⟩
    rcases h.covered.1 d hdep with hm | hm
    · rcases List.mem_cons.mp hm with rfl | hm
      · exact Or.inr ((h.agrees.done d).mp hd)
      · exact Or.inl hm
    · exact Or.inr hm
  finished := h.finished

/-- A dependency that is met for the first time goes on the stack. -/
theorem push (h : Walking g ⟨(node, next :: deps) :: rest, onPath, done, order⟩)
    (hp : next ∉ onPath) (hd : next ∉ done) :
    Walking g (Walk.push ⟨(node, deps) :: rest, onPath, done, order⟩ next (g.of next)) where
  agrees := by
    have hagrees : Walk.Agrees ⟨(node, deps) :: rest, onPath, done, order⟩ :=
      ⟨h.agrees.onPath, h.agrees.done⟩
    exact hagrees.push next _
  nodup := by
    refine List.nodup_cons.mpr ⟨fun hn => ?_, h.nodup⟩
    rcases List.mem_append.mp hn with hn | hn
    · exact hp ((h.agrees.onPath next).mpr hn)
    · exact hd ((h.agrees.done next).mpr hn)
  linked := List.IsChain.cons_cons (h.pending _ List.mem_cons_self next List.mem_cons_self) h.linked
  pending := by
    intro frame hf d hdeps
    rcases List.mem_cons.mp hf with rfl | hf
    · exact hdeps
    · exact h.pending_tail frame hf d hdeps
  covered := by
    refine ⟨fun _ hdep => Or.inl hdep, fun d hdep => ?_, ?_⟩
    · rcases h.covered.1 d hdep with hm | hm
      · rcases List.mem_cons.mp hm with rfl | hm
        · exact Or.inr List.mem_cons_self
        · exact Or.inl hm
      · exact Or.inr (List.mem_cons_of_mem _ hm)
    · exact h.covered.2.mono (List.cons_subset_cons node (List.subset_cons_self next order))
  finished := h.finished

end Walking

/-! ## The whole walk -/

/-- The elements that a walk has met. -/
def Walk.met (w : Walk) : List String := path w.stack ++ w.order

/-- Finishing an element meets no other. -/
theorem Walk.met_finish (w : Walk) {node : String} {deps : List String} {rest : Stack}
    (hstack : w.stack = (node, deps) :: rest) (x : String) : x ∈ (w.finish node).met ↔ x ∈ w.met := by
  simp [met, finish, path, hstack, or_comm, or_assoc]

theorem Walk.met_start {w : Walk} (hstack : w.stack = []) {node : String} {deps : List String} :
    (w.push node deps).met = node :: w.order := by
  simp [met, push, path, hstack]

/-- A walk that ends finishes what was on its stack, keeps what was finished before, and meets
elements only. -/
theorem visit_ok (hg : Built g) {w w' : Walk} (h : Walking g w) (hn : w.met ⊆ g.nodes)
    (hv : visit g w = .ok w') :
    Walking g w' ∧ w'.stack = [] ∧ w.met ⊆ w'.order ∧ w'.order ⊆ g.nodes := by
  fun_induction visit g w with
  | case1 onPath done order =>
    cases hv
    exact ⟨h, rfl, List.Subset.refl _, hn⟩
  | case2 node rest onPath done order ih =>
    have hmet := Walk.met_finish ⟨(node, []) :: rest, onPath, done, order⟩ rfl
    obtain ⟨hw, hstack, hd, hk⟩ := ih h.finish (fun x hx => hn ((hmet x).mp hx)) hv
    exact ⟨hw, hstack, fun x hx => hd ((hmet x).mpr hx), hk⟩
  | case3 => cases hv
  | case4 node next deps rest onPath done order _ hd ih => exact ih (h.skip hd) hn hv
  | case5 node next deps rest onPath done order hp hd ih =>
    -- Only here does the walk reach an element that it has not met, so only here is `Built` needed.
    have hnext : next ∈ g.nodes :=
      hg.target_mem (h.pending _ List.mem_cons_self next List.mem_cons_self)
    obtain ⟨hw, hstack, hsub, hk⟩ := ih (h.push hp hd) (List.cons_subset.mpr ⟨hnext, hn⟩) hv
    exact ⟨hw, hstack, List.Subset.trans (List.subset_cons_self next _) hsub, hk⟩

/-- A walk fails at an element whose next dependency is on the stack. -/
theorem visit_error {w : Walk} {cycle : List String} (h : Walking g w)
    (hv : visit g w = .error cycle) :
    ∃ node next deps rest onPath done order,
      Walking g ⟨(node, next :: deps) :: rest, onPath, done, order⟩ ∧
        next ∈ path ((node, deps) :: rest) ∧ cycle = cycleAt next ((node, deps) :: rest) := by
  fun_induction visit g w with
  | case1 => cases hv
  | case2 node rest onPath done order ih => exact ih h.finish hv
  | case3 node next deps rest onPath done order hp =>
    cases hv
    exact ⟨node, next, deps, rest, onPath, done, order, h, (h.agrees.onPath next).mp hp, rfl⟩
  | case4 node next deps rest onPath done order _ hd ih => exact ih (h.skip hd) hv
  | case5 node next deps rest onPath done order hp hd ih => exact ih (h.push hp hd) hv

/-! ## Walks from every element -/

theorem walkFrom_cons {start : String} {starts : List String} {w : Walk} :
    walkFrom g (start :: starts) w
      = (if start ∈ w.done then .ok w else visit g (w.push start (g.of start))).bind
          (walkFrom g starts) := rfl

theorem sort_eq : g.sort = (walkFrom g g.nodes {}).map Walk.order := by
  show (do return (← walkFrom g g.nodes {}).order) = _
  cases walkFrom g g.nodes {} <;> rfl

/-- The walks finish what they start from. -/
theorem walkFrom_ok (hg : Built g) {starts : List String} {w w' : Walk} (h : Walking g w)
    (hstack : w.stack = []) (hn : w.order ⊆ g.nodes) (hs : starts ⊆ g.nodes)
    (hw : walkFrom g starts w = .ok w') :
    Walking g w' ∧ w.order ⊆ w'.order ∧ starts ⊆ w'.order ∧ w'.order ⊆ g.nodes := by
  induction starts generalizing w with
  | nil =>
    cases hw
    exact ⟨h, List.Subset.refl _, List.nil_subset _, hn⟩
  | cons start starts ih =>
    obtain ⟨hstart, hstarts⟩ := List.cons_subset.mp hs
    rw [walkFrom_cons] at hw
    by_cases hd : start ∈ w.done
    · rw [if_pos hd] at hw
      obtain ⟨hw', hsub, hsub', hk⟩ := ih h hstack hn hstarts hw
      exact ⟨hw', hsub, List.cons_subset.mpr ⟨hsub ((h.agrees.done start).mp hd), hsub'⟩, hk⟩
    · rw [if_neg hd] at hw
      cases hv : visit g (w.push start (g.of start)) with
      | error cycle => rw [hv] at hw; cases hw
      | ok middle =>
        rw [hv] at hw
        obtain ⟨hm, hempty, hfin, hmk⟩ := visit_ok hg (h.start hstack hd)
          (Walk.met_start hstack ▸ List.cons_subset.mpr ⟨hstart, hn⟩) hv
        obtain ⟨hstart', hdone⟩ := List.cons_subset.mp (Walk.met_start hstack ▸ hfin)
        obtain ⟨hw', hsub, hsub', hk⟩ := ih hm hempty hmk hstarts hw
        exact ⟨hw', List.Subset.trans hdone hsub, List.cons_subset.mpr ⟨hsub hstart', hsub'⟩, hk⟩

/-- The walks fail where one of them does. -/
theorem walkFrom_error (hg : Built g) {starts cycle : List String} {w : Walk} (h : Walking g w)
    (hstack : w.stack = []) (hn : w.order ⊆ g.nodes) (hs : starts ⊆ g.nodes)
    (hw : walkFrom g starts w = .error cycle) :
    ∃ w', Walking g w' ∧ visit g w' = .error cycle := by
  induction starts generalizing w with
  | nil => cases hw
  | cons start starts ih =>
    obtain ⟨hstart, hstarts⟩ := List.cons_subset.mp hs
    rw [walkFrom_cons] at hw
    by_cases hd : start ∈ w.done
    · rw [if_pos hd] at hw
      exact ih h hstack hn hstarts hw
    · rw [if_neg hd] at hw
      cases hv : visit g (w.push start (g.of start)) with
      | error cycle' =>
        rw [hv] at hw
        cases hw
        exact ⟨_, h.start hstack hd, hv⟩
      | ok middle =>
        rw [hv] at hw
        obtain ⟨hm, hempty, -, hmk⟩ := visit_ok hg (h.start hstack hd)
          (Walk.met_start hstack ▸ List.cons_subset.mpr ⟨hstart, hn⟩) hv
        exact ih hm hempty hmk hstarts hw

/-! ## Cycles -/

/-- Each element of a path leads to its inner end. -/
theorem reaches_head {node : String} {outer : List String}
    (h : (node :: outer).IsChain fun inner outer => g.DependsOn outer inner) :
    ∀ x ∈ node :: outer, ReflTransGen g.DependsOn x node := by
  induction outer generalizing node with
  | nil =>
    intro x hx
    rw [List.mem_singleton.mp hx]
  | cons next outer ih =>
    intro x hx
    rcases List.mem_cons.mp hx with rfl | hx
    · exact ReflTransGen.refl
    · exact (ih h.tail x hx).tail h.rel

/-- A dependency on an element of the stack closes a cycle. -/
theorem Walking.cycle {node next : String} {deps onPath done order : List String} {rest : Stack}
    (h : Walking g ⟨(node, next :: deps) :: rest, onPath, done, order⟩)
    (hp : next ∈ path ((node, deps) :: rest)) : TransGen g.DependsOn next next :=
  TransGen.tail' (reaches_head h.linked next hp)
    (h.pending _ List.mem_cons_self next List.mem_cons_self)

/-- An order in which an element comes after what it depends on directly has it after what it
depends on through others. -/
theorem mem_before_of_transGen {order : List String}
    (ha : ∀ before node rest, order = before ++ node :: rest →
      ∀ d, g.DependsOn node d → d ∈ before)
    {before rest : List String} {node d : String} (ho : order = before ++ node :: rest)
    (hd : TransGen g.DependsOn node d) : d ∈ before := by
  induction hd with
  | single hd => exact ha before node rest ho _ hd
  | tail _ hd ih =>
    -- The element in between comes before `node`, and what comes before it does so all the more.
    obtain ⟨before', rest', hb⟩ := List.append_of_mem ih
    have hmem := ha before' _ (rest' ++ node :: rest) (by rw [ho, hb, List.append_assoc]; rfl) _ hd
    rw [hb]
    exact List.mem_append_left _ hmem

/-! ## The order -/

/-- A successful sort has every element once, and after all that it depends on. -/
theorem sort_ok (hg : Built g) {order : List String} (h : g.sort = .ok order) :
    order.Nodup ∧ (∀ node, node ∈ order ↔ node ∈ g.nodes) ∧
      ∀ before node rest, order = before ++ node :: rest →
        ∀ d, g.DependsOn node d → d ∈ before := by
  rw [sort_eq] at h
  cases hw : walkFrom g g.nodes {} with
  | error cycle => rw [hw] at h; cases h
  | ok w =>
    rw [hw] at h
    obtain rfl : w.order = order := Except.ok.inj h
    obtain ⟨hwalk, -, hall, hknown⟩ :=
      walkFrom_ok hg Walking.init rfl (List.nil_subset _) (List.Subset.refl _) hw
    refine ⟨(List.nodup_append.mp hwalk.nodup).2.1, fun node => ?_, hwalk.finished⟩
    exact ⟨fun hn => hknown hn, fun hn => hall hn⟩

/-- A failed sort has found elements that depend on each other. -/
theorem sort_error (hg : Built g) {cycle : List String} (h : g.sort = .error cycle) :
    ∃ node, TransGen g.DependsOn node node := by
  rw [sort_eq] at h
  cases hw : walkFrom g g.nodes {} with
  | ok w => rw [hw] at h; cases h
  | error cycle' =>
    obtain ⟨w, hwalk, hv⟩ :=
      walkFrom_error hg Walking.init rfl (List.nil_subset _) (List.Subset.refl _) hw
    obtain ⟨node, next, deps, rest, onPath, done, order, hwalk', hp, -⟩ := visit_error hwalk hv
    exact ⟨next, hwalk'.cycle hp⟩

/-- An order is found only where there is no cycle. -/
theorem acyclic_of_sort_ok (hg : Built g) {order : List String} (h : g.sort = .ok order) :
    g.Acyclic := by
  obtain ⟨hnodup, hmem, hafter⟩ := sort_ok hg h
  intro node hcycle
  obtain ⟨d, hd, -⟩ := TransGen.head'_iff.mp hcycle
  obtain ⟨before, rest, ho⟩ := List.append_of_mem ((hmem node).mpr (source_mem hd))
  have hbefore := mem_before_of_transGen hafter ho hcycle
  rw [ho] at hnodup
  exact (List.nodup_append.mp hnodup).2.2 node hbefore node List.mem_cons_self rfl

theorem outcome_order : g.order.outcome = g.sort.mapError .circularDependency := by
  unfold order
  cases g.sort <;> rfl

/-- **The order of evaluation.** There is one exactly when no element depends on itself through
others, and a cycle is reported otherwise. The order has every element once, and each element after
all that it depends on. -/
theorem order_topological (hg : Built g) :
    ((∃ order, g.order.outcome = .ok order) ↔ g.Acyclic) ∧
      (¬ g.Acyclic → ∃ cycle, g.order.outcome = .error (.circularDependency cycle)) ∧
      ∀ order, g.order.outcome = .ok order →
        order.Nodup ∧ (∀ node, node ∈ order ↔ node ∈ g.nodes) ∧
          ∀ before node rest, order = before ++ node :: rest →
            ∀ d, g.DependsOn node d → d ∈ before := by
  rw [outcome_order]
  cases hs : g.sort with
  | error cycle =>
    obtain ⟨node, hcycle⟩ := sort_error hg hs
    refine ⟨⟨?_, fun ha => absurd hcycle (ha node)⟩, fun _ => ⟨cycle, rfl⟩, ?_⟩
    · rintro ⟨order, ho⟩
      cases ho
    · intro order ho
      cases ho
  | ok order =>
    have ha := acyclic_of_sort_ok hg hs
    refine ⟨⟨fun _ => ha, fun _ => ⟨order, rfl⟩⟩, fun hn => absurd ha hn, ?_⟩
    intro order' ho
    obtain rfl : order = order' := Except.ok.inj ho
    exact sort_ok hg hs

/-- Two elements that read a third, and one that reads them both. -/
def diamond : Dependencies :=
  (((empty.addEdge "top" ".left").addEdge "top" ".right").addEdge ".left" "#base").addEdge ".right"
    "#base"

theorem order_topological_diamond :
    Built diamond ∧ diamond.order.outcome = .ok ["#base", ".left", ".right", "top"] ∧
      diamond.Acyclic := by
  have hg : Built diamond :=
    (((Built.empty.addEdge "top" ".left").addEdge "top" ".right").addEdge ".left" "#base").addEdge
      ".right" "#base"
  have ho : diamond.order.outcome = .ok ["#base", ".left", ".right", "top"] := by decide +kernel
  exact ⟨hg, ho, (order_topological hg).1.mp ⟨_, ho⟩⟩

end Stencil.Dependencies
