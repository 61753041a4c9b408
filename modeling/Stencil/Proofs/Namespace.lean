import Stencil.Namespace
import Stencil.Proofs.Checked
import Stencil.Proofs.OrderedMap

/-!
# Namespaces: laws

What is defined at which path, after each change of a tree of namespaces. The trees themselves may
differ in the order of what they hold; lookups do not see it.

* `getAt?_define`, `getAt?_merge`, `getAt?_mergeUnder` — what a change defines, and what it leaves
* `getAt?_collect` — a document's definitions win over those that were there
* `lookup_append` — a lookup from below a path, if nothing hides what is there
-/

namespace Stencil.Namespace

variable {ns into other : Namespace} {f : Namespace → Namespace} {path rest : Path}
  {step name : String} {kind : Kind}

/-! ## Namespaces inside -/

/-- The namespace at a path, with nothing in it if there is none. -/
def inner (ns : Namespace) : Path → Namespace
  | [] => ns
  | step :: rest => (ns.child step).inner rest

theorem map_tree_child? (ns : Namespace) (step : String) :
    (ns.child? step).map tree = ns.tree.children.lookup step := by
  rw [child?, Option.map_pmap]
  exact Option.pmap_eq_map _ _ _ _ |>.trans Option.map_id'

/-- The namespaces inside another are those of its trees, each of which is found by its name. -/
theorem child?_eq_some_iff {inside : Namespace} :
    ns.child? step = some inside ↔ (step, inside.tree) ∈ ns.tree.children := by
  have htree : ns.child? step = some inside ↔ ns.tree.children.lookup step = some inside.tree := by
    rw [← map_tree_child?, Option.map_eq_some_iff]
    constructor
    · exact fun h => ⟨inside, h, rfl⟩
    · rintro ⟨⟨tree, hproper⟩, h, rfl⟩
      exact h
  rw [htree]
  exact ⟨OrderedMap.mem_of_lookup, OrderedMap.lookup_of_mem ns.proper.nodup⟩

theorem inner_append (ns : Namespace) (path rest : Path) :
    ns.inner (path ++ rest) = (ns.inner path).inner rest := by
  induction path generalizing ns with
  | nil => rfl
  | cons step path ih => exact ih (ns.child step)

theorem inner_empty (path : Path) : empty.inner path = empty := by
  induction path with
  | nil => rfl
  | cons step rest ih => exact ih

theorem getAt?_cons (ns : Namespace) (step : String) (rest : Path) (name : String) (kind : Kind) :
    ns.getAt? (step :: rest) name kind = (ns.child step).getAt? rest name kind := by
  unfold getAt? child
  rw [descend?]
  cases ns.child? step with
  | some inside => rfl
  | none => cases rest <;> rfl

/-- What is defined at a path is what is defined in the namespace there. -/
theorem getAt?_eq_get?_inner (ns : Namespace) (path : Path) (name : String) (kind : Kind) :
    ns.getAt? path name kind = (ns.inner path).get? name kind := by
  induction path generalizing ns with
  | nil => rfl
  | cons step rest ih => rw [getAt?_cons, ih, inner]

theorem getAt?_append (ns : Namespace) (path rest : Path) (name : String) (kind : Kind) :
    ns.getAt? (path ++ rest) name kind = (ns.inner path).getAt? rest name kind := by
  rw [getAt?_eq_get?_inner, getAt?_eq_get?_inner, inner_append]

theorem getAt?_empty (path : Path) (name : String) (kind : Kind) :
    empty.getAt? path name kind = none := by
  rw [getAt?_eq_get?_inner, inner_empty]
  rfl

/-! ## Changes at a path -/

theorem child_put (ns : Namespace) (step : String) (inside : Namespace) (other : String) :
    (ns.put step inside).child other = if step = other then inside else ns.child other := by
  unfold child child? put
  by_cases h : step = other
  · simp only [OrderedMap.lookup_put, h, if_pos, Option.pmap_some, Option.getD_some]
  · simp only [OrderedMap.lookup_put, h, if_false]

theorem child_update (f : Namespace → Namespace) (step : String) (rest : Path) (ns : Namespace)
    (other : String) : (ns.update f (step :: rest)).child other
      = if step = other then (ns.child other).update f rest else ns.child other := by
  rw [update, child_put]
  split
  · rename_i h
    rw [h]
  · rfl

/-- Below the path of a change stands what the change makes there. -/
theorem inner_update (f : Namespace → Namespace) (path : Path) (ns : Namespace) :
    (ns.update f path).inner path = f (ns.inner path) := by
  induction path generalizing ns with
  | nil => rfl
  | cons step rest ih => rw [inner, child_update, if_pos rfl, ih, inner]

/-- A definition is found where it is made, and everything else is left as it was. -/
theorem getAt?_update_add (d : Definition) (path scope : Path) (ns : Namespace) (name : String)
    (kind : Kind) : (ns.update (·.add d) path).getAt? scope name kind
      = if path = scope ∧ (d.name, d.kind) = (name, kind) then some d
        else ns.getAt? scope name kind := by
  induction path generalizing ns scope with
  | nil =>
    cases scope with
    | nil =>
      show (ns.tree.symbols.insert (d.name, d.kind) d).get? (name, kind) = _
      rw [OrderedMap.get?_insert]
      simp only [true_and]
      rfl
    | cons step rest =>
      rw [if_neg (by simp), getAt?_cons, getAt?_cons]
      rfl
  | cons step path ih =>
    cases scope with
    | nil =>
      rw [if_neg (by simp)]
      rfl
    | cons step' rest =>
      rw [getAt?_cons, getAt?_cons, child_update]
      by_cases hstep : step = step'
      · rw [if_pos hstep, ih]
        simp [hstep]
      · rw [if_neg hstep, if_neg (by simp [hstep])]

theorem value_define (ns : Namespace) (path : Path) (d : Definition) :
    (ns.define path d).value = (ns.getAt? path d.name d.kind, ns.update (·.add d) path) := by
  unfold define
  cases ns.getAt? path d.name d.kind <;> rfl

theorem value_collect (ns : Namespace) (nodes : List Node) : (ns.collect nodes).value
    = (definitions nodes).foldl (fun ns d => ns.update (·.add d) d.path) ns := by
  rw [collect, Logged.value_foldlM]
  simp only [Logged.value_bind, Logged.value_pure, value_define]

/-- What a document defines wins over what was there. -/
theorem getAt?_collect (ns : Namespace) (nodes : List Node) (path : Path) (name : String)
    (kind : Kind) : (ns.collect nodes).value.getAt? path name kind
      = ((ofDocument nodes).value.getAt? path name kind).or (ns.getAt? path name kind) := by
  rw [ofDocument, value_collect, value_collect]
  -- The two trees are kept side by side: each definition goes into both.
  suffices ∀ (ds : List Definition) (into document : Namespace),
      (∀ path name kind, into.getAt? path name kind
        = (document.getAt? path name kind).or (ns.getAt? path name kind)) →
      (ds.foldl (fun ns d => ns.update (·.add d) d.path) into).getAt? path name kind
        = ((ds.foldl (fun ns d => ns.update (·.add d) d.path) document).getAt? path name kind).or
          (ns.getAt? path name kind) by
    refine this (definitions nodes) ns empty fun path name kind => ?_
    rw [getAt?_empty]
    rfl
  intro ds
  induction ds with
  | nil => exact fun into document h => h path name kind
  | cons d rest ih =>
    intro into document h
    refine ih _ _ fun path name kind => ?_
    rw [getAt?_update_add, getAt?_update_add, h]
    split <;> rfl

/-- The definitions of a document are all that it defines. -/
theorem mem_definitions_of_getAt? {nodes : List Node} {d : Definition}
    (h : (ofDocument nodes).value.getAt? path name kind = some d) : d ∈ definitions nodes := by
  refine Logged.foldlM_induction
    (P := fun ns : Namespace => ∀ path name kind d, ns.getAt? path name kind = some d →
      d ∈ definitions nodes)
    (fun path name kind d h => ?_) (fun ns hns e he path name kind d h => ?_) path name kind d h
  · rw [getAt?_empty] at h
    cases h
  · rw [Logged.value_bind, value_define] at h
    dsimp only [Logged.value_pure] at h
    rw [getAt?_update_add] at h
    split at h
    · cases h
      exact he
    · exact hns path name kind d h

/-! ## Merging -/

theorem merge_eq (into other : Namespace) : into.merge other =
    (into.withSymbols (into.tree.symbols.extend other.tree.symbols)).mergeTrees
      other.tree.children := by
  obtain ⟨⟨symbols, children⟩, hproper⟩ := other
  rw [merge, mergeTree]

theorem symbols_mergeTrees (into : Namespace) (trees : List (String × Tree)) :
    (into.mergeTrees trees).tree.symbols = into.tree.symbols := by
  induction trees generalizing into with
  | nil => rfl
  | cons e rest ih =>
    rw [mergeTrees, ih]
    rfl

/-- Each tree of a list is merged into the namespace with its name, and the others are left. -/
theorem child_mergeTrees {trees : List (String × Tree)} (h : (trees.map Prod.fst).Nodup)
    (into : Namespace) (step : String) : (into.mergeTrees trees).child step
      = match trees.lookup step with
        | some inside => (into.child step).mergeTree inside
        | none => into.child step := by
  induction trees generalizing into with
  | nil => rfl
  | cons e rest ih =>
    rw [List.map_cons, List.nodup_cons] at h
    rw [mergeTrees, ih h.2, child_put, OrderedMap.lookup_cons_eq_ite]
    by_cases hstep : e.1 = step
    · rw [if_pos hstep, if_pos hstep, OrderedMap.lookup_eq_none (hstep ▸ h.1), hstep]
    · rw [if_neg hstep, if_neg hstep]

theorem merge_empty (ns : Namespace) : ns.merge empty = ns := by
  obtain ⟨⟨symbols, children⟩, hproper⟩ := ns
  rw [merge_eq, empty, mergeTrees]
  rfl

theorem child_merge (into other : Namespace) (step : String) :
    (into.merge other).child step = (into.child step).merge (other.child step) := by
  rw [merge_eq, child_mergeTrees other.proper.nodup, ← map_tree_child?, child.eq_1 other]
  cases other.child? step with
  | some inside => rfl
  | none => exact (merge_empty _).symm

theorem inner_merge (into other : Namespace) (path : Path) :
    (into.merge other).inner path = (into.inner path).merge (other.inner path) := by
  induction path generalizing into other with
  | nil => rfl
  | cons step rest ih => rw [inner, child_merge, ih, inner, inner]

theorem get?_merge (into other : Namespace) (name : String) (kind : Kind) :
    (into.merge other).get? name kind = (other.get? name kind).or (into.get? name kind) := by
  rw [merge_eq, get?, symbols_mergeTrees]
  exact OrderedMap.get?_extend into.tree.symbols other.tree.symbols (name, kind)

/-- What is merged in wins over what was there. -/
theorem getAt?_merge (into other : Namespace) (path : Path) (name : String) (kind : Kind) :
    (into.merge other).getAt? path name kind
      = (other.getAt? path name kind).or (into.getAt? path name kind) := by
  rw [getAt?_eq_get?_inner, getAt?_eq_get?_inner, getAt?_eq_get?_inner, inner_merge, get?_merge]

/-- What is merged in under a path is found below it. -/
theorem getAt?_mergeUnder (ns other : Namespace) (path rest : Path) (name : String) (kind : Kind) :
    (ns.mergeUnder other path).getAt? (path ++ rest) name kind
      = (other.getAt? rest name kind).or (ns.getAt? (path ++ rest) name kind) := by
  rw [getAt?_append, getAt?_append, mergeUnder, inner_update, getAt?_merge]

/-! ## Lookups -/

/-- Lookups see nothing of a tree but what is defined at which path. -/
theorem lookup_congr (h : ∀ path name kind, ns.getAt? path name kind = other.getAt? path name kind) :
    ns.lookup = other.lookup := by
  funext name kind path
  unfold lookup
  simp only [h]

/-- What a lookup finds is defined where it is found. -/
theorem getAt?_of_lookup {found : Found} (h : ns.lookup name kind path = some found) :
    ns.getAt? found.path name kind = some found.definition := by
  obtain ⟨scope, _, hscope⟩ := List.exists_of_findSome?_eq_some h
  obtain ⟨d, hd, rfl⟩ := Option.map_eq_some_iff.mp hscope
  exact hd

/-- From below a path, a lookup goes through the places below it first. -/
theorem exists_scopes_append (path rest : Path) :
    ∃ outer, scopes (path ++ rest) = (scopes rest).map (path ++ ·) ++ outer := by
  induction path with
  | nil => exact ⟨[], by simp⟩
  | cons step path ih =>
    obtain ⟨outer, houter⟩ := ih
    refine ⟨outer.map (step :: ·) ++ [[]], ?_⟩
    rw [List.cons_append, scopes, houter, List.map_append, List.map_map, List.append_assoc]
    rfl

/-- What is found in a tree is found from below a path at which another tree defines the same. -/
theorem lookup_append {found : Found}
    (h : ∀ rest, ns.getAt? (path ++ rest) name kind = other.getAt? rest name kind)
    (hfound : other.lookup name kind rest = some found) :
    ns.lookup name kind (path ++ rest)
      = some { definition := found.definition, path := path ++ found.path } := by
  obtain ⟨outer, houter⟩ := exists_scopes_append path rest
  have hbelow : ((fun scope => (ns.getAt? scope name kind).map fun definition =>
        ({ definition, path := scope } : Found)) ∘ (path ++ ·))
      = Option.map (fun f => { definition := f.definition, path := path ++ f.path }) ∘
        fun scope => (other.getAt? scope name kind).map fun definition =>
          ({ definition, path := scope } : Found) := by
    funext scope
    simp only [Function.comp_apply, h, Option.map_map]
    rfl
  rw [lookup] at hfound
  rw [lookup, houter, List.findSome?_append, List.findSome?_map, hbelow, ← List.map_findSome?,
    hfound]
  rfl

end Stencil.Namespace
