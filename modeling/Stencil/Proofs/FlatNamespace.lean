import Mathlib.Data.Set.Card
import Stencil.Proofs.Namespace

/-!
# Namespaces as a flat map

A tree of namespaces stands for a finite map: from the path of a namespace, a name and a kind to a
definition. All changes of the tree are changes of this map, whatever the tree looks like inside.

* `Grows` — the trees that come from another one by defining, collecting and merging
* `Grows.keyed` — they keep every definition under its own name and kind
* `places` — all places at which a tree defines something, each of them once
* `lookup_eq_some_iff` — a lookup finds the definition at the longest part of the path that has one
* `refines_flat` — what each change does to the map, and what is read from it
-/

namespace Stencil.Namespace

variable {ns other start : Namespace} {path scope : Path} {name step : String} {kind : Kind}

/-! ## The map of a tree -/

/-- A place for a definition: the path of a namespace, a name in it and a kind. -/
abbrev Place := Path × String × Kind

/-- The definition at a place. -/
def flat (ns : Namespace) (place : Place) : Option Definition :=
  ns.getAt? place.1 place.2.1 place.2.2

/-- The second tree comes from the first one by any sequence of changes. What is merged in on the way
comes from the empty tree in the same manner. -/
inductive Grows : Namespace → Namespace → Prop
  | refl (ns : Namespace) : Grows ns ns
  | define {start ns : Namespace} (path : Path) (d : Definition) :
      Grows start ns → Grows start (ns.define path d).value.2
  | collect {start ns : Namespace} (nodes : List Node) :
      Grows start ns → Grows start (ns.collect nodes).value
  | merge {start ns other : Namespace} :
      Grows start ns → Grows empty other → Grows start (ns.merge other)
  | mergeUnder {start ns other : Namespace} (path : Path) :
      Grows start ns → Grows empty other → Grows start (ns.mergeUnder other path)

/-! ## What a change leaves alone -/

/-- A change at a path is not seen outside of it. -/
theorem getAt?_update_outside (f : Namespace → Namespace) (ns : Namespace)
    (h : ¬ path <+: scope) (name : String) (kind : Kind) :
    (ns.update f path).getAt? scope name kind = ns.getAt? scope name kind := by
  induction path generalizing ns scope with
  | nil => exact absurd List.nil_prefix h
  | cons step rest ih =>
    cases scope with
    | nil => rfl
    | cons step' scope =>
      rw [getAt?_cons, getAt?_cons, child_update]
      by_cases hstep : step = step'
      · have hrest : ¬ rest <+: scope := fun hp => h (List.cons_prefix_cons.mpr ⟨hstep, hp⟩)
        rw [if_pos hstep, ih _ hrest]
      · rw [if_neg hstep]

theorem flat_define (ns : Namespace) (path : Path) (d : Definition) :
    (ns.define path d).value.2.flat
      = Function.update ns.flat (path, d.name, d.kind) (some d) := by
  funext ⟨scope, name, kind⟩
  rw [value_define, Function.update_apply]
  show (ns.update (·.add d) path).getAt? scope name kind = _
  rw [getAt?_update_add]
  by_cases hplace : (scope, name, kind) = (path, d.name, d.kind)
  · have hsame : path = scope ∧ (d.name, d.kind) = (name, kind) := by simp_all
    rw [if_pos hsame, if_pos hplace]
  · have hother : ¬ (path = scope ∧ (d.name, d.kind) = (name, kind)) := by
      rintro ⟨rfl, hkey⟩
      exact hplace (by rw [hkey])
    rw [if_neg hother, if_neg hplace]
    rfl

/-- What a document defines is defined one after the other. -/
theorem flat_collect (ns : Namespace) (nodes : List Node) :
    (ns.collect nodes).value.flat = (definitions nodes).foldl
      (fun m d => Function.update m (d.path, d.name, d.kind) (some d)) ns.flat := by
  rw [value_collect]
  generalize definitions nodes = ds
  induction ds generalizing ns with
  | nil => rfl
  | cons d rest ih =>
    have hdefine := flat_define ns d.path d
    rw [value_define] at hdefine
    rw [List.foldl_cons, List.foldl_cons, ih, hdefine]

/-- A document is gone through node by node; elements are gone through inside. -/
theorem value_collect_cons (ns : Namespace) (node : Node) (rest : List Node) :
    (ns.collect (node :: rest)).value = match node with
      | .definition d => ((ns.define d.path d).value.2.collect rest).value
      | .element e => ((ns.collect e.children).value.collect rest).value
      | _ => (ns.collect rest).value := by
  cases node with
  | definition d => simp [value_collect, definitions, Node.definitions, value_define]
  | element e =>
    obtain ⟨tag, attributes, children⟩ := e
    simp [value_collect, definitions, Node.definitions, List.foldl_append]
  | text text => simp [value_collect, definitions, Node.definitions]
  | style block => simp [value_collect, definitions, Node.definitions]
  | usage usage => simp [value_collect, definitions, Node.definitions]

/-- No place loses its definition. -/
theorem Grows.isSome_flat (h : Grows start ns) {place : Place} (hplace : (start.flat place).isSome) :
    (ns.flat place).isSome := by
  induction h with
  | refl => exact hplace
  | define path d _ ih =>
    rw [flat_define, Function.update_apply]
    split
    · rfl
    · exact ih hplace
  | @collect start ns nodes _ ih =>
    have hns := ih hplace
    show ((ns.collect nodes).value.getAt? _ _ _).isSome
    rw [getAt?_collect, Option.isSome_or]
    exact Bool.or_eq_true_iff.mpr (Or.inr hns)
  | @merge start ns other _ _ ih _ =>
    have hns := ih hplace
    show ((ns.merge other).getAt? _ _ _).isSome
    rw [getAt?_merge, Option.isSome_or]
    exact Bool.or_eq_true_iff.mpr (Or.inr hns)
  | @mergeUnder start ns other path _ _ ih _ =>
    have hns := ih hplace
    obtain ⟨scope, name, kind⟩ := place
    show ((ns.mergeUnder other path).getAt? scope name kind).isSome
    by_cases hp : path <+: scope
    · obtain ⟨below, rfl⟩ := hp
      rw [getAt?_mergeUnder, Option.isSome_or]
      exact Bool.or_eq_true_iff.mpr (Or.inr hns)
    · rw [Namespace.mergeUnder, getAt?_update_outside _ _ hp]
      exact hns

/-! ## Keys -/

/-- Every definition is kept under its own name and kind. -/
def Keyed (ns : Namespace) : Prop :=
  ∀ ⦃path name kind d⦄, ns.getAt? path name kind = some d → d.name = name ∧ d.kind = kind

theorem keyed_empty : empty.Keyed := by
  intro path name kind d h
  rw [getAt?_empty] at h
  cases h

theorem Keyed.update_add (h : ns.Keyed) (path : Path) (d : Definition) :
    (ns.update (·.add d) path).Keyed := by
  intro scope name kind d' hd
  rw [getAt?_update_add] at hd
  split at hd
  · rename_i hplace
    cases hd
    exact Prod.mk.inj hplace.2
  · exact h hd

theorem Keyed.collect (h : ns.Keyed) (nodes : List Node) : (ns.collect nodes).value.Keyed := by
  rw [value_collect]
  generalize definitions nodes = ds
  induction ds generalizing ns with
  | nil => exact h
  | cons d rest ih => exact ih (h.update_add d.path d)

/-- A definition in one of two trees is kept under its own name and kind if all are. -/
theorem Keyed.of_or (h : ns.Keyed) (hother : other.Keyed) {below : Path} {d : Definition}
    (hd : (other.getAt? below name kind).or (ns.getAt? path name kind) = some d) :
    d.name = name ∧ d.kind = kind := by
  rcases Option.or_eq_some_iff.mp hd with hd | ⟨-, hd⟩
  · exact hother hd
  · exact h hd

/-- Definitions are kept under their own names and kinds, whatever the changes. -/
theorem Grows.keyed (h : Grows start ns) (hstart : start.Keyed) : ns.Keyed := by
  induction h with
  | refl => exact hstart
  | define path d _ ih =>
    rw [value_define]
    exact (ih hstart).update_add path d
  | collect nodes _ ih => exact (ih hstart).collect nodes
  | merge _ _ ih ihother =>
    intro path name kind d hd
    rw [getAt?_merge] at hd
    exact (ih hstart).of_or (ihother keyed_empty) hd
  | mergeUnder path _ _ ih ihother =>
    intro scope name kind d hd
    by_cases hp : path <+: scope
    · obtain ⟨below, rfl⟩ := hp
      rw [getAt?_mergeUnder] at hd
      exact (ih hstart).of_or (ihother keyed_empty) hd
    · rw [Namespace.mergeUnder, getAt?_update_outside _ _ hp] at hd
      exact ih hstart hd

/-! ## All places -/

mutual

/-- The places at which something is defined. -/
def Tree.places : Tree → List Place
  | ⟨symbols, children⟩ => symbols.keys.map (([], ·)) ++ Tree.placesAll children

def Tree.placesAll : List (String × Tree) → List Place
  | [] => []
  | (step, child) :: rest => child.places.map (fun p => (step :: p.1, p.2)) ++ Tree.placesAll rest

end

mutual

/-- The definitions of a tree are counted place by place. -/
theorem Tree.length_places : (t : Tree) → t.places.length = t.size
  | ⟨symbols, children⟩ => by
    rw [Tree.places, Tree.size, List.length_append, List.length_map,
      Tree.length_placesAll children]
    simp [OrderedMap.keys, OrderedMap.size]

theorem Tree.length_placesAll : (children : List (String × Tree)) →
    (Tree.placesAll children).length = Tree.sizeAll children
  | [] => rfl
  | (step, child) :: rest => by
    rw [Tree.placesAll, Tree.sizeAll, List.length_append, List.length_map,
      Tree.length_places child, Tree.length_placesAll rest]

end

theorem Tree.mem_placesAll {children : List (String × Tree)} {place : Place} :
    place ∈ Tree.placesAll children ↔
      ∃ step child below, (step, child) ∈ children ∧ below ∈ child.places ∧
        place = (step :: below.1, below.2) := by
  induction children with
  | nil => simp [Tree.placesAll]
  | cons e rest ih =>
    obtain ⟨step, child⟩ := e
    rw [Tree.placesAll, List.mem_append, List.mem_map, ih]
    constructor
    · rintro (⟨below, hbelow, rfl⟩ | ⟨step', child', below, hmem, hbelow, rfl⟩)
      · exact ⟨step, child, below, List.mem_cons_self, hbelow, rfl⟩
      · exact ⟨step', child', below, List.mem_cons_of_mem _ hmem, hbelow, rfl⟩
    · rintro ⟨step', child', below, hmem, hbelow, rfl⟩
      rcases List.mem_cons.mp hmem with heq | hmem
      · cases heq
        exact Or.inl ⟨below, hbelow, rfl⟩
      · exact Or.inr ⟨step', child', below, hmem, hbelow, rfl⟩

theorem Tree.mem_places_nil {t : Tree} {key : String × Kind} :
    (([], key) : Place) ∈ t.places ↔ key ∈ t.symbols.keys := by
  obtain ⟨symbols, children⟩ := t
  rw [Tree.places, List.mem_append, Tree.mem_placesAll]
  simp

theorem Tree.mem_places_cons {t : Tree} {rest : Path} {key : String × Kind} :
    ((step :: rest, key) : Place) ∈ t.places ↔
      ∃ child, (step, child) ∈ t.children ∧ (rest, key) ∈ child.places := by
  obtain ⟨symbols, children⟩ := t
  rw [Tree.places, List.mem_append, Tree.mem_placesAll]
  constructor
  · rintro (h | ⟨step', child, below, hmem, hbelow, heq⟩)
    · simp at h
    · cases heq
      exact ⟨child, hmem, hbelow⟩
  · rintro ⟨child, hmem, hbelow⟩
    exact Or.inr ⟨step, child, (rest, key), hmem, hbelow, rfl⟩

/-- The places of a tree are those at which something is found. -/
theorem mem_places_iff (ns : Namespace) (place : Place) :
    place ∈ ns.tree.places ↔ (ns.flat place).isSome := by
  obtain ⟨path, key⟩ := place
  show _ ↔ (ns.getAt? path key.1 key.2).isSome
  induction path generalizing ns with
  | nil =>
    rw [Tree.mem_places_nil]
    exact OrderedMap.contains_iff_mem_keys.symm
  | cons step rest ih =>
    rw [Tree.mem_places_cons, getAt?_cons, ← ih (ns.child step)]
    constructor
    · rintro ⟨child, hmem, hplace⟩
      have hchild : ns.child? step = some ⟨child, ns.proper.of_mem _ hmem⟩ :=
        child?_eq_some_iff.mpr hmem
      rw [Namespace.child, hchild]
      exact hplace
    · intro hplace
      rw [Namespace.child] at hplace
      cases hchild : ns.child? step with
      | none =>
        rw [hchild, Option.getD_none, empty, Tree.places] at hplace
        cases hplace
      | some inside =>
        rw [hchild] at hplace
        exact ⟨inside.tree, child?_eq_some_iff.mp hchild, hplace⟩

mutual

/-- No place is named twice. -/
theorem Tree.Proper.nodup_places : {t : Tree} → t.Proper → t.places.Nodup
  | ⟨symbols, children⟩, h => by
    have hkeys : (symbols.keys.map fun key => (([], key) : Place)).Nodup :=
      symbols.keys_nodup.map fun _ _ heq => (Prod.mk.inj heq).2
    rw [Tree.places, List.nodup_append]
    refine ⟨hkeys, Tree.Proper.nodup_placesAll h.nodup h.of_mem, ?_⟩
    intro a ha b hb hab
    obtain ⟨key, -, rfl⟩ := List.mem_map.mp ha
    obtain ⟨step, child, below, -, -, rfl⟩ := Tree.mem_placesAll.mp hb
    cases hab

theorem Tree.Proper.nodup_placesAll : {children : List (String × Tree)} →
    (children.map Prod.fst).Nodup → (∀ e ∈ children, e.2.Proper) →
    (Tree.placesAll children).Nodup
  | [], _, _ => List.nodup_nil
  | (step, child) :: rest, hnodup, hproper => by
    rw [List.map_cons, List.nodup_cons] at hnodup
    have hchild : child.Proper := hproper (step, child) List.mem_cons_self
    have hbelow : (child.places.map fun p => ((step :: p.1, p.2) : Place)).Nodup := by
      refine hchild.nodup_places.map fun p q heq => ?_
      simp only [Prod.mk.injEq, List.cons.injEq, true_and] at heq
      exact Prod.ext heq.1 heq.2
    have hrest : (Tree.placesAll rest).Nodup :=
      Tree.Proper.nodup_placesAll hnodup.2 fun e he => hproper e (List.mem_cons_of_mem _ he)
    rw [Tree.placesAll, List.nodup_append]
    refine ⟨hbelow, hrest, ?_⟩
    -- The places of two namespaces differ in their first step.
    intro a ha b hb hab
    obtain ⟨p, -, rfl⟩ := List.mem_map.mp ha
    obtain ⟨step', child', below, hmem, -, rfl⟩ := Tree.mem_placesAll.mp hb
    obtain rfl : step = step' := (List.cons.inj (Prod.mk.inj hab).1).1
    exact hnodup.1 (List.mem_map.mpr ⟨_, hmem, rfl⟩)

end

/-- A tree has as many definitions as places. -/
theorem ncard_flat (ns : Namespace) :
    {place | (ns.flat place).isSome}.Finite ∧ {place | (ns.flat place).isSome}.ncard = ns.size := by
  have hset : {place | (ns.flat place).isSome} = (ns.tree.places.toFinset : Set Place) := by
    ext place
    simp [mem_places_iff]
  rw [hset]
  refine ⟨Finset.finite_toSet _, ?_⟩
  rw [Set.ncard_coe_finset, List.toFinset_card_of_nodup ns.proper.nodup_places,
    ns.tree.length_places, size]

/-! ## Lookups -/

theorem mem_scopes : scope ∈ scopes path ↔ scope <+: path := by
  induction path generalizing scope with
  | nil => simp [scopes]
  | cons step rest ih =>
    rw [scopes, List.mem_append, List.mem_map, List.mem_singleton, List.prefix_cons_iff]
    constructor
    · rintro (⟨scope, hscope, rfl⟩ | rfl)
      · exact Or.inr ⟨scope, rfl, ih.mp hscope⟩
      · exact Or.inl rfl
    · rintro (rfl | ⟨scope, rfl, hscope⟩)
      · exact Or.inr rfl
      · exact Or.inl ⟨scope, ih.mpr hscope, rfl⟩

/-- The longest path comes first. -/
theorem pairwise_scopes (path : Path) :
    (scopes path).Pairwise fun longer shorter => shorter.length < longer.length := by
  induction path with
  | nil => exact List.pairwise_singleton _ _
  | cons step rest ih =>
    rw [scopes, List.pairwise_append, List.pairwise_map]
    refine ⟨ih.imp fun h => by simpa using h, List.pairwise_singleton _ _, ?_⟩
    intro longer hlonger shorter hshorter
    obtain ⟨scope, -, rfl⟩ := List.mem_map.mp hlonger
    rw [List.mem_singleton.mp hshorter]
    simp

theorem lookup_eq_some_iff {found : Found} : ns.lookup name kind path = some found ↔
    found.path <+: path ∧ ns.flat (found.path, name, kind) = some found.definition ∧
      ∀ scope, scope <+: path → found.path.length < scope.length →
        ns.flat (scope, name, kind) = none := by
  obtain ⟨d, foundAt⟩ := found
  have hlonger := pairwise_scopes path
  rw [lookup, List.findSome?_eq_some_iff]
  constructor
  · rintro ⟨longer, scope, shorter, hsplit, hscope, hnone⟩
    obtain ⟨d', hd', heq⟩ := Option.map_eq_some_iff.mp hscope
    cases heq
    refine ⟨mem_scopes.mp (by rw [hsplit]; simp), hd', fun scope' hscope' hlen => ?_⟩
    rw [hsplit, List.pairwise_append, List.pairwise_cons] at hlonger
    have hmem := mem_scopes.mpr hscope'
    rw [hsplit, List.mem_append, List.mem_cons] at hmem
    rcases hmem with hmem | rfl | hmem
    · exact Option.map_eq_none_iff.mp (hnone scope' hmem)
    · exact absurd hlen (Nat.lt_irrefl _)
    · have hshort := hlonger.2.1.1 scope' hmem
      exact absurd hlen (Nat.not_lt_of_lt hshort)
  · rintro ⟨hpart, hd, hnone⟩
    obtain ⟨longer, shorter, hsplit⟩ := List.append_of_mem (mem_scopes.mpr hpart)
    refine ⟨longer, foundAt, shorter, hsplit, Option.map_eq_some_iff.mpr ⟨d, hd, rfl⟩, ?_⟩
    intro scope hscope
    rw [hsplit, List.pairwise_append] at hlonger
    have hlen := hlonger.2.2 scope hscope foundAt List.mem_cons_self
    have hmem : scope ∈ scopes path := by
      rw [hsplit]
      exact List.mem_append_left _ hscope
    exact Option.map_eq_none_iff.mpr (hnone scope (mem_scopes.mp hmem) hlen)

theorem lookup_eq_none_iff : ns.lookup name kind path = none ↔
    ∀ scope, scope <+: path → ns.flat (scope, name, kind) = none := by
  rw [lookup, List.findSome?_eq_none_iff]
  simp only [mem_scopes, Option.map_eq_none_iff]
  rfl

/-! ## Refinement -/

/-- **A tree of namespaces is a finite map.** A definition changes the map at one place and gives back
what was there; a merge binds what the other tree binds and leaves the rest; a merge under a path does
so below the path; a document is a definition after the other, in the order in which they stand;
nothing that is bound is ever lost; the size is the number of places that are bound; and a lookup finds
what is bound at the longest part of the path. -/
theorem refines_flat (ns : Namespace) :
    (∀ path d, (ns.define path d).value.1 = ns.flat (path, d.name, d.kind) ∧
      (ns.define path d).value.2.flat
        = Function.update ns.flat (path, d.name, d.kind) (some d)) ∧
    (∀ other place,
      (ns.merge other).flat place = (other.flat place).or (ns.flat place)) ∧
    (∀ other path,
      (∀ below key, (ns.mergeUnder other path).flat (path ++ below, key)
        = (other.flat (below, key)).or (ns.flat (path ++ below, key))) ∧
      ∀ scope key, ¬ path <+: scope →
        (ns.mergeUnder other path).flat (scope, key) = ns.flat (scope, key)) ∧
    (∀ nodes, (ns.collect nodes).value.flat = (definitions nodes).foldl
      (fun m d => Function.update m (d.path, d.name, d.kind) (some d)) ns.flat) ∧
    (∀ node rest, (ns.collect (node :: rest)).value = match node with
      | .definition d => ((ns.define d.path d).value.2.collect rest).value
      | .element e => ((ns.collect e.children).value.collect rest).value
      | _ => (ns.collect rest).value) ∧
    (∀ later, Grows ns later → ∀ place, (ns.flat place).isSome → (later.flat place).isSome) ∧
    {place | (ns.flat place).isSome}.Finite ∧
    {place | (ns.flat place).isSome}.ncard = ns.size ∧
    ∀ name kind path,
      (∀ found, ns.lookup name kind path = some found ↔
        found.path <+: path ∧ ns.flat (found.path, name, kind) = some found.definition ∧
          ∀ scope, scope <+: path → found.path.length < scope.length →
            ns.flat (scope, name, kind) = none) ∧
      (ns.lookup name kind path = none ↔
        ∀ scope, scope <+: path → ns.flat (scope, name, kind) = none) := by
  obtain ⟨hfinite, hcard⟩ := ncard_flat ns
  refine ⟨fun path d => ⟨?_, flat_define ns path d⟩, fun other place => ?_,
    fun other path => ⟨fun below key => ?_, fun scope key hp => ?_⟩, flat_collect ns,
    value_collect_cons ns, fun later hlater place hplace => hlater.isSome_flat hplace,
    hfinite, hcard, fun name kind path => ⟨fun found => lookup_eq_some_iff, lookup_eq_none_iff⟩⟩
  · rw [value_define]
    rfl
  · exact getAt?_merge ns other _ _ _
  · exact getAt?_mergeUnder ns other path below _ _
  · exact getAt?_update_outside _ _ hp _ _

/-- A style of one property. -/
def button (color : String) : Definition where
  form := .template
  name := "Button"
  body := .style { inline := .ofList [("color", .literal color)] }

/-- A global style, and one of the same name that is merged in further inside. -/
def shelf : Namespace :=
  (empty.define [] (button "grey")).value.2.mergeUnder
    (empty.define ["forms"] (button "blue")).value.2 ["lib"]

theorem refines_flat_shelf :
    Grows empty shelf ∧ {place | (shelf.flat place).isSome}.ncard = 2 ∧
      shelf.lookup "Button" .style ["lib", "forms", "small"]
        = some ⟨button "blue", ["lib", "forms"]⟩ ∧
      shelf.flat (["lib", "forms", "small"], "Button", .style) = none := by
  have h : Grows empty shelf := .mergeUnder _ (.define _ _ (.refl _)) (.define _ _ (.refl _))
  obtain ⟨-, -, -, -, -, -, -, hcard, hlookup⟩ := refines_flat shelf
  have hfound : shelf.lookup "Button" .style ["lib", "forms", "small"]
      = some ⟨button "blue", ["lib", "forms"]⟩ := rfl
  obtain ⟨-, -, hlonger⟩ := ((hlookup _ _ _).1 _).mp hfound
  exact ⟨h, hcard, hfound, hlonger _ List.prefix_rfl (by decide)⟩

end Stencil.Namespace
