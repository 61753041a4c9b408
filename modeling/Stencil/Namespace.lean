import Stencil.Node

/-!
# Namespaces

Definitions live in a tree of namespaces. In one namespace a name may be defined once for each kind,
and no two namespaces inside it have the same name; the type says so. A lookup from the namespace
`a.b` tries `a.b`, then `a`, then the global namespace, so that an inner definition hides an outer one.

* `define` adds a definition and gives back the one it replaces
* `lookup` finds the innermost definition and the namespace it is in
* `merge` and `mergeUnder` add all definitions of another tree
* `collect` defines everything that a document defines

All changes are made of `add`, which adds a definition to a namespace, and `put`, which puts another
namespace inside it.
-/

namespace Stencil

/-- A tree of namespaces: the definitions in the outermost one, by name and kind, and the trees inside
it, by name. -/
structure Namespace.Tree where
  symbols : OrderedMap (String × Kind) Definition := .empty
  children : List (String × Namespace.Tree) := []

/-- In no namespace of a tree do two of the namespaces inside it have the same name. -/
inductive Namespace.Tree.Proper : Namespace.Tree → Prop
  | mk {symbols : OrderedMap (String × Kind) Definition} {children : List (String × Namespace.Tree)} :
      (children.map Prod.fst).Nodup → (∀ e ∈ children, e.2.Proper) → Proper ⟨symbols, children⟩

/-- A namespace: a tree in which every namespace is there once. -/
structure Namespace where
  tree : Namespace.Tree
  proper : tree.Proper

/-- A definition, and the namespace in which it was found. -/
structure Found where
  definition : Definition
  path : Path

namespace Namespace

theorem Tree.Proper.nodup {t : Tree} (h : t.Proper) : (t.children.map Prod.fst).Nodup := by
  obtain ⟨hnodup, -⟩ := h
  exact hnodup

theorem Tree.Proper.of_mem {t : Tree} (h : t.Proper) : ∀ e ∈ t.children, e.2.Proper := by
  obtain ⟨-, hchildren⟩ := h
  exact hchildren

/-- The namespace with nothing in it. -/
def empty : Namespace := ⟨{}, ⟨List.nodup_nil, by simp⟩⟩

instance : Inhabited Namespace := ⟨empty⟩

/-! ## Reading -/

/-- The namespace with a name inside another. -/
def child? (ns : Namespace) (name : String) : Option Namespace :=
  (ns.tree.children.lookup name).pmap Namespace.mk fun _ h =>
    ns.proper.of_mem _ (OrderedMap.mem_of_lookup h)

/-- The namespace at a path. -/
def descend? (ns : Namespace) : Path → Option Namespace
  | [] => some ns
  | name :: rest => (ns.child? name).bind (descend? · rest)

/-- The definition of a name and kind in exactly this namespace. -/
def get? (ns : Namespace) (name : String) (kind : Kind) : Option Definition :=
  ns.tree.symbols.get? (name, kind)

/-- The definition of a name and kind at exactly a path. -/
def getAt? (ns : Namespace) (path : Path) (name : String) (kind : Kind) : Option Definition :=
  (ns.descend? path).bind (·.get? name kind)

/-- The paths to look through from a path: itself, then each one around it, the global one last. -/
def scopes : Path → List Path
  | [] => [[]]
  | name :: rest => (scopes rest).map (name :: ·) ++ [[]]

/-- The innermost definition of a name and kind that is seen from a path. -/
def lookup (ns : Namespace) (name : String) (kind : Kind) (path : Path) : Option Found :=
  (scopes path).findSome? fun scope =>
    (ns.getAt? scope name kind).map fun definition => { definition, path := scope }

mutual

/-- How many definitions there are in a tree. -/
def Tree.size : Tree → Nat
  | ⟨symbols, children⟩ => symbols.size + Tree.sizeAll children

def Tree.sizeAll : List (String × Tree) → Nat
  | [] => 0
  | (_, child) :: rest => child.size + Tree.sizeAll rest

end

/-- How many definitions there are, in this namespace and inside it. -/
def size (ns : Namespace) : Nat := ns.tree.size

/-! ## Writing -/

theorem Tree.Proper.withSymbols {t : Tree} (h : t.Proper)
    (symbols : OrderedMap (String × Kind) Definition) : Tree.Proper { t with symbols } :=
  ⟨h.nodup, h.of_mem⟩

theorem Tree.Proper.put {t inside : Tree} (h : t.Proper) (hinside : inside.Proper) (name : String) :
    Tree.Proper { t with children := OrderedMap.put name inside t.children } := by
  refine ⟨OrderedMap.nodup_put h.nodup, fun e he => ?_⟩
  rcases OrderedMap.mem_put he with rfl | he
  · exact hinside
  · exact h.of_mem e he

/-- Changes the definitions in this namespace itself. -/
def withSymbols (ns : Namespace) (symbols : OrderedMap (String × Kind) Definition) : Namespace :=
  ⟨{ ns.tree with symbols }, ns.proper.withSymbols symbols⟩

/-- Puts a namespace inside another. One that has its name there is replaced. -/
def put (ns : Namespace) (name : String) (inside : Namespace) : Namespace :=
  ⟨{ ns.tree with children := OrderedMap.put name inside.tree ns.tree.children },
    ns.proper.put inside.proper name⟩

/-- The namespace with a name inside another, with nothing in it if there is none. -/
def child (ns : Namespace) (name : String) : Namespace := (ns.child? name).getD empty

/-- Changes the namespace at a path. Namespaces that are missing on the way are made. -/
def update (f : Namespace → Namespace) : Path → Namespace → Namespace
  | [], ns => f ns
  | name :: rest, ns => ns.put name (update f rest (ns.child name))

/-- Adds a definition to this namespace, under its name and kind. -/
def add (ns : Namespace) (d : Definition) : Namespace :=
  ns.withSymbols (ns.tree.symbols.insert (d.name, d.kind) d)

/-- Defines at a path. A definition of the same name and kind there is replaced, which is worth a
note, and given back. -/
def define (ns : Namespace) (path : Path) (d : Definition) :
    Logged (Option Definition × Namespace) := do
  let previous := ns.getAt? path d.name d.kind
  if let some old := previous then
    Logged.note (.redefinition old.kind old.name path)
  pure (previous, ns.update (·.add d) path)

/-- Defines what a document defines, each definition in its own namespace and in document order. -/
def collect (ns : Namespace) (nodes : List Node) : Logged Namespace :=
  (definitions nodes).foldlM (fun ns d => do return (← ns.define d.path d).2) ns

/-- The definitions of a document. -/
def ofDocument (nodes : List Node) : Logged Namespace := collect empty nodes

mutual

/-- Adds all definitions of a tree, which win over definitions already there. -/
def mergeTree (into : Namespace) : Tree → Namespace
  | ⟨symbols, children⟩ =>
    mergeTrees (into.withSymbols (into.tree.symbols.extend symbols)) children

def mergeTrees (into : Namespace) : List (String × Tree) → Namespace
  | [] => into
  | (name, child) :: rest => mergeTrees (into.put name (mergeTree (into.child name) child)) rest

end

/-- Adds all definitions of another namespace, which win over definitions already there. -/
def merge (into other : Namespace) : Namespace := into.mergeTree other.tree

/-- Adds all definitions of another namespace below a path. -/
def mergeUnder (ns other : Namespace) (path : Path) : Namespace := ns.update (·.merge other) path

end Namespace

end Stencil
