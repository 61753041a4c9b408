import Stencil.Proofs.ReportedCycles

/-!
# Bodies of the kinds they are kept under

A definition is kept under its own name and the kind of its own body, whatever it replaces and however
trees of namespaces are merged. So what is looked up as an element is one, and what is looked up as a
style is one. Expansion never meets a body that it has no use for.

* `Namespace.Stored` — a definition that is kept somewhere in a tree, and what it is kept under
* `Namespace.Stored.getAt?_eq` — all that is kept is found
* `raising_own_kind` — no body of another kind is met at any site
* `bodies_of_own_kind` — all of this of the trees that there are
-/

namespace Stencil

namespace Namespace

variable {ns : Namespace} {path : Path} {key : String × Kind} {d : Definition}

/-- A definition is kept under a name and a kind, in the namespace at a path. -/
inductive Stored : Namespace → Path → String × Kind → Definition → Prop
  | here {ns : Namespace} {key : String × Kind} {d : Definition} :
      (key, d) ∈ ns.tree.symbols.entries → Stored ns [] key d
  | inside {ns child : Namespace} {step : String} {path : Path} {key : String × Kind}
      {d : Definition} : (step, child.tree) ∈ ns.tree.children → Stored child path key d →
      Stored ns (step :: path) key d

/-- What is kept is found, since no other namespace of the same name is in the way. -/
theorem Stored.getAt?_eq (h : Stored ns path key d) : ns.getAt? path key.1 key.2 = some d := by
  induction h with
  | here hentry => exact OrderedMap.get?_eq_some_iff.mpr hentry
  | inside hchild _ ih => rw [getAt?_cons, child, child?_eq_some_iff.mpr hchild, Option.getD_some, ih]

theorem Keyed.key_eq (h : ns.Keyed) (hd : Stored ns path key d) : key = (d.name, d.body.kind) := by
  obtain ⟨hname, hkind⟩ := h hd.getAt?_eq
  exact Prod.ext hname.symm hkind.symm

end Namespace

namespace Expansion

open Checked

variable {table : Namespace}

/-- A failure that does not come from a body of another kind. -/
def OwnKind (e : ExpandError) : Prop := ∀ kind name, e ≠ .foreignBody kind name

/-- Where definitions are kept under their own kinds, only frames that are not on the stack remain to
be looked at. -/
theorem raising_own_kind_of_fresh (hkeyed : table.Keyed) {maxDepth n : Nat} {stack : List Frame}
    (hfresh : ∀ {β : Type} (content : Content β) (frame : Frame), frame ∉ stack →
      ((Site.atLevel table maxDepth n stack).enterWith frame content).Raises OwnKind) :
    (Site.atLevel table maxDepth n stack).Raising (fun _ => True) OwnKind := by
  refine raising_of_enter hkeyed (level_normal table maxDepth n) (by simp [OwnKind])
    (by simp [OwnKind]) (by simp [OwnKind]) fun content _ link _ _ _ _ => ?_
  by_cases hcycle : link.frame ∈ stack
  · rw [enterWith_of_mem hcycle]
    exact Raises.throw (by simp [OwnKind])
  · exact hfresh content link.frame hcycle

/-- Nothing goes wrong because of a body of another kind: not when a definition is entered, and not
further inside. -/
theorem raising_own_kind (hkeyed : table.Keyed) (maxDepth n : Nat) (stack : List Frame) :
    (Site.atLevel table maxDepth n stack).Raising (fun _ => True) OwnKind := by
  induction n generalizing stack with
  | zero =>
    refine raising_own_kind_of_fresh hkeyed fun content frame hframe => ?_
    rw [enterWith_atLevel_zero hframe]
    exact Raises.throw (by simp [OwnKind])
  | succ n ih =>
    refine raising_own_kind_of_fresh hkeyed fun content frame hframe => ?_
    rw [enterWith_atLevel_succ hframe]
    exact raises_expandContent (ih (frame :: stack)) content fun _ _ => trivial

/-- **Every definition is kept under its own name and the kind of its own body.** In every tree that
comes from definitions, documents and merges, this holds of all that is kept anywhere. So a lookup finds
a definition of the name and a body of the kind that were asked for. A usage of an element leads to
nodes and a usage of a style to a style block, from whatever definitions it stands in, and nothing that
can be asked for fails because of a body of another kind. -/
theorem bodies_of_own_kind (htable : Namespace.Grows .empty table) :
    (∀ path key d, table.Stored path key d → key = (d.name, d.body.kind)) ∧
    (∀ name kind path found, table.lookup name kind path = some found →
      found.definition.name = name ∧ found.definition.body.kind = kind) ∧
    ∀ maxDepth stack, let site := Site.ofStack table maxDepth stack
      (∀ name path found, (site.resolve .element name path).outcome = .ok found →
        ∃ nodes, found.definition.body = .element nodes ∧ Site.elementBody found = pure nodes) ∧
      (∀ name path found, (site.resolve .style name path).outcome = .ok found →
        ∃ block, found.definition.body = .style block ∧ Site.styleBody found = pure block) ∧
      ∀ (α : Type) (request : Request α) kind name,
        (site.run request).outcome ≠ .error (.foreignBody kind name) := by
  have hkeyed : table.Keyed := htable.keyed Namespace.keyed_empty
  refine ⟨fun path key d hd => hkeyed.key_eq hd, fun name kind path found hfound =>
    hkeyed (Namespace.getAt?_of_lookup hfound), fun maxDepth stack => ?_⟩
  intro site
  refine ⟨fun name path found hfound => ?_, fun name path found hfound => ?_, ?_⟩
  · obtain ⟨nodes, hbody⟩ := exists_nodes_of_lookup hkeyed (resolve_yields site _ _ _ hfound)
    exact ⟨nodes, hbody, by rw [Site.elementBody, hbody]⟩
  · obtain ⟨block, hbody⟩ := exists_block_of_lookup hkeyed (resolve_yields site _ _ _ hfound)
    exact ⟨block, hbody, by rw [Site.styleBody, hbody]⟩
  · intro α request kind name herror
    exact raises_run (raising_own_kind hkeyed maxDepth _ stack) request (fun _ _ => trivial) herror
      kind name rfl

/-- A style of a button that takes the place of another one, and a button of the same name, which is
merged in beside it. -/
def toolbox : Namespace :=
  let plain : Definition := ⟨.template, "Button", [], .style {}⟩
  let bordered : Definition := ⟨.custom ["color"], "Button", [],
    .style { inline := .ofList [("border", .literal "solid")] }⟩
  let button : Definition := ⟨.template, "Button", [], .element [.text "press"]⟩
  let styles := (Namespace.empty.define ["kit"] plain).value.2
  (styles.define ["kit"] bordered).value.2.mergeUnder
    (Namespace.empty.define [] button).value.2 ["kit"]

theorem bodies_of_own_kind_toolbox :
    let site := Site.ofStack toolbox 1 []
    let usage (kind : Kind) : Usage := ⟨kind, "Button", ["kit", "forms"], []⟩
    Namespace.Grows .empty toolbox ∧
      (∃ found, (site.resolve .style "Button" ["kit", "forms"]).outcome = .ok found ∧
        found.definition.valueless = ["color"] ∧ found.definition.body.kind = .style ∧
        toolbox.Stored ["kit"] ("Button", .style) found.definition) ∧
      (site.run (.usage (usage .element))).outcome = .ok [.text "press"] ∧
      ∀ kind name, (site.run (.usage (usage .style))).outcome ≠ .error (.foreignBody kind name) := by
  intro site usage
  have htable : Namespace.Grows .empty toolbox :=
    .mergeUnder _ (.define _ _ (.define _ _ (.refl _))) (.define _ _ (.refl _))
  obtain ⟨-, hlookup, hsites⟩ := bodies_of_own_kind htable
  obtain ⟨-, -, hrun⟩ := hsites 1 []
  refine ⟨htable, ⟨_, rfl, rfl, (hlookup "Button" .style ["kit", "forms"] _ rfl).2, ?_⟩, rfl,
    hrun _ _⟩
  exact .inside List.mem_cons_self (.here List.mem_cons_self)

end Expansion

end Stencil
