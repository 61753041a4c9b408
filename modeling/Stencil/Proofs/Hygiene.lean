import Stencil.Proofs.Requests

/-!
# Hygiene

What a usage without specializations expands to depends on the definition that it is a usage of, and
on nothing around it. The stack that it is expanded at decides where it is looked up, and it may bring
on a cycle or use up the depth. Once the definition is entered, its own frame is on top, and all that
is looked up inside is looked up from there.

* `SameIfBothSucceed` — two computations cannot succeed in different ways
* `same_enterWith` — entering a definition from anywhere
* `expandUsage_hygienic` — usages of one definition
-/

namespace Stencil.Expansion

variable {table : Namespace} {maxDepth maxDepth' n n' : Nat} {stack stack' : List Frame} {α : Type}

/-! ## Two runs -/

/-- If both computations succeed, then with the same result and the same notes. -/
def SameIfBothSucceed (x y : Expanding α) : Prop :=
  ∀ ⦃a b : α⦄, x.outcome = .ok a → y.outcome = .ok b → x = y

/-- Not succeeding in different ways, as a simulation. -/
def sameIfBothSucceed : Simulation Expanding Expanding where
  rel x y := SameIfBothSucceed x y
  rel_pure _ _ _ _ _ := rfl
  rel_bind {α β x y f g} hx hf c d hc hd := by
    obtain ⟨a, ha, hc⟩ := Checked.outcome_bind_eq_ok_iff.mp hc
    obtain ⟨b, hb, hd⟩ := Checked.outcome_bind_eq_ok_iff.mp hd
    obtain rfl := hx ha hb
    obtain rfl : a = b := Except.ok.inj (ha.symm.trans hb)
    refine Checked.bind_congr_ok fun a' ha' => ?_
    obtain rfl : a = a' := Except.ok.inj (ha.symm.trans ha')
    exact hf a hc hd

theorem SameIfBothSucceed.of_throw_left (e : ExpandError) (y : Expanding α) :
    SameIfBothSucceed (throw e) y := fun _ _ h => nomatch h

theorem SameIfBothSucceed.of_throw_right (x : Expanding α) (e : ExpandError) :
    SameIfBothSucceed x (throw e) := fun _ _ _ h => nomatch h

/-! ## Entering a definition from anywhere -/

/-- What a definition holds expands to the same wherever it is entered from, and however much depth is
left. -/
theorem same_enterWith (frame : Frame) (content : Content α) :
    SameIfBothSucceed ((Site.atLevel table maxDepth n stack).enterWith frame content)
      ((Site.atLevel table maxDepth' n' stack').enterWith frame content) := by
  induction n generalizing n' stack stack' frame α with
  | zero =>
    by_cases hcycle : frame ∈ stack
    · rw [enterWith_of_mem hcycle]
      exact .of_throw_left _ _
    · rw [enterWith_atLevel_zero hcycle]
      exact .of_throw_left _ _
  | succ n ih =>
    by_cases hcycle : frame ∈ stack
    · rw [enterWith_of_mem hcycle]
      exact .of_throw_left _ _
    by_cases hcycle' : frame ∈ stack'
    · have hthrow : (Site.atLevel table maxDepth' n' stack').enterWith frame content
          = throw (.cyclic frame.name) := enterWith_of_mem hcycle' content
      rw [hthrow]
      exact .of_throw_right _ _
    cases n' with
    | zero =>
      rw [enterWith_atLevel_zero hcycle']
      exact .of_throw_right _ _
    | succ n' =>
      rw [enterWith_atLevel_succ hcycle, enterWith_atLevel_succ hcycle']
      -- The frame is on top of both stacks, so that the scope inside is the same.
      have hsites : Site.Related sameIfBothSucceed (fun _ => True)
          (Site.atLevel table maxDepth n (frame :: stack))
          (Site.atLevel table maxDepth' n' (frame :: stack')) :=
        related_of_enter rfl rfl (fun _ _ _ _ _ _ => rfl) fun content frame _ => ih frame content
      exact rel_expandContent hsites content

/-! ## Usages of one definition -/

/-- A lookup that succeeds does nothing else. -/
theorem resolve_eq_pure {site : Site} {kind : Kind} {name : String} {path : Path} {found : Found}
    (h : (site.resolve kind name path).outcome = .ok found) :
    site.resolve kind name path = pure found := by
  unfold Site.resolve at h ⊢
  dsimp only at h ⊢
  split at h
  · cases h
    rfl
  · cases h

variable {kind : Kind} {name name' : String} {path path' : Path} {found : Found}

/-- The same definition has the same content, wherever it was found from. -/
theorem same_elementContent
    (h : (Site.ofStack table maxDepth stack).resolve kind name path = pure found)
    (h' : (Site.ofStack table maxDepth' stack').resolve kind name' path' = pure found) :
    SameIfBothSucceed ((Site.ofStack table maxDepth stack).elementContent kind name path [])
      ((Site.ofStack table maxDepth' stack').elementContent kind name' path' []) := by
  unfold Site.elementContent Site.elementBody
  rw [h, h', pure_bind, pure_bind]
  cases found.definition.body with
  | element nodes => exact same_enterWith _ (.nodes (Specialization.keptNodes [] nodes))
  | _ => exact .of_throw_left _ _

theorem same_styleContent
    (h : (Site.ofStack table maxDepth stack).resolve kind name path = pure found)
    (h' : (Site.ofStack table maxDepth' stack').resolve kind name' path' = pure found) :
    SameIfBothSucceed ((Site.ofStack table maxDepth stack).styleContent kind name path [])
      ((Site.ofStack table maxDepth' stack').styleContent kind name' path' []) := by
  unfold Site.styleContent Site.styleBody
  rw [h, h', pure_bind, pure_bind]
  cases found.definition.body with
  | style block =>
    dsimp only
    rw [pure_bind, pure_bind]
    refine sameIfBothSucceed.rel_bind ?_ fun _ => sameIfBothSucceed.rel_pure _
    exact same_enterWith _ (.style (Specialization.keptStyle [] block))
  | _ => exact .of_throw_left _ _

/-- Without specializations, nothing is changed in what an element definition stands for. -/
theorem elementUsage_plain (site : Site) (kind : Kind) (name : String) (path : Path) :
    site.elementUsage ⟨kind, name, path, []⟩ = site.elementContent kind name path [] := by
  rw [elementUsage_eq, Site.expandSpecializations]
  simp only [pure_bind]
  exact bind_pure _

theorem styleUsage_plain (site : Site) (kind : Kind) (name : String) (path : Path) :
    site.styleUsage ⟨kind, name, path, []⟩ = (do
      let content ← site.styleContent kind name path []
      Site.noteValueless content.1 content.2
      pure content.2) := by
  rw [styleUsage_eq, Site.expandSpecializations]
  simp only [pure_bind]
  rfl

/-- **Expansion is hygienic.** Two usages without specializations, of the same kind, at any two stacks
and with any two limits: if they are found to be usages of the same definition in the same namespace,
then they cannot succeed in different ways, be it among nodes or in a style block. -/
theorem expandUsage_hygienic {usage usage' : Usage} (hplain : usage.specializations = [])
    (hplain' : usage'.specializations = []) (hkind : usage.kind = usage'.kind)
    (hfound : ((Site.ofStack table maxDepth stack).resolve usage.kind usage.name
      usage.fromPath).outcome = .ok found)
    (hfound' : ((Site.ofStack table maxDepth' stack').resolve usage'.kind usage'.name
      usage'.fromPath).outcome = .ok found) :
    SameIfBothSucceed ((Site.ofStack table maxDepth stack).expandUsage usage)
      ((Site.ofStack table maxDepth' stack').expandUsage usage') ∧
    SameIfBothSucceed ((Site.ofStack table maxDepth stack).styleUsage usage)
      ((Site.ofStack table maxDepth' stack').styleUsage usage') := by
  obtain ⟨kind, name, path, specs⟩ := usage
  obtain ⟨kind', name', path', specs'⟩ := usage'
  obtain rfl : specs = [] := hplain
  obtain rfl : specs' = [] := hplain'
  obtain rfl : kind = kind' := hkind
  have h := resolve_eq_pure hfound
  have h' := resolve_eq_pure hfound'
  have hstyle : SameIfBothSucceed
      ((Site.ofStack table maxDepth stack).styleUsage ⟨kind, name, path, []⟩)
      ((Site.ofStack table maxDepth' stack').styleUsage ⟨kind, name', path', []⟩) := by
    rw [styleUsage_plain, styleUsage_plain]
    exact sameIfBothSucceed.rel_bind (same_styleContent h h') fun content _ _ _ _ => rfl
  refine ⟨?_, hstyle⟩
  unfold Site.expandUsage
  rw [Site.expandNode, Site.expandNode]
  cases kind with
  | element =>
    dsimp only
    rw [elementUsage_plain, elementUsage_plain]
    exact same_elementContent h h'
  | style => exact sameIfBothSucceed.rel_bind hstyle fun _ => sameIfBothSucceed.rel_pure _
  | var => exact .of_throw_left _ _

/-- A card is used from outside by its path, and from a page next to it by its name alone. -/
theorem expandUsage_hygienic_kit :
    let table := (Namespace.ofDocument kit).value
    let outside := Site.ofStack table 3 []
    let page := Site.ofStack table 9 [⟨.element, "Page", ["ui"]⟩, ⟨.element, "Shell", []⟩]
    let found : Found := ⟨⟨.template, "Card", ["ui"], .element
      [.element ⟨"div", .empty, [.style { usages := [⟨.style, "Base", [], []⟩] }]⟩]⟩, ["ui"]⟩
    let nodes : List Node := [.element ⟨"div", .empty,
      [.style { inline := .ofList [("color", .literal "red")] }]⟩]
    (outside.resolve .element "Card" ["ui"]).outcome = .ok found ∧
      (page.resolve .element "Card" []).outcome = .ok found ∧
      (outside.expandUsage ⟨.element, "Card", ["ui"], []⟩).outcome = .ok nodes ∧
      (page.expandUsage ⟨.element, "Card", [], []⟩).outcome = .ok nodes ∧
      outside.expandUsage ⟨.element, "Card", ["ui"], []⟩
        = page.expandUsage ⟨.element, "Card", [], []⟩ := by
  intro table outside page found nodes
  have hfound : (outside.resolve .element "Card" ["ui"]).outcome = .ok found := rfl
  have hfound' : (page.resolve .element "Card" []).outcome = .ok found := rfl
  have hnodes : (outside.expandUsage ⟨.element, "Card", ["ui"], []⟩).outcome = .ok nodes := rfl
  have hnodes' : (page.expandUsage ⟨.element, "Card", [], []⟩).outcome = .ok nodes := rfl
  have hsame : SameIfBothSucceed (outside.expandUsage ⟨.element, "Card", ["ui"], []⟩)
      (page.expandUsage ⟨.element, "Card", [], []⟩) :=
    (expandUsage_hygienic rfl rfl rfl hfound hfound').1
  exact ⟨hfound, hfound', hnodes, hnodes', hsame hnodes hnodes'⟩

end Stencil.Expansion
