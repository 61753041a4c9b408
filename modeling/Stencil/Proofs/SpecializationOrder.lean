import Mathlib.Data.List.Forall2
import Stencil.Proofs.RelatedSites

/-!
# The order of specializations

A usage may list its specializations in any order. Deletions come first when they are applied, then
insertions, then overrides and property values. So it matters in which order those of one phase are
listed, and how the phases are mixed does not: neither for what the usage comes to, nor for whether it
comes to anything. It matters for which failure is met first, and for the order of the notes.

* `Specialization.Rearranged` — the same specializations of each phase, in the same order
* `Agree` — two computations that both fail, or both succeed with related results
* `expandUsage_rearranged` — usages with rearranged specializations
-/

namespace Stencil

/-! ## Phases -/

namespace Specialization

/-- When a specialization is applied. -/
inductive Phase where
  | deletion | insertion | change
deriving DecidableEq

def phase : Specialization → Phase
  | .delete _ => .deletion
  | .insert .. => .insertion
  | .override _ | .set _ => .change

/-- The specializations of a phase, in order. -/
def ofPhase (p : Phase) (specs : List Specialization) : List Specialization :=
  specs.filter fun spec => spec.phase = p

/-- The same specializations in another order, which is the same order within each phase. -/
def Rearranged (specs specs' : List Specialization) : Prop := ∀ p, ofPhase p specs = ofPhase p specs'

namespace Rearranged

variable {specs specs' : List Specialization} (h : Rearranged specs specs')
include h

theorem mem_iff {spec : Specialization} : spec ∈ specs ↔ spec ∈ specs' := by
  have hmem (l : List Specialization) : spec ∈ ofPhase spec.phase l ↔ spec ∈ l := by
    simp [ofPhase]
  rw [← hmem specs, h, hmem]

/-- Going through all specializations is the same, if only those of one phase do anything. -/
theorem foldl_eq (p : Phase) {β : Type} {f : β → Specialization → β}
    (hf : ∀ b spec, spec.phase ≠ p → f b spec = b) (init : β) :
    specs.foldl f init = specs'.foldl f init := by
  have hphase : (fun b spec => if decide (spec.phase = p) = true then f b spec else b) = f := by
    funext b spec
    by_cases hspec : spec.phase = p
    · simp [hspec]
    · simp [hspec, hf b spec hspec]
  have hfilter (l : List Specialization) : (ofPhase p l).foldl f init = l.foldl f init := by
    rw [ofPhase, List.foldl_filter, hphase]
  rw [← hfilter specs, ← hfilter specs', h]

/-- Deletions keep their order, since they are of one phase. -/
theorem deletions_eq : deletions specs = deletions specs' := by
  have hfilter (l : List Specialization) : deletions (ofPhase .deletion l) = deletions l := by
    induction l with
    | nil => rfl
    | cons spec rest ih =>
      cases spec with
      | delete targets => exact congrArg (targets ++ ·) ih
      | _ => exact ih
  rw [← hfilter specs, ← hfilter specs', h]

theorem keptNodes_eq (nodes : List Node) : keptNodes specs nodes = keptNodes specs' nodes := by
  unfold keptNodes skips
  rw [h.deletions_eq]

theorem keptStyle_eq (block : StyleBlock) : keptStyle specs block = keptStyle specs' block := by
  unfold keptStyle skips
  rw [h.deletions_eq]

/-! ## Applying specializations -/

/-- The phases are applied one after the other, and each of them sees the same specializations. -/
theorem value_applyToNodes (kind : Kind) (name : String) (nodes : List Node) :
    (applyToNodes kind name specs nodes).value = (applyToNodes kind name specs' nodes).value := by
  simp only [applyToNodes, Logged.value_bind, Logged.value_foldlM]
  rw [h.deletions_eq, h.foldl_eq .change, h.foldl_eq .insertion]
  · intro nodes spec hspec
    cases spec with
    | insert => exact absurd rfl hspec
    | _ => rfl
  · intro nodes spec hspec
    cases spec with
    | override | set => exact absurd rfl hspec
    | _ => rfl

theorem value_applyToProperties (kind : Kind) (name : String) (properties : Properties) :
    (applyToProperties kind name specs properties).value
      = (applyToProperties kind name specs' properties).value := by
  simp only [applyToProperties, Logged.value_bind, Logged.value_foldlM]
  rw [h.deletions_eq, h.foldl_eq .change]
  intro properties spec hspec
  cases spec with
  | set => exact absurd rfl hspec
  | _ => rfl

end Rearranged

end Specialization

namespace Expansion

open Stencil.Specialization

/-! ## Two computations -/

variable {α β γ δ : Type}

/-- Both computations fail, or both succeed, with related results. -/
def Agree (R : α → β → Prop) (x : Expanding α) (y : Expanding β) : Prop :=
  (∃ e e', x.outcome = .error e ∧ y.outcome = .error e') ∨
    ∃ a b, x.outcome = .ok a ∧ y.outcome = .ok b ∧ R a b

namespace Agree

/-- Two computations agree if they succeed together, and with related results. -/
theorem of_ok_iff {R : α → β → Prop} {x : Expanding α} {y : Expanding β}
    (hok : (∃ a, x.outcome = .ok a) ↔ ∃ b, y.outcome = .ok b)
    (hR : ∀ a b, x.outcome = .ok a → y.outcome = .ok b → R a b) : Agree R x y := by
  cases hx : x.outcome with
  | ok a =>
    obtain ⟨b, hy⟩ := hok.mp ⟨a, hx⟩
    exact Or.inr ⟨a, b, hx, hy, hR a b hx hy⟩
  | error e =>
    cases hy : y.outcome with
    | ok b =>
      obtain ⟨a, ha⟩ := hok.mpr ⟨b, hy⟩
      rw [hx] at ha
      cases ha
    | error e' => exact Or.inl ⟨e, e', hx, hy⟩

theorem refl (x : Expanding α) : Agree Eq x x :=
  of_ok_iff Iff.rfl fun _ _ ha hb => Except.ok.inj (ha.symm.trans hb)

theorem bind {R : α → β → Prop} {S : γ → δ → Prop} {x : Expanding α} {y : Expanding β}
    {f : α → Expanding γ} {g : β → Expanding δ} (hx : Agree R x y)
    (hf : ∀ a b, R a b → Agree S (f a) (g b)) : Agree S (x >>= f) (y >>= g) := by
  unfold Agree
  rw [Checked.outcome_bind, Checked.outcome_bind]
  rcases hx with ⟨e, e', he, he'⟩ | ⟨a, b, ha, hb, hab⟩
  · rw [he, he']
    exact Or.inl ⟨e, e', rfl, rfl⟩
  · rw [ha, hb]
    exact hf a b hab

end Agree

/-! ## Specializations one by one -/

/-- Expands what one specialization holds. -/
def Site.expandSpecialization (site : Site) : Specialization → Expanding Specialization
  | .delete targets => pure (.delete targets)
  | .insert position target content => do return .insert position target (← site.expandNodes content)
  | .override tree => do return .override (← site.expandNodes tree)
  | .set properties => do return .set (← site.substituteAll properties)

variable {site : Site} {specs specs' out out' : List Specialization}

/-- Specializations are expanded independently of each other. -/
theorem expandSpecializations_eq_mapM (site : Site) (specs : List Specialization) :
    site.expandSpecializations specs = specs.mapM site.expandSpecialization := by
  induction specs with
  | nil => rw [Site.expandSpecializations, List.mapM_nil]
  | cons spec rest ih =>
    rw [List.mapM_cons, ← ih]
    cases spec <;> rw [Site.expandSpecializations] <;> simp [Site.expandSpecialization]

/-- A list of steps succeeds where each of them does. -/
theorem outcome_mapM_eq_ok_iff {f : α → Expanding β} {l : List α} {results : List β} :
    (l.mapM f).outcome = .ok results ↔ List.Forall₂ (fun a b => (f a).outcome = .ok b) l results := by
  induction l generalizing results with
  | nil =>
    rw [List.mapM_nil, List.forall₂_nil_left_iff]
    exact ⟨fun h => (Except.ok.inj h).symm, fun h => congrArg _ h.symm⟩
  | cons a rest ih =>
    rw [List.mapM_cons, List.forall₂_cons_left_iff]
    constructor
    · intro h
      obtain ⟨b, hb, hrest⟩ := Checked.outcome_bind_eq_ok_iff.mp h
      obtain ⟨bs, hbs, hresults⟩ := Checked.outcome_bind_eq_ok_iff.mp hrest
      exact ⟨b, bs, hb, ih.mp hbs, (Except.ok.inj hresults).symm⟩
    · rintro ⟨b, bs, hb, hbs, rfl⟩
      exact Checked.outcome_bind_eq_ok_iff.mpr
        ⟨b, hb, Checked.outcome_bind_eq_ok_iff.mpr ⟨bs, ih.mpr hbs, rfl⟩⟩

/-- All are expanded if each of them is, in whatever order. -/
theorem exists_outcome_mapM_iff {f : α → Expanding β} {l : List α} :
    (∃ results, (l.mapM f).outcome = .ok results) ↔ ∀ a ∈ l, ∃ b, (f a).outcome = .ok b := by
  induction l with
  | nil => simp
  | cons a rest ih =>
    rw [List.forall_mem_cons, ← ih]
    constructor
    · rintro ⟨results, h⟩
      cases outcome_mapM_eq_ok_iff.mp h with
      | cons hb hbs => exact ⟨⟨_, hb⟩, ⟨_, outcome_mapM_eq_ok_iff.mpr hbs⟩⟩
    · rintro ⟨⟨b, hb⟩, ⟨bs, hbs⟩⟩
      exact ⟨b :: bs, outcome_mapM_eq_ok_iff.mpr (.cons hb (outcome_mapM_eq_ok_iff.mp hbs))⟩

/-- Expansion does not take a specialization into another phase. -/
theorem phase_expandSpecialization {spec result : Specialization}
    (h : (site.expandSpecialization spec).outcome = .ok result) : result.phase = spec.phase := by
  cases spec with
  | delete targets =>
    cases h
    rfl
  | _ =>
    obtain ⟨content, -, hresult⟩ := Checked.outcome_bind_eq_ok_iff.mp h
    cases hresult
    rfl

/-- The specializations of a phase are expanded to those of the phase. -/
theorem expandSpecializations_ofPhase (h : (site.expandSpecializations specs).outcome = .ok out)
    (p : Phase) : (site.expandSpecializations (ofPhase p specs)).outcome = .ok (ofPhase p out) := by
  rw [expandSpecializations_eq_mapM, outcome_mapM_eq_ok_iff] at h ⊢
  refine List.rel_filter ?_ h
  intro spec result hresult
  simp only [phase_expandSpecialization hresult]

/-- Rearranged specializations are all expanded if the others are, to rearranged ones. -/
theorem agree_expandSpecializations (site : Site) (h : Rearranged specs specs') :
    Agree Rearranged (site.expandSpecializations specs) (site.expandSpecializations specs') := by
  refine Agree.of_ok_iff ?_ fun out out' hout hout' p => ?_
  · rw [expandSpecializations_eq_mapM, expandSpecializations_eq_mapM, exists_outcome_mapM_iff,
      exists_outcome_mapM_iff]
    simp only [h.mem_iff]
  · have hp := expandSpecializations_ofPhase hout p
    have hp' := expandSpecializations_ofPhase hout' p
    rw [h p] at hp
    exact Except.ok.inj (hp.symm.trans hp')

/-! ## Usages -/

variable {kind : Kind} {name : String} {path : Path}

theorem agree_elementUsage (site : Site) (h : Rearranged specs specs') :
    Agree Eq (site.elementUsage ⟨kind, name, path, specs⟩)
      (site.elementUsage ⟨kind, name, path, specs'⟩) := by
  have hcontent : site.elementContent kind name path specs
      = site.elementContent kind name path specs' := by
    unfold Site.elementContent
    simp only [h.keptNodes_eq]
  rw [elementUsage_eq, elementUsage_eq, hcontent]
  refine (Agree.refl _).bind fun nodes _ hnodes => ?_
  refine (agree_expandSpecializations site h).bind fun out out' hout => ?_
  subst hnodes
  exact Or.inr ⟨_, _, rfl, rfl, hout.value_applyToNodes kind name nodes⟩

theorem agree_styleUsage (site : Site) (h : Rearranged specs specs') :
    Agree Eq (site.styleUsage ⟨kind, name, path, specs⟩)
      (site.styleUsage ⟨kind, name, path, specs'⟩) := by
  have hcontent : site.styleContent kind name path specs
      = site.styleContent kind name path specs' := by
    unfold Site.styleContent
    simp only [h.keptStyle_eq]
  rw [styleUsage_eq, styleUsage_eq, hcontent]
  refine (Agree.refl _).bind fun content _ hcontent => ?_
  refine (agree_expandSpecializations site h).bind fun out out' hout => ?_
  subst hcontent
  have hvalue := hout.value_applyToProperties kind name content.2
  refine Agree.bind (R := Eq) (Or.inr ⟨_, _, rfl, rfl, hvalue⟩) fun properties _ hproperties => ?_
  subst hproperties
  exact Agree.refl _

/-- **The order in which a usage lists specializations of different phases does not matter.** At any
site, two usages of the same definition whose specializations differ in how deletions, insertions, and
overrides and property values are mixed: both fail, or both succeed with the same result, be it among
nodes or in a style block. -/
theorem expandUsage_rearranged (site : Site) (kind : Kind) (name : String) (path : Path)
    (h : Rearranged specs specs') :
    Agree Eq (site.expandUsage ⟨kind, name, path, specs⟩)
        (site.expandUsage ⟨kind, name, path, specs'⟩) ∧
      Agree Eq (site.styleUsage ⟨kind, name, path, specs⟩)
        (site.styleUsage ⟨kind, name, path, specs'⟩) := by
  refine ⟨?_, agree_styleUsage site h⟩
  unfold Site.expandUsage
  rw [Site.expandNode, Site.expandNode]
  cases kind with
  | element => exact agree_elementUsage site h
  | style =>
    refine (agree_styleUsage site h).bind fun properties _ hproperties => ?_
    subst hproperties
    exact Agree.refl _
  | var => exact Agree.refl _

/-- A card with a frame and two lines. -/
def cardBody : List Node :=
  [.element ⟨"div", .ofList [("class", "frame")], []⟩, .element ⟨"span", .empty, []⟩,
   .element ⟨"span", .ofList [("class", "second")], []⟩]

/-- A line is deleted, a paragraph comes behind the frame, a text on top, and the first line that is
left gets a colour. -/
theorem expandUsage_rearranged_card :
    let table := (Namespace.ofDocument [.definition ⟨.template, "Card", [], .element cardBody⟩]).value
    let site := Site.start table 1
    let behind : Specialization :=
      .insert .after (some ⟨.className "frame", none⟩) [.element ⟨"p", .empty, []⟩]
    let onTop : Specialization := .insert .atTop none [.text "top"]
    let colour : Specialization := .override [.element ⟨"span", .empty,
      [.style { inline := .ofList [("color", .literal "red")] }]⟩]
    let lessOne : Specialization := .delete [.element ⟨.tag "span", none⟩]
    let lost : Specialization := .insert .atTop none [.usage ⟨.element, "Lost", [], []⟩]
    let unset : Specialization := .set (.ofList [("color", .var "Theme" "main")])
    let nodes : List Node := [.text "top", .element ⟨"div", .ofList [("class", "frame")], []⟩,
      .element ⟨"p", .empty, []⟩, .element ⟨"span", .ofList [("class", "second")],
        [.style { inline := .ofList [("color", .literal "red")] }]⟩]
    let expand (specs : List Specialization) :=
      (site.expandUsage ⟨.element, "Card", [], specs⟩).outcome
    Rearranged [behind, colour, lessOne, onTop] [lessOne, behind, onTop, colour] ∧
      expand [behind, colour, lessOne, onTop] = .ok nodes ∧
      expand [lessOne, behind, onTop, colour] = .ok nodes ∧
      Rearranged [lost, unset] [unset, lost] ∧
      expand [lost, unset] = .error (.undefined .element "Lost" []) ∧
      ∃ e, expand [unset, lost] = .error e := by
  intro table site behind onTop colour lessOne lost unset nodes expand
  have hmixed : Rearranged [behind, colour, lessOne, onTop] [lessOne, behind, onTop, colour] := by
    intro p
    cases p <;> rfl
  have hfailing : Rearranged [lost, unset] [unset, lost] := by
    intro p
    cases p <;> rfl
  have hnodes : expand [behind, colour, lessOne, onTop] = .ok nodes := rfl
  have herror : expand [lost, unset] = .error (.undefined .element "Lost" []) := rfl
  refine ⟨hmixed, hnodes, ?_, hfailing, herror, ?_⟩
  · rcases (expandUsage_rearranged site .element "Card" [] hmixed).1 with
      ⟨e, -, he, -⟩ | ⟨a, b, ha, hb, rfl⟩
    · cases hnodes.symm.trans he
    · exact hb.trans (ha.symm.trans hnodes)
  · rcases (expandUsage_rearranged site .element "Card" [] hfailing).1 with
      ⟨-, e', -, he'⟩ | ⟨a, b, ha, -, -⟩
    · exact ⟨e', he'⟩
    · cases herror.symm.trans ha

end Expansion

end Stencil
