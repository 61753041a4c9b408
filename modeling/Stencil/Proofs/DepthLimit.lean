import Stencil.Proofs.Requests

/-!
# The depth limit

Definitions may be nested only so deep. A limit that is reached cuts the expansion off. It does
nothing else: with a higher limit, what was not cut off comes to the same, be it a result or a
failure of another kind, and with the same notes.

* `cutting` — the first of two computations is cut off, or they are the same
* `related_of_le` — fewer levels are enough, or the expansion is cut off
* `run_eq_of_le_maxDepth` — the same of whatever is asked for, under two limits
-/

namespace Stencil.Expansion

variable {table : Namespace} {maxDepth maxDepth' n n' : Nat} {stack : List Frame} {α : Type}

/-- The first computation is cut off, or the two are the same. -/
def cutting : Simulation Expanding Expanding where
  rel x y := CutOff x ∨ x = y
  rel_pure _ := Or.inr rfl
  rel_bind {α β x y f g} hx hf := by
    by_cases hcut : CutOff (x >>= f)
    · exact Or.inl hcut
    · rw [cutOff_bind_iff, not_or] at hcut
      obtain rfl := hx.resolve_left hcut.1
      refine Or.inr (Checked.bind_congr_ok fun a ha => (hf a).resolve_left fun hcut' => ?_)
      exact hcut.2 ⟨a, ha, hcut'⟩

/-- With more levels left, all is the same that is not cut off. The limit itself is seen in the report
of being cut off only. -/
theorem related_of_le (h : n ≤ n') (stack : List Frame) :
    Site.Related cutting (fun _ => True) (Site.atLevel table maxDepth n stack)
      (Site.atLevel table maxDepth' n' stack) := by
  induction n generalizing n' stack with
  | zero =>
    refine related_of_enter_fresh rfl rfl (fun _ _ => Or.inr rfl)
      fun content frame _ (hfresh : frame ∉ stack) => ?_
    rw [enterWith_atLevel_zero hfresh]
    exact Or.inl ⟨_, _, rfl⟩
  | succ n ih =>
    obtain ⟨k, rfl⟩ : ∃ k, n' = k + 1 := ⟨n' - 1, by omega⟩
    refine related_of_enter_fresh rfl rfl (fun _ _ => Or.inr rfl)
      fun content frame _ (hfresh : frame ∉ stack) => ?_
    rw [enterWith_atLevel_succ hfresh, enterWith_atLevel_succ hfresh]
    exact rel_expandContent (ih (Nat.le_of_succ_le_succ h) (frame :: stack)) content

/-- **The depth limit cuts off and does nothing else.** Whatever is asked for, at whatever stack: if it
is not cut off under a limit, then it comes to the same under every higher limit, whether it succeeds
or fails. -/
theorem run_eq_of_le_maxDepth (request : Request α) (h : maxDepth ≤ maxDepth')
    (hcut : ¬ CutOff ((Site.ofStack table maxDepth stack).run request)) :
    (Site.ofStack table maxDepth' stack).run request
      = (Site.ofStack table maxDepth stack).run request := by
  have hlevels : maxDepth - stack.length ≤ maxDepth' - stack.length := by omega
  have hrun : cutting.rel ((Site.ofStack table maxDepth stack).run request)
      ((Site.ofStack table maxDepth' stack).run request) :=
    rel_run (related_of_le hlevels stack) request
  exact (hrun.resolve_left hcut).symm

/-- A card that reads a variable, and two elements that use each other. -/
def gallery : List Node :=
  [.definition ⟨.template, "Theme", [], .vars (.ofList [("main", .literal "red")])⟩,
   .definition ⟨.template, "Card", [], .element
    [.element ⟨"div", .empty, [.style { inline := .ofList [("color", .var "Theme" "main")] }]⟩]⟩,
   .definition ⟨.template, "Left", [], .element [.usage ⟨.element, "Right", [], []⟩]⟩,
   .definition ⟨.template, "Right", [], .element [.usage ⟨.element, "Left", [], []⟩]⟩]

/-- A limit of one is too low for either. A limit of two is enough for both, and so is every higher
one: the card succeeds, and the cycle is found. -/
theorem run_eq_of_le_maxDepth_gallery :
    let site (maxDepth : Nat) := Site.start (Namespace.ofDocument gallery).value maxDepth
    let card := Request.usage ⟨.element, "Card", [], []⟩
    let left := Request.usage ⟨.element, "Left", [], []⟩
    CutOff ((site 1).run card) ∧ CutOff ((site 1).run left) ∧
      ¬ CutOff ((site 2).run card) ∧ ¬ CutOff ((site 2).run left) ∧
      (∀ maxDepth, 2 ≤ maxDepth → ((site maxDepth).run card).outcome
        = .ok [.element ⟨"div", .empty,
            [.style { inline := .ofList [("color", .literal "red")] }]⟩]) ∧
      ∀ maxDepth, 2 ≤ maxDepth →
        ((site maxDepth).run left).outcome = .error (.cyclic "Left") := by
  intro site card left
  have hcard : ((site 2).run card).outcome = .ok [.element ⟨"div", .empty,
      [.style { inline := .ofList [("color", .literal "red")] }]⟩] := rfl
  have hleft : ((site 2).run left).outcome = .error (.cyclic "Left") := rfl
  have hcard' := not_cutOff_of_ok hcard
  have hleft' : ¬ CutOff ((site 2).run left) := not_cutOff_of_error hleft (by simp)
  refine ⟨⟨_, _, rfl⟩, ⟨_, _, rfl⟩, hcard', hleft', fun maxDepth h => ?_, fun maxDepth h => ?_⟩
  · exact (congrArg Checked.outcome (run_eq_of_le_maxDepth card h hcard')).trans hcard
  · exact (congrArg Checked.outcome (run_eq_of_le_maxDepth left h hleft')).trans hleft

end Stencil.Expansion
