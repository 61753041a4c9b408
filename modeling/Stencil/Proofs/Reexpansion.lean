import Stencil.Proofs.NormalForm
import Stencil.Proofs.Simulation

/-!
# Expanding what is expanded

A document in normal form has nothing in it to expand. Expansion takes every style block and every
element apart and builds it anew, and ends up with the same document: attributes, properties and
children in their order. It looks nothing up on the way, so that neither the definitions nor the depth
limit matter. An expanded document is in normal form, so that expanding it again changes nothing.

* `substitute_of_varFree` — an expression without variables
* `expandNodes_of_normal` — nodes in normal form
* `expandDocument_idempotent` — expanding twice
-/

namespace Stencil

/-! ## Expressions without variables -/

namespace Expr

theorem not_varFree_var (group name : String) : ¬ (var group name).VarFree :=
  fun h => h group name (self_mem_walk _)

theorem varFree_binary_iff {op : BinaryOp} {left right : Expr} :
    (binary op left right).VarFree ↔ left.VarFree ∧ right.VarFree := by
  constructor
  · intro h
    exact ⟨fun group name hv => h group name (mem_walk_left hv),
      fun group name hv => h group name (mem_walk_right hv)⟩
  · rintro ⟨hl, hr⟩
    exact hl.binary hr op

theorem varFree_conditional_iff {cond yes no : Expr} :
    (conditional cond yes no).VarFree ↔ cond.VarFree ∧ yes.VarFree ∧ no.VarFree := by
  constructor
  · intro h
    exact ⟨fun group name hv => h group name (mem_walk_cond hv),
      fun group name hv => h group name (mem_walk_yes hv),
      fun group name hv => h group name (mem_walk_no hv)⟩
  · rintro ⟨hc, hy, hn⟩
    exact hc.conditional hy hn

end Expr

namespace Expansion

variable {site : Site}

/-- Where there are no variables, nothing is replaced. -/
theorem substitute_of_varFree {e : Expr} (h : e.VarFree) : site.substitute e = pure e := by
  induction e with
  | var group name => exact absurd h (Expr.not_varFree_var group name)
  | binary op left right ihl ihr =>
    obtain ⟨hl, hr⟩ := Expr.varFree_binary_iff.mp h
    rw [Site.substitute, ihl hl, pure_bind, ihr hr, pure_bind]
  | conditional cond yes no ihc ihy ihn =>
    obtain ⟨hc, hy, hn⟩ := Expr.varFree_conditional_iff.mp h
    rw [Site.substitute, ihc hc, pure_bind, ihy hy, pure_bind, ihn hn, pure_bind]
  | _ => rfl

/-! ## Style blocks -/

theorem substituteAll_of_varFree {properties : Properties} (h : Properties.VarFree properties) :
    site.substituteAll properties = pure properties :=
  OrderedMap.mapM_eq_pure fun e he => substitute_of_varFree (h e he)

theorem substituteRule_of_varFree {rule : Rule} (h : Properties.VarFree rule.properties) :
    site.substituteRule rule = pure rule := by
  rw [Site.substituteRule, substituteAll_of_varFree h, pure_bind]

theorem substituteRules_of_varFree {rules : List Rule}
    (h : ∀ rule ∈ rules, Properties.VarFree rule.properties) :
    rules.mapM site.substituteRule = pure rules := by
  induction rules with
  | nil => rfl
  | cons rule rest ih =>
    rw [List.forall_mem_cons] at h
    rw [List.mapM_cons, substituteRule_of_varFree h.1, pure_bind, ih h.2, pure_bind]

/-- Own properties that nothing is added to and nothing is removed from stay as they are. -/
theorem ownStyle_of_varFree {inline : Properties} (h : Properties.VarFree inline) :
    site.ownStyle .empty inline [] = pure inline := by
  rw [Site.ownStyle, OrderedMap.empty_extend]
  exact substituteAll_of_varFree h

/-! ## Nodes -/

mutual

/-- Nodes that are normal expand to themselves, at any site. -/
theorem expandNodes_of_normal : ∀ {nodes : List Node}, AllNormal nodes →
    site.expandNodes nodes = pure nodes
  | [], _ => by rw [Site.expandNodes]
  | node :: rest, h => by
    rw [Site.expandNodes, expandNode_of_normal h.1, pure_bind, expandNodes_of_normal h.2, pure_bind]
    rfl

/-- One case for each kind of node: usages and definitions are not normal, and do not come up. -/
theorem expandNode_of_normal : ∀ {node : Node}, node.Normal → site.expandNode node = pure [node]
  | .element ⟨tag, attributes, children⟩, h => by
    rw [Site.expandNode, expandNodes_of_normal h, pure_bind]
  | .text text, _ => by rw [Site.expandNode]
  | .style ⟨inline, rules, usages, deletions⟩, h => by
    obtain rfl : usages = [] := h.usages
    obtain rfl : deletions = [] := h.deletions
    rw [Site.expandNode, Site.mergeUsages, pure_bind, ownStyle_of_varFree h.inline, pure_bind,
      substituteRules_of_varFree h.rules, pure_bind]
  -- Neither of these is normal.
  | .usage _, h => nomatch h
  | .definition _, h => nomatch h

end

end Expansion

/-- **Expanding what is expanded changes nothing.** A document in normal form expands to itself,
whatever the definitions and the depth limit, and without a note. So does every document that came
out of an expansion, with the same definitions or with others. -/
theorem expandDocument_idempotent :
    (∀ {tree : List Node}, AllNormal tree → ∀ (table : Namespace) (maxDepth : Nat),
      expandDocument table maxDepth tree = pure tree) ∧
    ∀ {table : Namespace} {maxDepth : Nat} {document tree : List Node},
      (expandDocument table maxDepth document).outcome = .ok tree →
      ∀ (table' : Namespace) (maxDepth' : Nat), expandDocument table' maxDepth' tree = pure tree := by
  refine ⟨fun h table maxDepth => Expansion.expandNodes_of_normal h, ?_⟩
  intro table maxDepth document tree h table' maxDepth'
  have hnormal : AllNormal tree :=
    Expansion.expandNodes_yields (Expansion.start_normal table maxDepth) document h
  exact Expansion.expandNodes_of_normal hnormal

/-- A tree in normal form, and a document that expands to one, are both left alone by definitions
that have nothing to do with them, and without any depth. -/
theorem expandDocument_idempotent_greeting :
    let tree : List Node := [.element ⟨"div", .ofList [("id", "a"), ("class", "b")],
      [.style { inline := .ofList [("width", .literal "1px"), ("color", .literal "red")] },
       .text "hello"]⟩]
    let table := (Namespace.ofDocument greeting).value
    AllNormal tree ∧ expandDocument table 0 tree = pure tree ∧
      ∃ out, (expandDocument table 2 greeting).outcome = .ok out ∧
        expandDocument table 2 out = pure out ∧ expandDocument .empty 0 out = pure out := by
  intro tree table
  have hfree (text : String) : (Expr.literal text).VarFree := by
    intro group name h
    cases List.mem_singleton.mp h
  have hnormal : AllNormal tree := by
    refine ⟨⟨⟨rfl, rfl, ?_, nofun⟩, trivial, trivial⟩, trivial⟩
    intro e he
    rcases List.mem_pair.mp he with rfl | rfl
    · exact hfree _
    · exact hfree _
  have hout : (expandDocument table 2 greeting).outcome
      = .ok [.element ⟨"div", .empty, [.style { inline := .ofList [("color", .literal "red")] }]⟩,
        .text "hello"] := rfl
  obtain ⟨hsame, hagain⟩ := expandDocument_idempotent
  exact ⟨hnormal, hsame hnormal table 0, _, hout, hagain hout table 2, hagain hout .empty 0⟩

end Stencil
