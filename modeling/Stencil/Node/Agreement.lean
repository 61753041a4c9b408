import Stencil.Node

/-!
# Trees that agree

Whether two trees say the same: maps as maps, whatever the order of their keys, and numbers as
numbers, so that the two zeros agree and what is not a number agrees with nothing.
-/

namespace Stencil

/-- Whether two expressions are the same up to the sign of zero. -/
def Expr.agrees : Expr → Expr → Bool
  | .dimension a unit, .dimension b unit' => a == b && unit == unit'
  | .binary op a b, .binary op' a' b' => op == op' && a.agrees a' && b.agrees b'
  | .conditional a b c, .conditional a' b' c' => a.agrees a' && b.agrees b' && c.agrees c'
  | .literal a, .literal b => a == b
  | .property s a, .property s' b => s == s' && a == b
  | .var g a, .var g' b => g == g' && a == b
  | _, _ => false

def Properties.agrees (p q : Properties) : Bool := OrderedMap.agree Expr.agrees p q

def Rule.agrees (r s : Rule) : Bool :=
  r.selector == s.selector && Properties.agrees r.properties s.properties

/-- Whether two lists have the same length and agree place by place. -/
def listAgrees {α : Type} (same : α → α → Bool) : List α → List α → Bool
  | [], [] => true
  | a :: as, b :: bs => same a b && listAgrees same as bs
  | _, _ => false

mutual

def Node.agrees : Node → Node → Bool
  | .element a, .element b => a.agrees b
  | .text a, .text b => a == b
  | .style a, .style b => a.agrees b
  | .usage a, .usage b => a.agrees b
  | .definition a, .definition b => a.agrees b
  | _, _ => false
termination_by structural x _ => x

def nodesAgree : List Node → List Node → Bool
  | [], [] => true
  | a :: as, b :: bs => a.agrees b && nodesAgree as bs
  | _, _ => false
termination_by structural x _ => x

def Element.agrees : Element → Element → Bool
  | ⟨tag, attributes, children⟩, b =>
    tag == b.tag && attributes.agree (· == ·) b.attributes && nodesAgree children b.children
termination_by structural x _ => x

def StyleBlock.agrees : StyleBlock → StyleBlock → Bool
  | ⟨inline, rules, usages, deletions⟩, b =>
    inline.agree Expr.agrees b.inline && listAgrees Rule.agrees rules b.rules
      && usagesAgree usages b.usages && deletions == b.deletions
termination_by structural x _ => x

def usagesAgree : List Usage → List Usage → Bool
  | [], [] => true
  | a :: as, b :: bs => a.agrees b && usagesAgree as bs
  | _, _ => false
termination_by structural x _ => x

def Usage.agrees : Usage → Usage → Bool
  | ⟨kind, name, path, specializations⟩, b =>
    kind == b.kind && name == b.name && path == b.fromPath
      && specializationsAgree specializations b.specializations
termination_by structural x _ => x

def specializationsAgree : List Specialization → List Specialization → Bool
  | [], [] => true
  | a :: as, b :: bs => a.agrees b && specializationsAgree as bs
  | _, _ => false
termination_by structural x _ => x

def Specialization.agrees : Specialization → Specialization → Bool
  | .delete a, .delete b => a == b
  | .insert position target content, .insert position' target' content' =>
    position == position' && target == target' && nodesAgree content content'
  | .override a, .override b => nodesAgree a b
  | .set a, .set b => a.agree Expr.agrees b
  | _, _ => false
termination_by structural x _ => x

def Body.agrees : Body → Body → Bool
  | .style a, .style b => a.agrees b
  | .element a, .element b => nodesAgree a b
  | .vars a, .vars b => a.agree Expr.agrees b
  | _, _ => false
termination_by structural x _ => x

def Definition.agrees : Definition → Definition → Bool
  | ⟨form, name, path, body⟩, b =>
    form == b.form && name == b.name && path == b.path && body.agrees b.body
termination_by structural x _ => x

end

end Stencil
