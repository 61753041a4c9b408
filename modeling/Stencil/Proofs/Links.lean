import Mathlib.Logic.Relation
import Stencil.Proofs.NormalForm
import Stencil.Text.Name

/-!
# Links between definitions

A definition uses others in its body, and a variable is used in values. Expansion goes from one to
the next, and keeps a stack of frames. A frame is a kind, a text and a path; the text of a variable
is put together from its group and its name. The frames tell the definitions and variables apart all
the same, so that a frame which comes up twice is a cycle of definitions.

* `Mention` — a usage or a variable as it is written, and `mentions`, all that are written somewhere
* `Link` — a definition or a variable in its namespace, and `Link.Uses`, what it leads to
* `Link.eq_of_frame_eq` — frames tell links apart
* `Trail` — links that lead from what was asked for to where expansion has got to
* `Trail.genuine` — a link that comes up twice on a trail leads to itself
-/

namespace Stencil

open Expansion
open Relation (ReflTransGen TransGen)

/-! ## Mentions -/

/-- A definition or a variable that is asked for, as it is written. -/
inductive Mention where
  | usage (kind : Kind) (name : String) (path : Path)
  | var (group name : String)

def Expr.mention? : Expr → Option Mention
  | .var group name => some (.var group name)
  | _ => none

/-- The variables in an expression. -/
def Expr.mentions (e : Expr) : List Mention := e.walk.filterMap mention?

/-- The variables in the values of properties. -/
def Properties.mentions (properties : Properties) : List Mention :=
  properties.entries.flatMap fun e => e.2.mentions

mutual

/-- The usages and variables in a list of nodes. Definitions among them are left out, since they
vanish. -/
def mentions : List Node → List Mention
  | [] => []
  | node :: rest => node.mentions ++ mentions rest

def Node.mentions : Node → List Mention
  | .element ⟨_, _, children⟩ => Stencil.mentions children
  | .text _ => []
  | .style block => block.mentions
  | .usage usage => usage.mentions
  | .definition _ => []

def StyleBlock.mentions : StyleBlock → List Mention
  | ⟨inline, rules, used, _⟩ => Properties.mentions inline
      ++ rules.flatMap (fun rule => Properties.mentions rule.properties) ++ mentionsOfAll used

/-- A usage, and what its specializations mention. -/
def Usage.mentions : Usage → List Mention
  | ⟨kind, name, path, specs⟩ => .usage kind name path :: mentionsOfSpecializations specs

def mentionsOfAll : List Usage → List Mention
  | [] => []
  | usage :: rest => usage.mentions ++ mentionsOfAll rest

def mentionsOfSpecializations : List Specialization → List Mention
  | [] => []
  | .delete _ :: rest => mentionsOfSpecializations rest
  | .insert _ _ content :: rest => mentions content ++ mentionsOfSpecializations rest
  | .override tree :: rest => mentions tree ++ mentionsOfSpecializations rest
  | .set properties :: rest => Properties.mentions properties ++ mentionsOfSpecializations rest

end

/-- The usages and variables in the body of a style or an element. -/
def Body.mentions : Body → List Mention
  | .style block => block.mentions
  | .element nodes => Stencil.mentions nodes
  | .vars _ => []

/-- What a variable of a group is bound to. -/
def Definition.bound? (d : Definition) (name : String) : Option Expr :=
  match d.body with
  | .vars bindings => bindings.get? name
  | _ => none

theorem mem_mentions_iff {nodes : List Node} {m : Mention} :
    m ∈ mentions nodes ↔ ∃ node ∈ nodes, m ∈ node.mentions := by
  induction nodes with
  | nil => simp [mentions]
  | cons node rest ih => simp [mentions, ih]

theorem mem_mentionsOfAll_iff {used : List Usage} {m : Mention} :
    m ∈ mentionsOfAll used ↔ ∃ usage ∈ used, m ∈ usage.mentions := by
  induction used with
  | nil => simp [mentionsOfAll]
  | cons usage rest ih => simp [mentionsOfAll, ih]

theorem Expr.mem_mentions_of_mem_walk {e : Expr} {group name : String}
    (h : .var group name ∈ e.walk) : .var group name ∈ e.mentions :=
  List.mem_filterMap.mpr ⟨_, h, rfl⟩

/-- Where there are no variables, none are mentioned. -/
theorem Expr.VarFree.mentions_eq_nil {e : Expr} (h : e.VarFree) : e.mentions = [] := by
  rw [Expr.mentions, List.filterMap_eq_nil_iff]
  intro part hpart
  cases part with
  | var group name => exact absurd hpart (h group name)
  | _ => rfl

/-! ## Bodies with usages left out -/

/-- Deletions take mentions away and add none. -/
theorem mentions_keptNodes_subset (specs : List Specialization) (nodes : List Node) :
    mentions (Specialization.keptNodes specs nodes) ⊆ mentions nodes := by
  intro m hm
  obtain ⟨node, hnode, hm⟩ := mem_mentions_iff.mp hm
  exact mem_mentions_iff.mpr ⟨node, List.mem_of_mem_filter hnode, hm⟩

theorem mentions_keptStyle_subset (specs : List Specialization) (block : StyleBlock) :
    (Specialization.keptStyle specs block).mentions ⊆ block.mentions := by
  obtain ⟨inline, rules, used, deletions⟩ := block
  rw [Specialization.keptStyle, StyleBlock.mentions, StyleBlock.mentions]
  intro m hm
  rw [List.mem_append] at hm ⊢
  refine hm.imp_right fun hm => ?_
  obtain ⟨usage, husage, hm⟩ := mem_mentionsOfAll_iff.mp hm
  exact mem_mentionsOfAll_iff.mpr ⟨usage, List.mem_of_mem_filter husage, hm⟩

/-! ## Links -/

/-- A style, an element or a variable, with the namespace it is in. -/
inductive Link where
  | definition (kind : Kind) (name : String) (path : Path)
  | var (group name : String) (path : Path)

/-- What a mention leads to from a namespace: the innermost definition that is seen from there, or
from where the usage says. -/
def Mention.target? (table : Namespace) (scope : Path) : Mention → Option Link
  | .usage kind name path =>
    (table.lookup name kind (if path = [] then scope else path)).map fun found =>
      .definition kind name found.path
  | .var group name =>
    (table.lookup group .var scope).map fun found => .var group name found.path

namespace Link

def path : Link → Path
  | definition _ _ path => path
  | var _ _ path => path

/-- The name under which a link is reported. A variable is named as it is written in a value. -/
def name : Link → String
  | definition _ name _ => name
  | var group name _ => group ++ "(" ++ name ++ ")"

/-- The table defines a link. A group is no link, only its variables are. -/
def Defined (table : Namespace) : Link → Prop
  | definition kind name path => kind ≠ .var ∧ (table.getAt? path name kind).isSome
  | var group name path => ((table.getAt? path group .var).bind (·.bound? name)).isSome

/-- What is mentioned in the body of a definition, or in the value of a variable. -/
def mentions (table : Namespace) : Link → List Mention
  | definition kind name path => ((table.getAt? path name kind).map (·.body.mentions)).getD []
  | var group name path =>
    (((table.getAt? path group .var).bind (·.bound? name)).map Expr.mentions).getD []

/-- Something that a link mentions leads to another link, from the namespace that the first one
is in. -/
def Uses (table : Namespace) (link next : Link) : Prop :=
  ∃ m ∈ link.mentions table, m.target? table link.path = some next

/-- The frame with which expansion enters a link. -/
def frame : Link → Frame
  | definition kind name path => ⟨kind, name, path⟩
  | var group name path => .ofVariable group name path

theorem name_frame (link : Link) : link.frame.name = link.name := by
  cases link <;> rfl

theorem path_frame (link : Link) : link.frame.path = link.path := by
  cases link <;> rfl

end Link

/-- No name of a group has an opening parenthesis in it. -/
def Namespace.PlainGroups (table : Namespace) : Prop :=
  ∀ ⦃path group d⦄, table.getAt? path group .var = some d → '(' ∉ group.toList

namespace Link

variable {table : Namespace}

/-- A variable that is defined has a group without parentheses, if all groups are so. -/
theorem Defined.plain {group name : String} {path : Path} (hgroups : table.PlainGroups)
    (h : (var group name path).Defined table) : '(' ∉ group.toList := by
  obtain ⟨e, he⟩ := Option.isSome_iff_exists.mp h
  obtain ⟨d, hd, -⟩ := Option.bind_eq_some_iff.mp he
  exact hgroups hd

/-- Links are told apart by their frames, though a frame has one text for both group and name. -/
theorem eq_of_frame_eq (hgroups : table.PlainGroups) {link link' : Link}
    (hlink : link.Defined table) (hlink' : link'.Defined table) (h : link.frame = link'.frame) :
    link = link' := by
  cases link with
  | definition kind name path =>
    cases link' with
    | definition kind' name' path' =>
      simp only [frame, Frame.mk.injEq] at h
      obtain ⟨rfl, rfl, rfl⟩ := h
      rfl
    | var group' name' path' => exact absurd (congrArg Frame.kind h) hlink.1
  | var group name path =>
    cases link' with
    | definition kind' name' path' => exact absurd (congrArg Frame.kind h).symm hlink'.1
    | var group' name' path' =>
      obtain rfl : path = path' := congrArg Frame.path h
      have hchars := congrArg String.toList (congrArg Frame.name h)
      simp only [frame, Frame.ofVariable, String.toList_append, String.reduceToList,
        List.append_assoc, List.singleton_append] at hchars
      -- The first parenthesis of the text is the one behind the group. A name may have more of them.
      obtain ⟨hgroup, hrest⟩ :=
        Text.append_mark_inj (hlink.plain hgroups) (hlink'.plain hgroups) hchars
      obtain rfl : group = group' := String.toList_inj.mp hgroup
      obtain rfl : name = name' := String.toList_inj.mp (List.append_cancel_right hrest)
      rfl

end Link

/-! ## Trails -/

section Trails

variable {table : Namespace} {start : List Mention} {links : List Link} {link : Link}

/-- What is mentioned where expansion has got to: what was asked for, or the innermost link. -/
def mentionsAt (table : Namespace) (start : List Mention) : List Link → List Mention
  | [] => start
  | link :: _ => link.mentions table

/-- The namespace from which it is looked up. -/
def scopeAt : List Link → Path
  | [] => []
  | link :: _ => link.path

/-- Links that lead from what was asked for to where expansion has got to, the innermost first. -/
inductive Trail (table : Namespace) (start : List Mention) : List Link → Prop
  | nil : Trail table start []
  | cons {links : List Link} {link : Link} {m : Mention} : Trail table start links →
      m ∈ mentionsAt table start links → m.target? table (scopeAt links) = some link →
      link.Defined table → Trail table start (link :: links)

/-- What was asked for leads to a link. -/
def Link.ReachedFrom (table : Namespace) (start : List Mention) (link : Link) : Prop :=
  ∃ m ∈ start, ∃ first, m.target? table [] = some first ∧ ReflTransGen (Link.Uses table) first link

theorem Trail.defined (h : Trail table start links) : ∀ link ∈ links, link.Defined table := by
  induction h with
  | nil => exact fun _ hl => nomatch hl
  | cons _ _ _ hlink ih => exact List.forall_mem_cons.mpr ⟨hlink, ih⟩

/-- All links of a trail are reached from where it starts. -/
theorem Trail.reached (h : Trail table start links) :
    ∀ link ∈ links, link.ReachedFrom table start := by
  induction h with
  | nil => exact fun _ hl => nomatch hl
  | @cons links link m _ hm htarget _ ih =>
    refine List.forall_mem_cons.mpr ⟨?_, ih⟩
    cases links with
    | nil => exact ⟨m, hm, link, htarget, ReflTransGen.refl⟩
    | cons last _ =>
      obtain ⟨m₀, hm₀, first, hfirst, hlast⟩ := ih last List.mem_cons_self
      exact ⟨m₀, hm₀, first, hfirst, hlast.tail ⟨m, hm, htarget⟩⟩

/-- Every link of a trail leads to its inner end. -/
theorem Trail.reaches_head {last : Link} (h : Trail table start (last :: links)) :
    ∀ link ∈ last :: links, ReflTransGen (Link.Uses table) link last := by
  induction links generalizing last with
  | nil =>
    intro link hlink
    rw [List.mem_singleton.mp hlink]
  | cons next rest ih =>
    intro link hlink
    cases h with
    | cons htrail hm htarget _ =>
      rcases List.mem_cons.mp hlink with rfl | hlink
      · exact ReflTransGen.refl
      · exact (ih htrail link hlink).tail ⟨_, hm, htarget⟩

/-- A mention that leads back to a link of the trail closes a cycle. -/
theorem Trail.cycle (h : Trail table start links) (hlink : link ∈ links) {m : Mention}
    (hm : m ∈ mentionsAt table start links)
    (htarget : m.target? table (scopeAt links) = some link) :
    TransGen (Link.Uses table) link link := by
  cases links with
  | nil => cases hlink
  | cons last rest => exact TransGen.tail' (h.reaches_head link hlink) ⟨m, hm, htarget⟩

/-- A failure that is no cycle, or a cycle that there is: a link of the reported name, that what was
asked for leads to and that leads to itself. -/
def Genuine (table : Namespace) (start : List Mention) : ExpandError → Prop
  | .cyclic name => ∃ link : Link, link.name = name ∧ link.Defined table ∧
      link.ReachedFrom table start ∧ TransGen (Link.Uses table) link link
  | _ => True

/-- A link whose frame is on the stack is on the trail. -/
theorem Trail.genuine (hgroups : table.PlainGroups) (h : Trail table start links)
    (hlink : link.Defined table) (hcycle : link.frame ∈ links.map Link.frame) {m : Mention}
    (hm : m ∈ mentionsAt table start links)
    (htarget : m.target? table (scopeAt links) = some link) :
    Genuine table start (.cyclic link.frame.name) := by
  obtain ⟨link', hmem, hframe⟩ := List.mem_map.mp hcycle
  obtain rfl : link' = link := Link.eq_of_frame_eq hgroups (h.defined link' hmem) hlink hframe
  exact ⟨link', link'.name_frame.symm, hlink, h.reached link' hmem, h.cycle hmem hm htarget⟩

end Trails

end Stencil
