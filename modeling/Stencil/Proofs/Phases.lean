import Stencil.Proofs.PropertyCycles

/-!
# The two phases of a resolution

First the properties of the elements are evaluated, elements after those that they depend on; then the
rules. When an element has its turn, what it reads in other elements is in the memo. When the rules
have theirs, all properties of all elements are. So only the first phase can fail, and if it does, then
at properties of one element that read each other.

* `leads_inlineOutcomes` — the first phase fills the memo, or finds a cycle of one element
* `leads_allRules` — the second phase does not fail
* `circularProperty_of_one_element` — what a reported cycle of properties is
* `resolve_localRules` — leaving out the rules inside of elements changes nothing but these
-/

namespace Stencil.Resolution

open Session Plain

variable {r : Registry} {h : Handle} {entry : Entry} {name : String} {e : Expr}
  {kept : List PropertyKey} {order : List String}

/-! ## Between steps -/

/-- A session between steps: nothing is under evaluation, no cycle is on record, and the properties of
a list are in the memo. -/
structure Idle (kept : List PropertyKey) (s : Session) : Prop where
  inProgress : s.inProgress = []
  calm : s.circular = none
  memo : ∀ key ∈ kept, s.memo.lookup key ≠ none

theorem Idle.init : Idle [] {} := ⟨rfl, rfl, fun _ hkey => nomatch hkey⟩

/-- Between properties nothing is in progress, so that any element can be gone into. -/
theorem Idle.inside {s : Session} (hs : Idle kept s) (primary : String) :
    Inside r h primary kept [] s where
  inProgress := hs.inProgress
  memo := hs.memo
  circular error herror := by
    rw [hs.calm] at herror
    cases herror

theorem leads_conclude {E : ResolveError → Prop} (selector property : String)
    (value : Except EvalError Value) :
    Leads (Idle kept) (conclude selector property value) (fun _ => Idle kept) E := by
  unfold conclude
  cases value.bind Value.render with
  | ok text => exact Leads.pure fun s hs => hs
  | error error =>
    refine Leads.bind (Leads.modify fun s hs => ?_) fun _ => Leads.pure fun s hs => hs
    exact ⟨hs.inProgress, hs.calm, hs.memo⟩

/-! ## One element -/

/-- An error that reports properties of one element that read each other. -/
def OwnCycle (r : Registry) (error : ResolveError) : Prop :=
  ∃ h entry cycle, r.entry? h = some entry ∧ error = .circularProperty entry.primary cycle ∧
    Loop r h cycle

/-- A property is evaluated and kept, or it reads itself through others of its element. -/
theorem leads_evaluate (he : r.entry? h = some entry)
    (hp : entry.element.inlineProperty? name = some e) (hothers : OthersKept r h kept) :
    Leads (Idle kept) (evaluate r h name) (fun _ => Idle (kept ++ [(entry.primary, name)]))
      (OwnCycle r) := by
  refine Leads.settle fun s hs => ?_
  obtain ⟨answer, s', hrun, hrest⟩ := returns_lookup .init h name hs.inProgress
  have hinside := keeps_lookup_own he hothers (budget r) List.nodup_nil
    (List.IsChain.singleton name) (hs.inside entry.primary) hrun
  have hnew := lookup_memo_of_lookup he hp hs.inProgress hrun
  refine ⟨answer, s', hrun, fun hcalm => ⟨hrest, hcalm, fun key hkey => ?_⟩, fun error herror => ?_⟩
  · rcases List.mem_append.mp hkey with hkey | hkey
    · exact hinside.memo key hkey
    · rw [List.mem_singleton.mp hkey]
      exact hnew
  · obtain ⟨cycle, rfl, hloop⟩ := hinside.circular error herror
    exact ⟨h, entry, cycle, he, rfl, hloop⟩

/-- The properties that a styled element declares. -/
def declaredBy (found : String × Handle × Element) : List PropertyKey :=
  found.2.2.inlineProperties.keys.map (found.1, ·)

theorem mem_declaredBy (hp : entry.element.inlineProperty? name = some e) :
    (entry.primary, name) ∈ declaredBy (entry.primary, h, entry.element) := by
  rw [← Element.get?_inlineProperties] at hp
  have hname : name ∈ entry.element.inlineProperties.keys := by
    rw [← OrderedMap.contains_iff_mem_keys, OrderedMap.contains, hp]
    rfl
  exact List.mem_map.mpr ⟨name, hname, rfl⟩

/-- An element whose references are done adds its own properties to those that are kept. -/
theorem leads_elementOutcomes (he : r.entry? h = some entry) (hothers : OthersKept r h kept) :
    Leads (Idle kept) (elementOutcomes r entry.primary h entry.element)
      (fun _ => Idle (kept ++ declaredBy (entry.primary, h, entry.element))) (OwnCycle r) := by
  let keysOf (done : List (String × Expr)) : List PropertyKey :=
    done.map fun p => (entry.primary, p.1)
  have hmap : Leads (Idle (kept ++ keysOf [])) (elementOutcomes r entry.primary h entry.element)
      (fun _ => Idle (kept ++ keysOf entry.element.inlineProperties.entries)) (OwnCycle r) := by
    refine Leads.mapM_entries (I := fun done => Idle (kept ++ keysOf done)) fun done p rest hsplit => ?_
    obtain ⟨name, e⟩ := p
    have hp : entry.element.inlineProperty? name = some e := by
      rw [← Element.get?_inlineProperties]
      exact OrderedMap.get?_eq_some_iff.mpr (by rw [hsplit]; simp)
    have hothers' : OthersKept r h (kept ++ keysOf done) := fun _ _ _ _ hreads hne hother hdecl =>
      List.mem_append_left _ (hothers hreads hne hother hdecl)
    refine Leads.bind (leads_evaluate he hp hothers') fun value => ?_
    refine (leads_conclude _ _ _).mono (fun s hs => hs) (fun _ s hs => ?_) fun _ herror => herror
    simpa [keysOf] using hs
  simpa [keysOf, declaredBy, OrderedMap.keys, Function.comp_def] using hmap

/-! ## Elements in order -/

/-- When an element has its turn, those that it reads have had theirs. -/
theorem othersKept_of_sort (hd : r.Distinct) (hr : r.Indexed)
    (hsort : (Dependencies.build r).sort = .ok order) {done rest : List (String × Handle × Element)}
    {primary : String} {element : Element}
    (hsplit : styledIn r order = done ++ (primary, h, element) :: rest) :
    OthersKept r h (done.flatMap declaredBy) := by
  intro name slot other e hreads hne hother hdecl
  obtain ⟨before, later, rfl, hdone, hlater⟩ := List.filterMap_eq_append_iff.mp hsplit
  obtain ⟨skipped, primary', after, rfl, hskipped, hfound, -⟩ := List.filterMap_eq_cons_iff.mp hlater
  obtain ⟨found, hstyled, heq⟩ := Option.map_eq_some_iff.mp hfound
  cases heq
  have he := (entry?_of_styled? hr hstyled).1
  obtain ⟨-, -, hafter⟩ := Dependencies.sort_ok (Dependencies.built_build r) hsort
  -- The element that is read comes earlier in the order, and it is styled, so it is not left out.
  have hmem : other.primary ∈ before ++ skipped :=
    hafter (before ++ skipped) primary after (by simp) other.primary
      (Dependencies.dependsOn_of_reads hd hreads he hother (Ne.symm hne))
  have hstyle := Element.hasInlineStyle_of_inlineProperty? hdecl
  have hother' := (styled?_eq_some_iff hd hr).mpr ⟨hother, hstyle⟩
  have hbefore : other.primary ∈ before := by
    rcases List.mem_append.mp hmem with hmem | hmem
    · exact hmem
    · have hnone := hskipped _ hmem
      simp [hother'] at hnone
  refine List.mem_flatMap.mpr ⟨(other.primary, slot.1, other.element), ?_, mem_declaredBy hdecl⟩
  rw [← hdone]
  exact List.mem_filterMap.mpr ⟨other.primary, hbefore, by rw [hother']; rfl⟩

/-- The first phase evaluates all properties of the elements of an order, or finds properties of one
element that read each other. -/
theorem leads_inlineOutcomes (hd : r.Distinct) (hr : r.Indexed)
    (hsort : (Dependencies.build r).sort = .ok order) :
    Leads (Idle []) (inlineOutcomes r order)
      (fun _ => Idle ((styledIn r order).flatMap declaredBy)) (OwnCycle r) := by
  let I (done : List (String × Handle × Element)) : Session → Prop := Idle (done.flatMap declaredBy)
  have hmap : Leads (I []) (inlineOutcomes r order) (fun _ => I (styledIn r order)) (OwnCycle r) := by
    refine Leads.mapM fun done found rest hsplit => ?_
    have hmem : found ∈ styledIn r order := by
      rw [styledIn, hsplit]
      simp
    obtain ⟨primary, -, hfound⟩ := List.mem_filterMap.mp hmem
    obtain ⟨⟨h, element⟩, hstyled, rfl⟩ := Option.map_eq_some_iff.mp hfound
    have he := (entry?_of_styled? hr hstyled).1
    have hothers := othersKept_of_sort hd hr hsort hsplit
    have hstep : Leads (I done) (elementOutcomes r primary h element)
        (fun _ => I (done ++ [(primary, h, element)])) (OwnCycle r) := by
      have hstep := leads_elementOutcomes he hothers
      simpa [I] using hstep
    exact Leads.bind hstep fun o => Leads.pure fun s hs => hs
  exact hmap

/-- Every property that some element declares is in a list of properties. -/
def AllKept (r : Registry) (kept : List PropertyKey) : Prop :=
  ∀ ⦃h entry name e⦄, r.entry? h = some entry → entry.element.inlineProperty? name = some e →
    (entry.primary, name) ∈ kept

/-- The order has all elements with properties. -/
theorem allKept_of_sort (hd : r.Distinct) (hr : r.Indexed)
    (hsort : (Dependencies.build r).sort = .ok order) :
    AllKept r ((styledIn r order).flatMap declaredBy) := by
  intro h entry name e he hp
  have hstyle := Element.hasInlineStyle_of_inlineProperty? hp
  have hin := Dependencies.primary_mem_order hsort he hp
  exact List.mem_flatMap.mpr ⟨_, mem_styledIn hd hr he hstyle hin, mem_declaredBy hp⟩

/-! ## Rules -/

section Rules

variable (hall : AllKept r kept)
include hall

/-- With all properties in the memo, a lookup changes nothing. -/
theorem keeps_lookup_all (fuel : Nat) (h : Handle) (name : String) :
    Keeps (Idle kept) (lookup r fuel h name) := by
  intro s answer s' hs hrun
  rw [eq_of_lookup_kept (fun entry e he hp => hs.memo _ (hall he hp)) hrun]
  exact hs

omit hall in
theorem keeps_note_idle (n : Note) : Keeps (Idle kept) (note n) := by
  intro s a s' hs hrun
  cases hrun
  exact ⟨hs.inProgress, hs.calm, hs.memo⟩

omit hall in
/-- A step of evaluation that comes back and keeps the session idle does not fail. -/
theorem leads_settle_idle {α : Type} {x : Evaluating α} (hreturns : Returns [] x)
    (hkeeps : Keeps (Idle kept) x) :
    Leads (Idle kept) (settle x) (fun _ => Idle kept) fun _ => False := by
  refine Leads.settle fun s hs => ?_
  obtain ⟨a, s', hrun, -⟩ := hreturns hs.inProgress
  have hs' := hkeeps hs hrun
  refine ⟨a, s', hrun, fun _ => hs', fun error herror => ?_⟩
  rw [hs'.calm] at herror
  cases herror

omit hall in
/-- A rule adds nothing that is kept, and does not fail. -/
theorem leads_ruleOutcomes {scope : Scope Evaluating}
    (hreturns : ∀ e : Expr, Returns [] (e.eval scope).run)
    (hkeeps : ∀ e : Expr, Keeps (Idle kept) (e.eval scope).run) (rule : Rule) :
    Leads (Idle kept) (ruleOutcomes scope rule) (fun _ => Idle kept) fun _ => False := by
  refine Leads.bind (Leads.mapM_entries (I := fun _ => Idle kept) fun _ p _ _ => ?_) fun _ =>
    Leads.pure fun s hs => hs
  exact Leads.bind (leads_settle_idle (hreturns p.2) (hkeeps p.2)) fun _ => leads_conclude _ _ _

theorem leads_localRules (h : Handle) (element : Element) :
    Leads (Idle kept) (localRules r h element) (fun _ => Idle kept) fun _ => False := by
  refine Leads.mapM (I := fun _ => Idle kept) fun _ rule _ _ => leads_ruleOutcomes (fun e => ?_)
    (fun e => ?_) rule
  · exact returns_eval (returns_lookup .init) h e
  · exact keeps_elementScope keeps_note_idle fun slot _ => keeps_lookup_all hall _ _ _

theorem leads_globalRules (block : StyleBlock) :
    Leads (Idle kept) (globalRules r block) (fun _ => Idle kept) fun _ => False := by
  have hrules : Leads (Idle kept)
      (block.rules.mapM (ruleOutcomes (documentScope r (lookup r (budget r))))) (fun _ => Idle kept)
      fun _ => False := by
    refine Leads.mapM (I := fun _ => Idle kept) fun _ rule _ _ => leads_ruleOutcomes (fun e => ?_)
      (fun e => ?_) rule
    · exact returns_documentScope (returns_lookup .init) e
    · exact keeps_documentScope keeps_note_idle fun slot _ => keeps_lookup_all hall _ _ _
  unfold globalRules
  cases block.inline.isEmpty with
  | true => exact hrules
  | false =>
    refine Leads.bind (Leads.modify fun s hs => ?_) fun _ => hrules
    exact ⟨hs.inProgress, hs.calm, hs.memo⟩

/-- The second phase does not fail: what a rule reads is in the memo. -/
theorem leads_allRules (wantLocal : Bool) (tree : List Node) :
    Leads (Idle kept) (allRules r wantLocal tree) (fun _ => Idle kept) fun _ => False := by
  have houtside : ∀ inside : List (List (String × Outcomes)), Leads (Idle kept)
      (do
        let outside ← (tree.filterMap Node.style?).mapM (globalRules r)
        pure (inside.flatten ++ outside.flatten) : Resolving (List (String × Outcomes)))
      (fun _ => Idle kept) fun _ => False := by
    intro inside
    refine Leads.bind (Leads.mapM (I := fun _ => Idle kept) fun _ block _ _ => ?_) fun _ =>
      Leads.pure fun s hs => hs
    exact leads_globalRules hall block
  unfold allRules
  cases wantLocal with
  | false => exact Leads.bind (Leads.pure fun s hs => hs) houtside
  | true =>
    refine Leads.bind (Leads.mapM (I := fun _ => Idle kept) fun _ p _ _ => ?_) houtside
    exact leads_localRules hall p.2 p.1.element

end Rules

/-! ## The whole tree -/

/-- In a given order, only a cycle inside of one element makes a resolution fail. -/
theorem leads_resolveIn (hd : r.Distinct) (hr : r.Indexed)
    (hsort : (Dependencies.build r).sort = .ok order) (wantLocal : Bool) (tree : List Node) :
    Leads (Idle []) (resolveIn r order wantLocal tree) (fun _ _ => True) (OwnCycle r) := by
  have hrules := leads_allRules (allKept_of_sort hd hr hsort) wantLocal tree
  refine Leads.bind (leads_inlineOutcomes hd hr hsort) fun inline => ?_
  refine Leads.bind (hrules.mono (fun _ hs => hs) (fun _ _ hs => hs) fun _ => False.elim) fun rules => ?_
  exact Leads.pure fun _ _ => trivial

section Outcomes

variable {wantLocal : Bool} {tree : List Node}

theorem outcome_resolve (wantLocal : Bool) (tree : List Node) :
    (resolve wantLocal tree).outcome
      = ((Dependencies.build (Registry.build tree).value).sort.mapError .circularDependency).bind
          fun order => ((resolveIn (Registry.build tree).value order wantLocal tree).run.run {}).1 := by
  rw [resolve, Checked.outcome_bind, Checked.outcome_lift]
  show Checked.outcome ((Dependencies.build (Registry.build tree).value).order >>= _) = _
  rw [Checked.outcome_bind, Dependencies.outcome_order]
  rfl

theorem outcome_resolve_of_sort_error {cycle : List String}
    (hsort : (Dependencies.build (Registry.build tree).value).sort = .error cycle) :
    (resolve wantLocal tree).outcome = .error (.circularDependency cycle) := by
  rw [outcome_resolve, hsort]
  rfl

theorem outcome_resolve_of_sort_ok
    (hsort : (Dependencies.build (Registry.build tree).value).sort = .ok order) :
    (resolve wantLocal tree).outcome
      = ((resolveIn (Registry.build tree).value order wantLocal tree).run.run {}).1 := by
  rw [outcome_resolve, hsort]
  rfl

/-! ## Cycles of properties -/

/-- All properties of a loop are declared by its element. -/
theorem declared_of_loop {cycle : List String} (he : r.entry? h = some entry)
    (hloop : Loop r h cycle) : ∀ a ∈ cycle, (entry.element.inlineProperty? a).isSome := by
  obtain ⟨x, inner, rfl, -, hchain⟩ := hloop
  intro a ha
  have hfirst : a ∈ x :: inner := by
    rcases List.mem_append.mp ha with ha | ha
    · exact ha
    · rw [List.mem_singleton.mp ha]
      exact List.mem_cons_self
  -- In a chain, every entry but the last one reads the next.
  have hreads := List.isChain_cons_append_singleton_iff_forall₂.mp hchain
  obtain ⟨b, -, e, hbound, -⟩ := exists_right_of_forall₂ hreads hfirst
  obtain ⟨entry', he', hp⟩ := bound?_eq_some_iff.mp hbound
  obtain rfl := Option.some.inj (he.symm.trans he')
  simp [hp]

/-- **A reported cycle of properties belongs to one element.** If the primary names of a tree all
differ and resolving it fails with a cycle of properties, then the error names an element, all entries
of the cycle are names of properties that this element declares, the last entry is the first one again
and no other is repeated, and each entry reads the next one within the element. Properties of several
elements that read each other are reported as elements that depend on each other. -/
theorem circularProperty_of_one_element (hd : (Registry.build tree).value.Distinct) :
    let r := (Registry.build tree).value
    (∀ selector cycle,
      (resolve wantLocal tree).outcome = .error (.circularProperty selector cycle) →
      ∃ h entry x inner, r.entry? h = some entry ∧ entry.primary = selector ∧
        cycle = x :: inner ++ [x] ∧ (x :: inner).Nodup ∧
        (∀ a ∈ cycle, (entry.element.inlineProperty? a).isSome) ∧
        cycle.IsChain fun a b => Reads r (h, a) (h, b)) ∧
    ∀ a b : Slot, a.1 ≠ b.1 → Relation.TransGen (Reads r) a b → Relation.TransGen (Reads r) b a →
      ∃ cycle, (resolve wantLocal tree).outcome = .error (.circularDependency cycle) := by
  intro r
  constructor
  · intro selector cycle herror
    cases hsort : (Dependencies.build r).sort with
    | error cycle =>
      rw [outcome_resolve_of_sort_error hsort] at herror
      cases herror
    | ok order =>
      rw [outcome_resolve_of_sort_ok hsort] at herror
      have hleads := leads_resolveIn hd (Registry.indexed_build tree) hsort wantLocal tree Idle.init
      obtain ⟨h, entry, cycle', he, heq, hloop⟩ := hleads.2 (Prod.ext herror rfl)
      cases heq
      have hdeclared := declared_of_loop he hloop
      obtain ⟨x, inner, hcycle, hnodup, hchain⟩ := hloop
      exact ⟨h, entry, x, inner, he, rfl, hcycle, hnodup, hdeclared, hchain⟩
  · intro a b hne hab hba
    cases hsort : (Dependencies.build r).sort with
    | error cycle => exact ⟨cycle, outcome_resolve_of_sort_error hsort⟩
    | ok order =>
      have hacyclic := Dependencies.acyclic_of_sort_ok (Dependencies.built_build r) hsort
      exact absurd hacyclic (Dependencies.not_acyclic_of_reads hd hne hab hba)

end Outcomes

/-- An element whose width and height read each other, the one through the element's own name, and an
element that reads it. -/
def frame : List Node :=
  [.element ⟨"div", .ofList [("id", "box")], [.style
    { inline := .ofList [("width", .property none "height"),
        ("height", .property (some ⟨.id "box", none⟩) "width")] }]⟩,
   .element ⟨"p", .ofList [("id", "text")], [.style
    { inline := .ofList [("color", .property (some ⟨.id "box", none⟩) "width")] }]⟩]

theorem circularProperty_of_one_element_frame :
    (Registry.build frame).value.Distinct ∧
      (resolve true frame).outcome
        = .error (.circularProperty "#box" ["width", "height", "width"]) ∧
      ∃ h entry, (Registry.build frame).value.entry? h = some entry ∧ entry.primary = "#box" ∧
        ["width", "height", "width"].IsChain fun a b =>
          Reads (Registry.build frame).value (h, a) (h, b) := by
  have hd : (Registry.build frame).value.Distinct := by
    rw [Registry.build_eq_foldlM]
    decide
  have hfail : (resolve true frame).outcome.map (fun _ => ())
      = .error (.circularProperty "#box" ["width", "height", "width"]) := by decide +kernel
  have herror : (resolve true frame).outcome
      = .error (.circularProperty "#box" ["width", "height", "width"]) := by
    cases h : (resolve true frame).outcome with
    | ok res => rw [h] at hfail; cases hfail
    | error e => rw [h] at hfail; cases hfail; rfl
  obtain ⟨h, entry, -, -, he, hname, -, -, -, hchain⟩ :=
    (circularProperty_of_one_element hd).1 _ _ herror
  exact ⟨hd, herror, h, entry, he, hname, hchain⟩

/-! ## Rules aside -/

theorem PlainOutcomes.unique {here : Option Handle} {properties : Properties} {o o' : Outcomes}
    (ho : PlainOutcomes r here properties o) (ho' : PlainOutcomes r here properties o') : o = o' := by
  refine OrderedMap.ext (List.right_unique_forall₂' ?_ ho ho')
  rintro p ⟨name, outcome⟩ ⟨name', outcome'⟩ ⟨hname, hvalue⟩ ⟨hname', hvalue'⟩
  rw [hvalue] at hvalue'
  exact Prod.ext (hname.trans hname'.symm) (Option.some.inj hvalue')

theorem rightUnique_plainRule : Relator.RightUnique (PlainRule r) := by
  rintro owned ⟨selector, o⟩ ⟨selector', o'⟩ ⟨hselector, ho⟩ ⟨hselector', ho'⟩
  exact Prod.ext (hselector.trans hselector'.symm) (ho.unique ho')

/-- The outcomes of the rules outside of all elements stand at the end, and are the same with and
without the others. -/
theorem suffix_of_plainRules {tree : List Node} {rules rules' : List (String × Outcomes)}
    (hrules : List.Forall₂ (PlainRule r) (ownedRules r true tree) rules)
    (hrules' : List.Forall₂ (PlainRule r) (ownedRules r false tree) rules') : rules' <:+ rules := by
  obtain ⟨inside, hsplit⟩ : ∃ inside, ownedRules r true tree = inside ++ ownedRules r false tree :=
    ⟨_, rfl⟩
  have hdrop := List.forall₂_drop inside.length hrules
  rw [hsplit, List.drop_left] at hdrop
  rw [List.right_unique_forall₂' rightUnique_plainRule hrules' hdrop]
  exact List.drop_suffix _ _

/-- After a first phase that succeeds, the second one does too, and the rest of the result is what the
first phase has found. -/
theorem run_resolveIn_of_inline (hd : r.Distinct) (hr : r.Indexed)
    (hsort : (Dependencies.build r).sort = .ok order) {inline : List (String × Outcomes)} {s : Session}
    (hrun : (inlineOutcomes r order).run.run {} = (.ok inline, s)) (wantLocal : Bool)
    (tree : List Node) :
    ∃ rules s', (allRules r wantLocal tree).run.run s = (.ok rules, s') ∧
      List.Forall₂ (PlainRule r) (ownedRules r wantLocal tree) rules ∧
      ((resolveIn r order wantLocal tree).run.run {}).1 = .ok {
        styles := styleMap r inline
        rules := rules.map fun (selector, outcomes) => ⟨selector, outcomes.texts⟩
        diagnostics := (inline ++ rules).flatMap fun (selector, o) => o.diagnostics selector
        order } := by
  have hidle := (leads_inlineOutcomes hd hr hsort Idle.init).1 hrun
  have hsettled := (ensures_inlineOutcomes hd hr order ⟨Sound.init, rfl⟩ hrun).1
  have hleads := leads_allRules (allKept_of_sort hd hr hsort) wantLocal tree hidle
  rcases hrules : (allRules r wantLocal tree).run.run s with ⟨error | rules, s'⟩
  · exact (hleads.2 hrules).elim
  · refine ⟨rules, s', rfl, (ensures_allRules hd wantLocal tree hsettled hrules).2, ?_⟩
    rw [resolveIn, run_bind_ok hrun, run_bind_ok hrules]
    rfl

/-- **Rules do not decide whether a tree is resolved.** If the primary names of a tree all differ, then
with and without the rules inside of elements it is resolved to the same styles in the same order, and
the rules of the one result are the last ones of the other; or both fail with the same error. Once the
properties of all elements are evaluated, no rule makes the resolution fail. -/
theorem resolve_localRules {tree : List Node} (hd : (Registry.build tree).value.Distinct) :
    let r := (Registry.build tree).value
    ((∃ error, (resolve true tree).outcome = .error error ∧
        (resolve false tree).outcome = .error error) ∨
      ∃ full sparse, (resolve true tree).outcome = .ok full ∧
        (resolve false tree).outcome = .ok sparse ∧
        full.styles = sparse.styles ∧ full.order = sparse.order ∧ sparse.rules <:+ full.rules) ∧
    ∀ wantLocal order inline s, (Dependencies.build r).sort = .ok order →
      (inlineOutcomes r order).run.run {} = (.ok inline, s) →
      ∃ rules s', (allRules r wantLocal tree).run.run s = (.ok rules, s') := by
  intro r
  have hr := Registry.indexed_build tree
  constructor
  · cases hsort : (Dependencies.build r).sort with
    | error cycle =>
      exact Or.inl ⟨_, outcome_resolve_of_sort_error hsort, outcome_resolve_of_sort_error hsort⟩
    | ok order =>
      rw [outcome_resolve_of_sort_ok hsort, outcome_resolve_of_sort_ok hsort]
      rcases hrun : (inlineOutcomes r order).run.run {} with ⟨error | inline, s⟩
      · refine Or.inl ⟨error, ?_, ?_⟩ <;> rw [resolveIn, run_bind_error hrun]
      · obtain ⟨rules, -, -, hrules, hfull⟩ := run_resolveIn_of_inline hd hr hsort hrun true tree
        obtain ⟨rules', -, -, hrules', hsparse⟩ := run_resolveIn_of_inline hd hr hsort hrun false tree
        exact Or.inr ⟨_, _, hfull, hsparse, rfl, rfl, (suffix_of_plainRules hrules hrules').map _⟩
  · intro wantLocal order inline s hsort hrun
    obtain ⟨rules, s', hrules, -⟩ := run_resolveIn_of_inline hd hr hsort hrun wantLocal tree
    exact ⟨rules, s', hrules⟩

/-- An element with a rule, and a rule outside of it; both read a property of the element. -/
def banner : List Node :=
  [.style { rules := [⟨"a", .ofList [("color", .property (some ⟨.id "top", none⟩) "color")]⟩] },
   .element ⟨"div", .ofList [("id", "top")], [.style
    { inline := .ofList [("color", .literal "red")]
      rules := [⟨"&:hover", .ofList [("border", .property none "color")]⟩] }]⟩]

theorem resolve_localRules_banner :
    (Registry.build banner).value.Distinct ∧
      ∃ full sparse, (resolve true banner).outcome = .ok full ∧
        (resolve false banner).outcome = .ok sparse ∧ full.styles = sparse.styles ∧
        full.rules.map SheetRule.selector = ["&:hover", "a"] ∧
        sparse.rules.map SheetRule.selector = ["a"] ∧ sparse.rules <:+ full.rules := by
  have hd : (Registry.build banner).value.Distinct := by
    rw [Registry.build_eq_foldlM]
    decide
  have hfull : (resolve true banner).outcome.toOption.map (·.rules.map SheetRule.selector)
      = some ["&:hover", "a"] := by decide +kernel
  have hsparse : (resolve false banner).outcome.toOption.map (·.rules.map SheetRule.selector)
      = some ["a"] := by decide +kernel
  rcases (resolve_localRules hd).1 with ⟨error, herror, -⟩ | ⟨full, sparse, ho, ho', hs, -, hsuffix⟩
  · rw [herror] at hfull
    cases hfull
  · rw [ho] at hfull
    rw [ho'] at hsparse
    exact ⟨hd, full, sparse, ho, ho', hs, Option.some.inj hfull, Option.some.inj hsparse, hsuffix⟩

end Stencil.Resolution
