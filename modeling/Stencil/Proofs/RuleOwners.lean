import Stencil.LocalRules
import Stencil.Proofs.Names
import Stencil.Proofs.OrderedMap

/-!
# What preparing the rules of a document changes

An element may take on a class or an id that its rules name, and in its rules `&` is replaced by a
selector for it. Nothing else changes, anywhere in the tree.

* `Leads`, `FirstNamed` — the name that a selector, and the rules of an element, start with
* `Adapted` — what an element takes on, and that it keeps all other attributes
* `Owner`, `Replaced` — what `&` stands for, and a text with that in the place of each `&`
* `Prepared`, `PreparedAll` — all changes to a tree, at every depth
* `prepare_changes_only` — preparing makes these changes and no others
-/

namespace Stencil

/-! ## The rules -/

namespace LocalRules

/-- A selector that starts with a mark and a name, perhaps behind blanks. -/
def Leads (mark : Char) (selector name : String) : Prop :=
  ∃ before after, selector.toList = before ++ mark :: (name.toList ++ after) ∧
    before.all Text.isBlank ∧ Text.IsName name.toList ∧ ∀ c ∈ after.head?, Text.isNameChar c = false

/-- The first name behind a mark with which the selector of a rule starts. -/
def FirstNamed (mark : Char) (rules : List Rule) (name : String) : Prop :=
  ∃ front rule back, rules = front ++ rule :: back ∧ Leads mark rule.selector name ∧
    ∀ earlier ∈ front, ∀ other, ¬ Leads mark earlier.selector other

/-- When an element takes on a class. -/
def TakesClass (options : Options) (e : Element) (name : String) : Prop :=
  options.addClass = true ∧ e.classes = [] ∧ FirstNamed '.' e.rules name

/-- When an element takes on an id. -/
def TakesId (options : Options) (e : Element) (name : String) : Prop :=
  options.addId = true ∧ e.id? = none ∧ FirstNamed '#' e.rules name

/-- An element takes on what its rules name and it lacks, and is the same otherwise, apart from its
children. -/
structure Adapted (options : Options) (e e' : Element) : Prop where
  tag : e'.tag = e.tag
  classes : ∀ name, TakesClass options e name → e'.classes = [name]
  id : ∀ name, TakesId options e name → e'.id? = some name
  keptClass : (∀ name, ¬ TakesClass options e name) →
    e'.attributes.get? "class" = e.attributes.get? "class"
  keptId : (∀ name, ¬ TakesId options e name) → e'.attributes.get? "id" = e.attributes.get? "id"
  kept : ∀ key, key ≠ "class" → key ≠ "id" → e'.attributes.get? key = e.attributes.get? key
  /-- New attributes come last. -/
  keys : e.attributes.keys <+: e'.attributes.keys

/-- What `&` stands for in the rules of an element: its first class, or else its id, or else its tag in
lower case. -/
inductive Owner (e : Element) : String → Prop
  | byClass {name : String} {more : List String} : e.classes = name :: more → Owner e ("." ++ name)
  | byId {id : String} : e.classes = [] → e.id? = some id → Owner e ("#" ++ id)
  | byTag : e.classes = [] → e.id? = none → Owner e (String.ofList (e.tag.toList.map Char.toLower))

/-- A text before and after each `&` in it is replaced. The other characters stay as they are. -/
inductive Replaced (owner : List Char) : List Char → List Char → Prop
  | nil : Replaced owner [] []
  | mark {cs cs' : List Char} : Replaced owner cs cs' → Replaced owner ('&' :: cs) (owner ++ cs')
  | kept {c : Char} {cs cs' : List Char} :
      c ≠ '&' → Replaced owner cs cs' → Replaced owner (c :: cs) (c :: cs')

/-- In the rules of a style block `&` is replaced, and the block is the same otherwise. -/
structure Addressed (owner : String) (b b' : StyleBlock) : Prop where
  inline : b'.inline = b.inline
  usages : b'.usages = b.usages
  deletions : b'.deletions = b.deletions
  rules : List.Forall₂ (fun rule rule' => rule'.properties = rule.properties ∧
    Replaced owner.toList rule.selector.toList rule'.selector.toList) b.rules b'.rules

mutual

/-- A node before and after its rules are prepared. `around` is what `&` stands for in a style block;
outside of all elements it stands for itself. -/
inductive Prepared (options : Options) : Option String → Node → Node → Prop
  | element {around : Option String} {e e' : Element} {owner : String} : Adapted options e e' →
      Owner e' owner → PreparedAll options (some owner) e.children e'.children →
      Prepared options around (.element e) (.element e')
  | owned {owner : String} {b b' : StyleBlock} : Addressed owner b b' →
      Prepared options (some owner) (.style b) (.style b')
  | outside {b : StyleBlock} : Prepared options none (.style b) (.style b)
  | text {around : Option String} {text : String} :
      Prepared options around (.text text) (.text text)
  | usage {around : Option String} {u : Usage} : Prepared options around (.usage u) (.usage u)
  | definition {around : Option String} {d : Definition} :
      Prepared options around (.definition d) (.definition d)

/-- Node by node. -/
inductive PreparedAll (options : Options) : Option String → List Node → List Node → Prop
  | nil {around : Option String} : PreparedAll options around [] []
  | cons {around : Option String} {node node' : Node} {rest rest' : List Node} :
      Prepared options around node node' → PreparedAll options around rest rest' →
      PreparedAll options around (node :: rest) (node' :: rest')

end

/-! ## Leading names -/

/-- The name is read up to the first character that cannot go on with it. -/
theorem leadingName?_eq_some_iff {mark : Char} (hmark : Text.isBlank mark = false)
    {selector name : String} : leadingName? mark selector = some name ↔ Leads mark selector name := by
  constructor
  · intro h
    unfold leadingName? at h
    split at h
    · cases h
    · rename_i c rest hrest
      simp only [Option.ite_none_right_eq_some, Option.some.injEq] at h
      obtain ⟨⟨rfl, hne⟩, rfl⟩ := h
      refine ⟨selector.toList.takeWhile Text.isBlank, rest.dropWhile Text.isNameChar, ?_,
        List.all_takeWhile, ?_, ?_⟩
      · rw [String.toList_ofList, List.takeWhile_append_dropWhile, ← hrest]
        exact List.takeWhile_append_dropWhile.symm
      · rw [String.toList_ofList]
        exact ⟨hne, List.all_eq_true.mp List.all_takeWhile⟩
      · intro c hc
        have hstop := List.head?_dropWhile_not Text.isNameChar rest
        rwa [Option.mem_def.mp hc] at hstop
  · rintro ⟨before, after, hselector, hbefore, hname, hafter⟩
    have htrim : Text.trimStart selector.toList = mark :: (name.toList ++ after) := by
      rw [hselector, Text.trimStart_append hbefore, Text.trimStart_of_head]
      simpa using hmark
    have htake : (name.toList ++ after).takeWhile Text.isNameChar = name.toList :=
      Text.takeWhile_append_of_head hname.2 hafter
    unfold leadingName?
    simp [htrim, htake, hname.1]

/-- The first rule that leads with a name gives it. -/
theorem firstName?_eq_some_iff {mark : Char} (hmark : Text.isBlank mark = false) {e : Element}
    {name : String} : firstName? mark e = some name ↔ FirstNamed mark e.rules name := by
  have hnone (selector : String) :
      leadingName? mark selector = none ↔ ∀ other, ¬ Leads mark selector other := by
    rw [Option.eq_none_iff_forall_ne_some]
    exact forall_congr' fun other => not_congr (leadingName?_eq_some_iff hmark)
  simp only [firstName?, List.findSome?_eq_some_iff, leadingName?_eq_some_iff hmark, hnone, FirstNamed]

theorem FirstNamed.isName {mark : Char} {rules : List Rule} {name : String}
    (h : FirstNamed mark rules name) : Text.IsName name.toList := by
  obtain ⟨front, rule, back, -, ⟨before, after, -, -, hname, -⟩, -⟩ := h
  exact hname

/-! ## Attributes -/

end LocalRules

namespace Element

variable {e : Element} {name key : String}

/-- An element without classes has a blank `class` attribute, or none. -/
theorem blank_of_classes (h : e.classes = []) :
    ((e.attributes.get? "class").getD "").toList.all Text.isBlank := by
  unfold classes at h
  split at h
  · rename_i text htext
    rw [htext]
    exact Text.all_isBlank_of_words (List.map_eq_nil_iff.mp h)
  · rename_i hnone
    rw [hnone]
    rfl

/-- A name is one class, since there are no blanks in it. -/
theorem classes_addClass (h : e.classes = []) (hname : Text.IsName name.toList) :
    (e.addClass name).classes = [name] := by
  have hblank := blank_of_classes h
  have hclass : e.hasClass name = false := by rw [hasClass, h]; rfl
  have htrimmed : Text.trimmed ((e.attributes.get? "class").getD "") = "" := by
    rw [Text.trimmed, Text.trim_eq_nil hblank]
  unfold addClass
  simp [hclass, htrimmed, classes, Text.wordsOf, Text.words_append_name hblank hname]

theorem id?_setId (hname : Text.IsName name.toList) : (e.setId name).id? = some name := by
  have htrimmed : Text.trimmed name = name := by
    rw [Text.trimmed, Text.trim_of_forall fun c hc =>
      Text.isBlank_eq_false_of_isNameChar (hname.2 c hc), String.ofList_toList]
  have hne : name ≠ "" := fun h => hname.1 (by rw [h]; rfl)
  simp [id?, setId, htrimmed, hne]

/-- Two elements that differ at most in one attribute. A new attribute comes last. -/
structure SameBut (key : String) (e e' : Element) : Prop where
  tag : e'.tag = e.tag
  children : e'.children = e.children
  get? : ∀ other, other ≠ key → e'.attributes.get? other = e.attributes.get? other
  keys : e.attributes.keys <+: e'.attributes.keys

theorem SameBut.refl (key : String) (e : Element) : SameBut key e e :=
  ⟨rfl, rfl, fun _ _ => rfl, List.prefix_rfl⟩

theorem sameBut_insert (key text : String) (e : Element) :
    SameBut key e { e with attributes := e.attributes.insert key text } where
  tag := rfl
  children := rfl
  get? other hother := by simp [Ne.symm hother]
  keys := by
    rw [OrderedMap.keys_insert]
    split
    · exact List.prefix_rfl
    · exact List.prefix_append _ _

theorem sameBut_addClass (name : String) (e : Element) : SameBut "class" e (e.addClass name) := by
  unfold addClass
  split
  · exact .refl _ e
  · exact sameBut_insert _ _ e

end Element

namespace LocalRules

variable {options : Options} {e : Element} {name name' : String}

/-- There is one first name at most. -/
theorem FirstNamed.unique {mark : Char} (hmark : Text.isBlank mark = false)
    (h : FirstNamed mark e.rules name) (h' : FirstNamed mark e.rules name') : name = name' := by
  have hsome := (firstName?_eq_some_iff hmark).mpr h
  rw [(firstName?_eq_some_iff hmark).mpr h', Option.some.injEq] at hsome
  exact hsome.symm

/-- An element takes on a class, or stays the same. -/
theorem nameClass_cases (options : Options) (e : Element) :
    (∃ name, TakesClass options e name ∧
      (if options.addClass then nameClass e else pure e).value = e.addClass name) ∨
    ((∀ name, ¬ TakesClass options e name) ∧
      (if options.addClass then nameClass e else pure e).value = e) := by
  by_cases hadd : options.addClass = true
  · rw [if_pos hadd]
    unfold nameClass
    split
    · rename_i name hclasses hname
      exact Or.inl ⟨name, ⟨hadd, hclasses, (firstName?_eq_some_iff (by decide)).mp hname⟩, rfl⟩
    · rename_i hnot
      refine Or.inr ⟨?_, rfl⟩
      rintro name ⟨-, hclasses, hname⟩
      exact hnot name hclasses ((firstName?_eq_some_iff (by decide)).mpr hname)
  · rw [if_neg hadd]
    exact Or.inr ⟨fun name h => hadd h.1, rfl⟩

/-- An element takes on an id, or stays the same. -/
theorem nameId_cases (options : Options) (e : Element) :
    (∃ name, TakesId options e name ∧
      (if options.addId then nameId e else pure e).value = e.setId name) ∨
    ((∀ name, ¬ TakesId options e name) ∧
      (if options.addId then nameId e else pure e).value = e) := by
  by_cases hadd : options.addId = true
  · rw [if_pos hadd]
    unfold nameId
    split
    · rename_i name hid hname
      exact Or.inl ⟨name, ⟨hadd, hid, (firstName?_eq_some_iff (by decide)).mp hname⟩, rfl⟩
    · rename_i hnot
      refine Or.inr ⟨?_, rfl⟩
      rintro name ⟨-, hid, hname⟩
      exact hnot name hid ((firstName?_eq_some_iff (by decide)).mpr hname)
  · rw [if_neg hadd]
    exact Or.inr ⟨fun name h => hadd h.1, rfl⟩

/-- Whether an element takes on an id does not hang on its classes. -/
theorem takesId_congr {e' : Element} (h : Element.SameBut "class" e e') :
    TakesId options e' name ↔ TakesId options e name := by
  have hid : e'.id? = e.id? := by rw [Element.id?, h.get? "id" (by decide), Element.id?]
  have hrules : e'.rules = e.rules := by
    rw [Element.rules, Element.styleBlocks, h.children]
    rfl
  rw [TakesId, hid, hrules, TakesId]

theorem value_nameElement (options : Options) (e : Element) :
    ∃ named, named = (if options.addClass then nameClass e else pure e).value ∧
      (nameElement options e).value = (if options.addId then nameId named else pure named).value := by
  refine ⟨_, rfl, ?_⟩
  cases hclass : options.addClass <;> simp [nameElement, hclass]

/-- A class is taken on before an id, which does not see it. -/
theorem adapted_nameElement (options : Options) (e : Element) :
    Adapted options e (nameElement options e).value := by
  -- First the class, then the id. The element `e₁` lies between the two steps.
  obtain ⟨e₁, he₁, he₂⟩ := value_nameElement options e
  have hclass := nameClass_cases options e
  rw [← he₁] at hclass
  have hsame₁ : Element.SameBut "class" e e₁ := by
    rcases hclass with ⟨name, -, rfl⟩ | ⟨-, rfl⟩
    · exact Element.sameBut_addClass name e
    · exact .refl _ e₁
  have hid := nameId_cases options e₁
  rw [← he₂] at hid
  simp only [takesId_congr hsame₁] at hid
  generalize (nameElement options e).value = e₂ at hid
  have hsame₂ : Element.SameBut "id" e₁ e₂ := by
    rcases hid with ⟨name, -, rfl⟩ | ⟨-, rfl⟩
    · exact Element.sameBut_insert "id" name e₁
    · exact .refl _ e₂
  have hclasses : e₂.classes = e₁.classes := by
    rw [Element.classes, hsame₂.get? "class" (by decide), Element.classes]
  refine ⟨hsame₂.tag.trans hsame₁.tag, ?_, ?_, ?_, ?_, ?_, hsame₁.keys.trans hsame₂.keys⟩
  · intro name hname
    rcases hclass with ⟨name', hname', rfl⟩ | ⟨hnone, -⟩
    · rw [hclasses, hname.2.2.unique (by decide) hname'.2.2]
      exact Element.classes_addClass hname'.2.1 hname'.2.2.isName
    · exact absurd hname (hnone name)
  · intro name hname
    rcases hid with ⟨name', hname', rfl⟩ | ⟨hnone, -⟩
    · rw [hname.2.2.unique (by decide) hname'.2.2]
      exact Element.id?_setId hname'.2.2.isName
    · exact absurd hname (hnone name)
  · intro hnone
    rcases hclass with ⟨name, hname, -⟩ | ⟨-, rfl⟩
    · exact absurd hname (hnone name)
    · exact hsame₂.get? "class" (by decide)
  · intro hnone
    rcases hid with ⟨name, hname, -⟩ | ⟨-, rfl⟩
    · exact absurd hname (hnone name)
    · exact hsame₁.get? "id" (by decide)
  · intro key hkey hkey'
    rw [hsame₂.get? key hkey', hsame₁.get? key hkey]

/-- What an element takes on does not hang on the children that it has afterwards. -/
theorem Adapted.withChildren {e' : Element} (h : Adapted options e e') (children : List Node) :
    Adapted options e { e' with children } :=
  ⟨h.tag, h.classes, h.id, h.keptClass, h.keptId, h.kept, h.keys⟩

/-! ## The place of `&` -/

theorem owner_owner (e : Element) : Owner e (owner e) := by
  unfold owner
  split
  · rename_i hclasses
    exact .byClass hclasses
  · rename_i hclasses hid
    exact .byId hclasses hid
  · rename_i hclasses hid
    exact .byTag hclasses hid

/-- What `&` stands for does not hang on the children of the element. -/
theorem Owner.withChildren {owner : String} (h : Owner e owner) (children : List Node) :
    Owner { e with children } owner := by
  cases h with
  | byClass hclasses => exact .byClass hclasses
  | byId hclasses hid => exact .byId hclasses hid
  | byTag hclasses hid => exact .byTag hclasses hid

theorem replaced_flatMap (owner cs : List Char) :
    Replaced owner cs (cs.flatMap fun c => if c = '&' then owner else [c]) := by
  induction cs with
  | nil => exact .nil
  | cons c rest ih =>
    rw [List.flatMap_cons]
    split
    · rename_i hmark
      subst hmark
      exact .mark ih
    · rename_i hother
      exact .kept hother ih

/-- A `&` that is left comes from what is put in its place. -/
theorem Replaced.mem_owner {owner cs cs' : List Char} (h : Replaced owner cs cs') (hmem : '&' ∈ cs') :
    '&' ∈ owner := by
  induction h with
  | nil => cases hmem
  | mark _ ih => exact (List.mem_append.mp hmem).elim id ih
  | kept hother _ ih => exact ih (List.mem_of_ne_of_mem (Ne.symm hother) hmem)

/-! ## The tree -/

theorem addressed_replaceInBlock (owner : String) (b : StyleBlock) :
    Addressed owner b (replaceInBlock owner b) where
  inline := rfl
  usages := rfl
  deletions := rfl
  rules := by
    rw [replaceInBlock, List.forall₂_map_right_iff, List.forall₂_same]
    intro rule _
    refine ⟨rfl, ?_⟩
    rw [replaceOwner, String.toList_ofList]
    exact replaced_flatMap owner.toList rule.selector.toList

mutual

/-- Preparing does what the relation says, at any depth. -/
theorem preparedAll_prepareIn (options : Options) (around : Option String) :
    ∀ nodes : List Node, PreparedAll options around nodes (prepareIn options around nodes).value
  | [] => .nil
  | node :: rest =>
    .cons (prepared_prepareNode options around node) (preparedAll_prepareIn options around rest)

theorem prepared_prepareNode (options : Options) (around : Option String) :
    ∀ node : Node, Prepared options around node (prepareNode options around node).value
  | .element ⟨tag, attributes, children⟩ =>
    .element ((adapted_nameElement options _).withChildren _) ((owner_owner _).withChildren _)
      (preparedAll_prepareIn options _ children)
  | .style b => by
    cases around with
    | none => exact .outside
    | some owner => exact .owned (addressed_replaceInBlock owner b)
  | .text _ => .text
  | .usage _ => .usage
  | .definition _ => .definition

end

/-! ## What is left of `&` -/

/-- In style blocks that belong to an element, `&` is left only where the selector for it has one. -/
theorem PreparedAll.owned_marks {options : Options} {owner : String} : ∀ {nodes nodes' : List Node},
    PreparedAll options (some owner) nodes nodes' → ∀ b ∈ nodes'.filterMap Node.style?,
      ∀ rule ∈ b.rules, '&' ∈ rule.selector.toList → '&' ∈ owner.toList
  | _, _, .nil, _, hb => by simp at hb
  | _, _, .cons hnode hrest, b, hb => by
    cases hnode with
    | @owned _ b₀ b₀' haddressed =>
      rcases List.mem_cons.mp hb with rfl | hb
      · intro rule hrule hmark
        obtain ⟨i, hi, rfl⟩ := List.getElem_of_mem hrule
        obtain ⟨hlength, hrules⟩ := List.forall₂_iff_get.mp haddressed.rules
        obtain ⟨-, hselector⟩ := hrules i (hlength ▸ hi) hi
        exact hselector.mem_owner hmark
      · exact hrest.owned_marks b hb
    | element | text | usage | definition => exact hrest.owned_marks b hb

mutual

/-- In the rules of a prepared element `&` is left only where the selector for it has one. -/
theorem PreparedAll.marks {options : Options} {around : Option String} : ∀ {nodes nodes' : List Node},
    PreparedAll options around nodes nodes' → ∀ e ∈ preorder nodes', ∃ owner, Owner e owner ∧
      ∀ rule ∈ e.rules, '&' ∈ rule.selector.toList → '&' ∈ owner.toList
  | _, _, .nil, _, he => by simp [preorder] at he
  | _, _, .cons hnode hrest, e, he => by
    rw [preorder, List.mem_append] at he
    rcases he with he | he
    · exact hnode.marks e he
    · exact hrest.marks e he

theorem Prepared.marks {options : Options} {around : Option String} : ∀ {node node' : Node},
    Prepared options around node node' → ∀ e ∈ node'.preorder, ∃ owner, Owner e owner ∧
      ∀ rule ∈ e.rules, '&' ∈ rule.selector.toList → '&' ∈ owner.toList
  | _, .element ⟨_, _, _⟩, .element _ howner hchildren, e, he => by
    rw [Node.preorder, List.mem_cons] at he
    rcases he with rfl | he
    · refine ⟨_, howner, fun rule hrule => ?_⟩
      obtain ⟨b, hb, hrule⟩ := List.mem_flatMap.mp hrule
      exact hchildren.owned_marks b hb rule hrule
    · exact hchildren.marks e he
  | _, _, .owned _, _, he => by simp [Node.preorder] at he
  | _, _, .outside, _, he => by simp [Node.preorder] at he
  | _, _, .text, _, he => by simp [Node.preorder] at he
  | _, _, .usage, _, he => by simp [Node.preorder] at he
  | _, _, .definition, _, he => by simp [Node.preorder] at he

end

/-- **Preparing changes only what the rules ask for.** At every depth an element takes on the class and
the id that its rules name first, if it has none, and keeps all other attributes; in its rules `&` is
replaced by its first class, or else its id, or else its tag, and everything else in the tree stays. A
rule has a `&` afterwards only if that selector has one. -/
theorem prepare_changes_only (options : Options) (nodes : List Node) :
    PreparedAll options none nodes (prepare options nodes).value ∧
      ∀ e ∈ preorder (prepare options nodes).value, ∃ owner, Owner e owner ∧
        ∀ rule ∈ e.rules, '&' ∈ rule.selector.toList → '&' ∈ owner.toList :=
  have hprepared := preparedAll_prepareIn options none nodes
  ⟨hprepared, hprepared.marks⟩

/-- A paragraph with a `&` in its class, a section with blanks for a class and an id, whose rules name
an id, and in it an item with neither. -/
def lodging : List Node :=
  [.element ⟨"p", .ofList [("class", "bed&breakfast")],
      [.style { rules := [⟨".lodging", .empty⟩, ⟨"& > i", .empty⟩] }]⟩,
    .element ⟨"section", .ofList [("class", " "), ("id", " ")],
      [.style { rules := [⟨"& > &:hover", .empty⟩, ⟨"#rooms", .empty⟩] },
        .element ⟨"LI", .empty, [.style { rules := [⟨"&:hover", .empty⟩] }]⟩]⟩]

/-- In the rules stand the class, the id and the tag in lower case. The only `&` that is left is that
of the class. -/
theorem prepare_changes_only_lodging :
    PreparedAll {} none lodging (prepare {} lodging).value ∧
      (preorder (prepare {} lodging).value).map (fun e => e.rules.map Rule.selector) =
        [[".lodging", ".bed&breakfast > i"], ["#rooms > #rooms:hover", "#rooms"], ["li:hover"]] ∧
      (preorder (prepare {} lodging).value).map (fun e => (e.classes, e.id?)) =
        [(["bed&breakfast"], none), ([], some "rooms"), ([], none)] ∧
      ∃ e ∈ preorder (prepare {} lodging).value, ∃ owner, Owner e owner ∧ '&' ∈ owner.toList := by
  obtain ⟨hprepared, hmarks⟩ := prepare_changes_only {} lodging
  refine ⟨hprepared, by decide +kernel, by decide +kernel, _, List.mem_cons_self, ?_⟩
  obtain ⟨owner, howner, hmark⟩ := hmarks _ List.mem_cons_self
  refine ⟨owner, howner, hmark _ (List.mem_cons_of_mem _ List.mem_cons_self) ?_⟩
  decide +kernel

example : (preorder (prepare {} [.element ⟨"div", .ofList [("class", " ")],
    [.style { rules := [⟨"&:hover", .empty⟩, ⟨" .card.wide", .empty⟩] }]⟩]).value).map
      (fun e => (e.classes, e.rules.map Rule.selector)) = [(["card"], [".card:hover", " .card.wide"])] := by
  decide +kernel

end LocalRules

end Stencil
