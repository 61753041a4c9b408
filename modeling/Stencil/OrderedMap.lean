/-!
# Maps that remember their order

A finite map whose entries keep the order of first insertion: writing to a key that is present
replaces its value and keeps its place, a new key goes to the end. No key occurs twice, and the type
says so, so that a map is determined by its list of entries.

Attributes of an element, properties of a style, variables of a group and the symbols of a namespace
are all such maps.
-/

namespace Stencil

/-- A finite map with distinct keys, in order of first insertion. -/
@[ext] structure OrderedMap (α β : Type) where
  entries : List (α × β)
  distinct : (entries.map Prod.fst).Nodup

namespace OrderedMap

variable {α β γ : Type}

/-! ## Reading -/

/-- The map without entries. -/
def empty : OrderedMap α β := ⟨[], List.nodup_nil⟩

instance : Inhabited (OrderedMap α β) := ⟨empty⟩

instance : EmptyCollection (OrderedMap α β) := ⟨empty⟩

instance [DecidableEq α] [DecidableEq β] : DecidableEq (OrderedMap α β) := fun m n =>
  decidable_of_iff (m.entries = n.entries) OrderedMap.ext_iff.symm

/-- The keys, in order. -/
def keys (m : OrderedMap α β) : List α := m.entries.map Prod.fst

/-- The values, in the order of their keys. -/
def values (m : OrderedMap α β) : List β := m.entries.map Prod.snd

def size (m : OrderedMap α β) : Nat := m.entries.length

def isEmpty (m : OrderedMap α β) : Bool := m.entries.isEmpty

theorem keys_nodup (m : OrderedMap α β) : m.keys.Nodup := m.distinct

@[simp] theorem entries_empty : (empty : OrderedMap α β).entries = [] := rfl

@[simp] theorem keys_empty : (empty : OrderedMap α β).keys = [] := rfl

variable [DecidableEq α]

/-- The value of a key. -/
def get? (m : OrderedMap α β) (k : α) : Option β := m.entries.lookup k

def contains (m : OrderedMap α β) (k : α) : Bool := (m.get? k).isSome

theorem lookup_cons_eq_ite (k : α) (e : α × β) (l : List (α × β)) :
    (e :: l).lookup k = if e.1 = k then some e.2 else l.lookup k := by
  obtain ⟨k', v⟩ := e
  rw [List.lookup_cons]
  by_cases h : k' = k
  · subst h
    rw [if_pos rfl, beq_self_eq_true]
  · rw [if_neg h, beq_false_of_ne (Ne.symm h)]

theorem isSome_lookup_iff {k : α} {l : List (α × β)} :
    (l.lookup k).isSome ↔ k ∈ l.map Prod.fst := by
  rw [List.lookup_isSome_iff, List.mem_map]
  simp only [beq_iff_eq]
  exact exists_congr fun e => and_congr_right fun _ => eq_comm

theorem mem_of_lookup {k : α} {v : β} {l : List (α × β)} (h : l.lookup k = some v) : (k, v) ∈ l := by
  obtain ⟨front, back, rfl, -⟩ := List.lookup_eq_some_iff.mp h
  exact List.mem_append_right front List.mem_cons_self

theorem contains_iff_mem_keys {m : OrderedMap α β} {k : α} : m.contains k ↔ k ∈ m.keys :=
  isSome_lookup_iff

@[simp] theorem get?_empty (k : α) : (empty : OrderedMap α β).get? k = none := rfl

/-! ## Writing -/

/-- Puts `v` in the place of key `k`, or at the end when there is no such key. -/
def put (k : α) (v : β) : List (α × β) → List (α × β)
  | [] => [(k, v)]
  | (k', v') :: rest => if k' = k then (k, v) :: rest else (k', v') :: put k v rest

theorem mem_put {k : α} {v : β} {l : List (α × β)} {e : α × β} (h : e ∈ put k v l) :
    e = (k, v) ∨ e ∈ l := by
  induction l with
  | nil => exact Or.inl (List.mem_singleton.mp h)
  | cons first rest ih =>
    rw [put] at h
    split at h
    · exact (List.mem_cons.mp h).imp_right (List.mem_cons_of_mem first)
    · rcases List.mem_cons.mp h with rfl | h
      · exact Or.inr List.mem_cons_self
      · exact (ih h).imp_right (List.mem_cons_of_mem first)

theorem map_fst_put (k : α) (v : β) (l : List (α × β)) :
    (put k v l).map Prod.fst
      = if k ∈ l.map Prod.fst then l.map Prod.fst else l.map Prod.fst ++ [k] := by
  induction l with
  | nil => simp [put]
  | cons e rest ih =>
    by_cases h : e.1 = k
    · simp [put, h]
    · simp only [put, if_neg h, List.map_cons, ih, List.mem_cons, Ne.symm h, false_or]
      split <;> simp

theorem nodup_put {k : α} {v : β} {l : List (α × β)} (h : (l.map Prod.fst).Nodup) :
    ((put k v l).map Prod.fst).Nodup := by
  rw [map_fst_put]
  split
  · exact h
  · rename_i hk
    rw [List.nodup_append]
    refine ⟨h, by simp, ?_⟩
    intro a ha b hb
    rw [List.mem_singleton.mp hb]
    exact fun hab => hk (hab ▸ ha)

/-- Binds `k` to `v`. A key that is present keeps its place. -/
def insert (m : OrderedMap α β) (k : α) (v : β) : OrderedMap α β :=
  ⟨put k v m.entries, nodup_put m.distinct⟩

/-- Inserts a list of entries from left to right. -/
def insertAll (m : OrderedMap α β) (l : List (α × β)) : OrderedMap α β :=
  l.foldl (fun m e => m.insert e.1 e.2) m

/-- The map built by inserting the entries of a list from left to right. -/
def ofList (l : List (α × β)) : OrderedMap α β := empty.insertAll l

/-- Inserts every entry of `n`, so that `n` wins where both bind a key. -/
def extend (m n : OrderedMap α β) : OrderedMap α β := m.insertAll n.entries

/-- Removes a key. The others keep their order. -/
def erase (m : OrderedMap α β) (k : α) : OrderedMap α β :=
  ⟨m.entries.filter fun e => e.1 ≠ k,
    m.distinct.sublist (List.filter_sublist.map Prod.fst)⟩

/-- Removes several keys. -/
def eraseAll (m : OrderedMap α β) (ks : List α) : OrderedMap α β := ks.foldl erase m

theorem lookup_put (k k' : α) (v : β) (l : List (α × β)) :
    (put k v l).lookup k' = if k = k' then some v else l.lookup k' := by
  induction l with
  | nil => rw [put, lookup_cons_eq_ite]
  | cons e rest ih =>
    by_cases h : e.1 = k
    · subst h
      rw [put, if_pos rfl, lookup_cons_eq_ite, lookup_cons_eq_ite]
      split <;> rfl
    · rw [put, if_neg h, lookup_cons_eq_ite, lookup_cons_eq_ite, ih]
      by_cases h' : e.1 = k'
      · have hk : k ≠ k' := fun hk => h (h'.trans hk.symm)
        rw [if_pos h', if_neg hk, if_pos h']
      · rw [if_neg h', if_neg h']

@[simp] theorem get?_insert (m : OrderedMap α β) (k k' : α) (v : β) :
    (m.insert k v).get? k' = if k = k' then some v else m.get? k' :=
  lookup_put k k' v m.entries

theorem keys_insert (m : OrderedMap α β) (k : α) (v : β) :
    (m.insert k v).keys = if k ∈ m.keys then m.keys else m.keys ++ [k] :=
  map_fst_put k v m.entries

/-! ## Whole maps -/

omit [DecidableEq α] in
/-- Changes every value and keeps the keys. -/
def mapValues (f : β → γ) (m : OrderedMap α β) : OrderedMap α γ :=
  ⟨m.entries.map fun e => (e.1, f e.2), by simpa [Function.comp_def] using m.distinct⟩

omit [DecidableEq α] in
/-- Runs an action on every entry in order. The keys of the result are those of the argument. -/
def entriesM {m : Type → Type} [Monad m] (f : α → β → m γ) :
    (l : List (α × β)) → m { r : List (α × γ) // r.map Prod.fst = l.map Prod.fst }
  | [] => pure ⟨[], rfl⟩
  | (k, v) :: rest => do
    let w ← f k v
    let tail ← entriesM f rest
    pure ⟨(k, w) :: tail.1, by simp [tail.2]⟩

omit [DecidableEq α] in
/-- Runs an action on every entry in order and binds the keys to the results. -/
def mapM {m : Type → Type} [Monad m] (f : α → β → m γ) (t : OrderedMap α β) :
    m (OrderedMap α γ) := do
  let r ← entriesM f t.entries
  pure ⟨r.1, by rw [r.2]; exact t.distinct⟩

/-- Whether two maps bind the same keys to values that `same` accepts, in whatever order. -/
def agree (same : β → β → Bool) (m n : OrderedMap α β) : Bool :=
  m.size == n.size && m.entries.all fun e =>
    match n.get? e.1 with
    | some w => same e.2 w
    | none => false

end OrderedMap

end Stencil
