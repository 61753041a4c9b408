import Mathlib.Data.List.Nodup
import Stencil.OrderedMap

/-!
# Maps that remember their order: laws

What a map binds after several insertions, and what its values keep.

* `get?_eq_some_iff` — reading a key is finding its entry
* `get?_extend`, `get?_foldl_extend` — of several maps the last one wins
* `keys_foldl_extend` — their keys come in order of first appearance
* `get?_eraseAll`, `keys_eraseAll` — what is left when keys are removed
* `mapM_eq_pure` — an action that gives back every value gives back the map
* `All` — a property of every value, which insertion, extension and removal keep
-/

namespace Stencil.OrderedMap

variable {α β γ : Type}

/-! ## Entries -/

@[simp] theorem entries_mapValues (f : β → γ) (m : OrderedMap α β) :
    (m.mapValues f).entries = m.entries.map fun e => (e.1, f e.2) := rfl

variable [DecidableEq α]

theorem lookup_eq_none {k : α} {l : List (α × β)} (h : k ∉ l.map Prod.fst) : l.lookup k = none := by
  rw [← Option.not_isSome_iff_eq_none, isSome_lookup_iff]
  exact h

/-- Where no key comes twice, an entry is found by its key. -/
theorem lookup_of_mem {k : α} {v : β} {l : List (α × β)} (hl : (l.map Prod.fst).Nodup)
    (h : (k, v) ∈ l) : l.lookup k = some v := by
  induction l with
  | nil => cases h
  | cons e rest ih =>
    rw [List.map_cons, List.nodup_cons] at hl
    rw [lookup_cons_eq_ite]
    rcases List.mem_cons.mp h with rfl | h
    · rw [if_pos rfl]
    · rw [if_neg, ih hl.2 h]
      intro he
      exact hl.1 (he ▸ List.mem_map_of_mem (f := Prod.fst) h)

/-- A map binds a key to a value exactly when it has the entry. -/
theorem get?_eq_some_iff {m : OrderedMap α β} {k : α} {v : β} :
    m.get? k = some v ↔ (k, v) ∈ m.entries :=
  ⟨mem_of_lookup, lookup_of_mem m.distinct⟩

/-! ## Several insertions -/

/-- Of distinct keys, each one inserted is bound, and the others are left as they were. -/
theorem get?_insertAll {m : OrderedMap α β} {l : List (α × β)} (hl : (l.map Prod.fst).Nodup)
    (k : α) : (m.insertAll l).get? k = (l.lookup k).or (m.get? k) := by
  induction l generalizing m with
  | nil => rfl
  | cons e rest ih =>
    rw [List.map_cons, List.nodup_cons] at hl
    show ((m.insert e.1 e.2).insertAll rest).get? k = _
    rw [ih hl.2, get?_insert, lookup_cons_eq_ite]
    split
    · rename_i hk
      rw [lookup_eq_none (hk ▸ hl.1)]
      rfl
    · rfl

/-- What the second map binds wins. -/
theorem get?_extend (m n : OrderedMap α β) (k : α) :
    (m.extend n).get? k = (n.get? k).or (m.get? k) := get?_insertAll n.distinct k

/-- What the last of several maps that bind a key binds it to. -/
def lastBound (maps : List (OrderedMap α β)) (k : α) : Option β :=
  (maps.filterMap (·.get? k)).getLast?

theorem lastBound_cons (m : OrderedMap α β) (maps : List (OrderedMap α β)) (k : α) :
    lastBound (m :: maps) k = (lastBound maps k).or (m.get? k) := by
  unfold lastBound
  rw [List.filterMap_cons]
  cases m.get? k with
  | none => rw [Option.or_none]
  | some v =>
    rw [List.getLast?_cons]
    cases (maps.filterMap (·.get? k)).getLast? <;> rfl

/-- Of maps that are put into one another, the last one wins. -/
theorem get?_foldl_extend (m : OrderedMap α β) (maps : List (OrderedMap α β)) (k : α) :
    (maps.foldl extend m).get? k = (lastBound maps k).or (m.get? k) := by
  induction maps generalizing m with
  | nil => rfl
  | cons n rest ih => rw [List.foldl_cons, ih, get?_extend, lastBound_cons, Option.or_assoc]

/-- A map made from entries with distinct keys binds what they say. -/
theorem get?_ofList {l : List (α × β)} (hl : (l.map Prod.fst).Nodup) (k : α) :
    (ofList l).get? k = l.lookup k := by
  rw [ofList, get?_insertAll hl, get?_empty, Option.or_none]

theorem put_eq_append {k : α} {l : List (α × β)} (h : k ∉ l.map Prod.fst) (v : β) :
    put k v l = l ++ [(k, v)] := by
  induction l with
  | nil => rfl
  | cons e rest ih =>
    rw [List.map_cons, List.mem_cons, not_or] at h
    rw [put, if_neg (Ne.symm h.1), ih h.2]
    rfl

/-- A map made from entries with distinct keys has these entries. -/
theorem entries_ofList {l : List (α × β)} (hl : (l.map Prod.fst).Nodup) : (ofList l).entries = l := by
  -- For any map at the start that has none of the keys.
  suffices ∀ m : OrderedMap α β, ((m.entries ++ l).map Prod.fst).Nodup →
      (m.insertAll l).entries = m.entries ++ l from this empty hl
  clear hl
  induction l with
  | nil => intro m _; simp [insertAll]
  | cons e rest ih =>
    intro m hm
    have hk : e.1 ∉ m.entries.map Prod.fst := by
      intro hk
      rw [List.map_append, List.nodup_append] at hm
      exact hm.2.2 _ hk _ List.mem_cons_self rfl
    have hput : (m.insert e.1 e.2).entries = m.entries ++ [e] := put_eq_append hk e.2
    show ((m.insert e.1 e.2).insertAll rest).entries = _
    rw [ih _ (by rw [hput]; simpa using hm), hput, List.append_assoc]
    rfl

/-- Putting a map into the one without entries gives the map, in its order. -/
theorem empty_extend (m : OrderedMap α β) : empty.extend m = m :=
  OrderedMap.ext (entries_ofList m.distinct)

omit [DecidableEq α] in
/-- An action that gives back every value gives back the map. -/
theorem mapM_eq_pure {m : Type → Type} [Monad m] [LawfulMonad m] {f : α → β → m β}
    {t : OrderedMap α β} (h : ∀ e ∈ t.entries, f e.1 e.2 = pure e.2) : t.mapM f = pure t := by
  suffices ∀ l : List (α × β), (∀ e ∈ l, f e.1 e.2 = pure e.2) → entriesM f l = pure ⟨l, rfl⟩ by
    rw [mapM, this t.entries h, pure_bind]
  intro l hl
  induction l with
  | nil => rfl
  | cons e rest ih =>
    rw [List.forall_mem_cons] at hl
    rw [entriesM, hl.1, pure_bind, ih hl.2, pure_bind]

/-! ## Order of keys -/

theorem eraseDups_of_nodup {l : List α} (h : l.Nodup) : l.eraseDups = l := by
  induction l with
  | nil => rfl
  | cons k rest ih =>
    rw [List.nodup_cons] at h
    have hrest : rest.filter (fun k' => !k' == k) = rest := by
      refine List.filter_eq_self.mpr fun k' hk' => ?_
      have hne : k' ≠ k := fun he => h.1 (he ▸ hk')
      simp [hne]
    rw [List.eraseDups_cons, hrest, ih h.2]

/-- Keys that are inserted come in order of first appearance, behind those that are there. -/
theorem keys_insertAll (m : OrderedMap α β) (l : List (α × β)) :
    (m.insertAll l).keys = (m.keys ++ l.map Prod.fst).eraseDups := by
  induction l generalizing m with
  | nil =>
    rw [List.map_nil, List.append_nil, eraseDups_of_nodup m.keys_nodup]
    rfl
  | cons e rest ih =>
    show ((m.insert e.1 e.2).insertAll rest).keys = _
    rw [ih, keys_insert]
    by_cases hk : e.1 ∈ m.keys
    · rw [if_pos hk, List.map_cons, List.eraseDups_append, List.eraseDups_append]
      simp [List.removeAll, hk]
    · rw [if_neg hk, List.append_assoc]
      rfl

theorem foldl_extend_eq_insertAll (m : OrderedMap α β) (maps : List (OrderedMap α β)) :
    maps.foldl extend m = m.insertAll (maps.flatMap entries) := by
  induction maps generalizing m with
  | nil => rfl
  | cons n rest ih =>
    rw [List.foldl_cons, ih, List.flatMap_cons, insertAll, insertAll, List.foldl_append]
    rfl

/-- Keys of maps that are put into one another come in order of first appearance. -/
theorem keys_foldl_extend (maps : List (OrderedMap α β)) :
    (maps.foldl extend empty).keys = (maps.flatMap keys).eraseDups := by
  rw [foldl_extend_eq_insertAll, keys_insertAll, List.map_flatMap]
  rfl

/-! ## Removal -/

theorem lookup_filter_ne (k k' : α) (l : List (α × β)) :
    (l.filter fun e => e.1 ≠ k).lookup k' = if k = k' then none else l.lookup k' := by
  induction l with
  | nil => simp
  | cons e rest ih =>
    by_cases hk : e.1 = k
    · rw [List.filter_cons_of_neg (by simp [hk]), ih, lookup_cons_eq_ite, hk]
      split <;> rfl
    · rw [List.filter_cons_of_pos (by simp [hk]), lookup_cons_eq_ite, ih, lookup_cons_eq_ite]
      by_cases hk' : e.1 = k'
      · rw [if_pos hk', if_pos hk', if_neg fun h => hk (hk'.trans h.symm)]
      · rw [if_neg hk', if_neg hk']

theorem get?_erase (m : OrderedMap α β) (k k' : α) :
    (m.erase k).get? k' = if k = k' then none else m.get? k' := lookup_filter_ne k k' m.entries

/-- Removed keys are not bound, and the others are left as they were. -/
theorem get?_eraseAll (m : OrderedMap α β) (ks : List α) (k : α) :
    (m.eraseAll ks).get? k = if k ∈ ks then none else m.get? k := by
  induction ks generalizing m with
  | nil => simp [eraseAll]
  | cons k' rest ih =>
    show ((m.erase k').eraseAll rest).get? k = _
    rw [ih, get?_erase]
    by_cases hrest : k ∈ rest
    · simp [hrest]
    · by_cases hk : k' = k
      · simp [hk]
      · simp [hrest, hk, Ne.symm hk]

theorem keys_eraseAll (m : OrderedMap α β) (ks : List α) :
    (m.eraseAll ks).keys = m.keys.filter (· ∉ ks) := by
  induction ks generalizing m with
  | nil => simp [eraseAll]
  | cons k rest ih =>
    show ((m.erase k).eraseAll rest).keys = _
    have herase : (m.erase k).keys = m.keys.filter (· ≠ k) := by
      simp [keys, erase, List.filter_map, Function.comp_def]
    rw [ih, herase, List.filter_filter]
    simp [Bool.and_comm]

/-! ## A property of every value -/

omit [DecidableEq α] in
/-- Every value of a map has a property. -/
def All (P : β → Prop) (m : OrderedMap α β) : Prop := ∀ e ∈ m.entries, P e.2

namespace All

variable {P : β → Prop} {m n : OrderedMap α β}

omit [DecidableEq α] in
theorem empty : All P (.empty : OrderedMap α β) := fun _ he => nomatch he

theorem mem_put {k : α} {v : β} {l : List (α × β)} {e : α × β} (h : e ∈ put k v l) :
    e = (k, v) ∨ e ∈ l := by
  induction l with
  | nil => exact Or.inl (List.mem_singleton.mp h)
  | cons e' rest ih =>
    rw [put] at h
    split at h
    · rcases List.mem_cons.mp h with h | h
      · exact Or.inl h
      · exact Or.inr (List.mem_cons_of_mem _ h)
    · rcases List.mem_cons.mp h with h | h
      · exact Or.inr (h ▸ List.mem_cons_self)
      · exact (ih h).imp_right (List.mem_cons_of_mem _)

theorem insert (hm : All P m) (k : α) {v : β} (hv : P v) : All P (m.insert k v) := by
  intro e he
  rcases mem_put he with rfl | he
  · exact hv
  · exact hm e he

theorem insertAll (hm : All P m) {l : List (α × β)} (hl : ∀ e ∈ l, P e.2) :
    All P (m.insertAll l) := by
  induction l generalizing m with
  | nil => exact hm
  | cons e rest ih =>
    exact ih (hm.insert e.1 (hl e List.mem_cons_self)) fun e he => hl e (List.mem_cons_of_mem _ he)

theorem extend (hm : All P m) (hn : All P n) : All P (m.extend n) := hm.insertAll hn

theorem erase (hm : All P m) (k : α) : All P (m.erase k) :=
  fun e he => hm e (List.mem_of_mem_filter he)

theorem eraseAll (hm : All P m) (ks : List α) : All P (m.eraseAll ks) := by
  induction ks generalizing m with
  | nil => exact hm
  | cons k rest ih => exact ih (hm.erase k)

end All

end Stencil.OrderedMap
