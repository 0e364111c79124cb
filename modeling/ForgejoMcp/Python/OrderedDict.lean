import Mathlib

/-!
# Dictionaries

`dict` with its order of insertion: assigning to a key that is present keeps its place.
-/

namespace Python

/-! ### Lists of items -/

section Lookup

variable {κ ν : Type} [BEq κ] [LawfulBEq κ] {items : List (κ × ν)} {k : κ} {v : ν}

/-- With each key once, a key is looked up just if it is listed. -/
theorem lookup_eq_some_iff_mem (hnodup : (items.map Prod.fst).Nodup) :
    items.lookup k = some v ↔ (k, v) ∈ items := by
  rw [List.lookup_eq_some_iff]
  constructor
  · rintro ⟨l, r, rfl, -⟩
    exact List.mem_append_right l List.mem_cons_self
  · intro hmem
    obtain ⟨l, r, rfl⟩ := List.append_of_mem hmem
    refine ⟨l, r, rfl, fun e he => ?_⟩
    rw [List.map_append, List.map_cons] at hnodup
    have hne := (List.nodup_append.1 hnodup).2.2 e.1 (List.mem_map_of_mem he) k List.mem_cons_self
    simpa using Ne.symm hne

theorem lookup_eq_none_iff_not_mem : items.lookup k = none ↔ k ∉ items.map Prod.fst := by
  rw [List.lookup_eq_none_iff, List.mem_map]
  simp only [bne_iff_ne, ne_eq, not_exists, not_and]
  exact ⟨fun h e he heq => h e he heq.symm, fun h e he heq => h e he heq.symm⟩

end Lookup

/-- A dictionary, as the list of its items. -/
structure OrderedDict (κ ν : Type) where
  items : List (κ × ν)
  nodup : (items.map Prod.fst).Nodup

namespace OrderedDict

variable {κ ν : Type}

/-- The dictionary without entries. -/
def empty : OrderedDict κ ν := ⟨[], List.nodup_nil⟩

/-- `d.items()` with some values replaced and some items left out. -/
def filterMap (d : OrderedDict κ ν) (f : ν → Option ν) : OrderedDict κ ν where
  items := d.items.filterMap fun e => (f e.2).map (e.1, ·)
  nodup := by
    refine d.nodup.sublist ?_
    generalize d.items = items
    induction items with
    | nil => exact List.Sublist.slnil
    | cons e items ih =>
      rw [List.filterMap_cons]
      cases f e.2 with
      | none => exact ih.cons _
      | some v => exact ih.cons_cons _

/-- `len(d)`. -/
def length (d : OrderedDict κ ν) : ℕ := d.items.length

theorem length_filterMap_le {d : OrderedDict κ ν} {f : ν → Option ν} :
    (d.filterMap f).length ≤ d.length :=
  List.length_filterMap_le _ _

variable [DecidableEq κ] (d : OrderedDict κ ν)

/-- `d.get(k)`. -/
def get? (k : κ) : Option ν := d.items.lookup k

/-- `d.pop(k, None)`. -/
def pop (k : κ) : OrderedDict κ ν where
  items := d.items.filter fun e => decide (e.1 ≠ k)
  nodup := d.nodup.sublist (List.filter_sublist.map _)

/-- `d[k] = v`. -/
def set (k : κ) (v : ν) : OrderedDict κ ν where
  items := if k ∈ d.items.map Prod.fst then d.items.map fun e => if e.1 = k then (k, v) else e
    else d.items ++ [(k, v)]
  nodup := by
    split
    · have hkeys : (d.items.map fun e => if e.1 = k then (k, v) else e).map Prod.fst =
          d.items.map Prod.fst := by
        rw [List.map_map]
        refine List.map_congr_left fun e _ => ?_
        rw [Function.comp_apply]
        split
        · rename_i he
          exact he.symm
        · rfl
      rw [hkeys]
      exact d.nodup
    · rename_i hk
      rw [List.map_append, List.map_singleton]
      exact List.nodup_append'.2 ⟨d.nodup, List.nodup_singleton k, by simpa using hk⟩

variable {d} {k k' : κ} {v : ν} {f : ν → Option ν}

@[simp] theorem get?_empty (k : κ) : (empty : OrderedDict κ ν).get? k = none := rfl

theorem get?_eq_some_iff : d.get? k = some v ↔ (k, v) ∈ d.items := lookup_eq_some_iff_mem d.nodup

theorem get?_eq_none_iff : d.get? k = none ↔ k ∉ d.items.map Prod.fst := lookup_eq_none_iff_not_mem

theorem get?_pop : (d.pop k).get? k' = if k' = k then none else d.get? k' := by
  refine Option.ext fun v => ?_
  rw [get?_eq_some_iff, pop, List.mem_filter, decide_eq_true_iff]
  split
  · rename_i heq
    exact ⟨fun h => absurd heq h.2, fun h => (nomatch h)⟩
  · rename_i hne
    rw [get?_eq_some_iff]
    exact and_iff_left hne

theorem get?_set : (d.set k v).get? k' = if k' = k then some v else d.get? k' := by
  refine Option.ext fun w => ?_
  rw [get?_eq_some_iff, set]
  dsimp only
  split
  · rename_i hk
    rw [List.mem_map]
    constructor
    · rintro ⟨e, he, heq⟩
      split at heq
      · cases heq
        rw [if_pos rfl]
      · rename_i hne
        rw [heq] at he hne
        rw [if_neg hne, get?_eq_some_iff]
        exact he
    · intro hw
      split at hw
      · rename_i heq
        obtain ⟨e, he, hek⟩ := List.mem_map.1 hk
        exact ⟨e, he, by rw [if_pos hek, heq, Option.some.inj hw]⟩
      · rename_i hne
        exact ⟨(k', w), get?_eq_some_iff.1 hw, if_neg hne⟩
  · rename_i hk
    rw [List.mem_append, List.mem_singleton]
    constructor
    · rintro (he | he)
      · have hne : k' ≠ k := fun heq => hk (heq ▸ List.mem_map_of_mem he)
        rw [if_neg hne, get?_eq_some_iff]
        exact he
      · cases he
        rw [if_pos rfl]
    · intro hw
      split at hw
      · rename_i heq
        exact .inr (by rw [heq, Option.some.inj hw])
      · exact .inl (get?_eq_some_iff.1 hw)

theorem get?_filterMap : (d.filterMap f).get? k = (d.get? k).bind f := by
  refine Option.ext fun w => ?_
  rw [get?_eq_some_iff, filterMap, List.mem_filterMap, Option.bind_eq_some_iff]
  constructor
  · rintro ⟨⟨j, v⟩, he, heq⟩
    obtain ⟨w', hw', heq⟩ := Option.map_eq_some_iff.1 heq
    cases heq
    exact ⟨v, get?_eq_some_iff.2 he, hw'⟩
  · rintro ⟨v, hv, hw⟩
    exact ⟨(k, v), get?_eq_some_iff.1 hv, Option.map_eq_some_iff.2 ⟨w, hw, rfl⟩⟩

theorem length_pop_le : (d.pop k).length ≤ d.length := List.length_filter_le _ _

theorem length_set_of_some (h : d.get? k ≠ none) : (d.set k v).length = d.length := by
  have hk : k ∈ d.items.map Prod.fst := by
    by_contra hk
    exact h (get?_eq_none_iff.2 hk)
  rw [length, set]
  dsimp only
  rw [if_pos hk, List.length_map]
  rfl

theorem length_set_of_none (h : d.get? k = none) : (d.set k v).length = d.length + 1 := by
  rw [length, set]
  dsimp only
  rw [if_neg (get?_eq_none_iff.1 h), List.length_append]
  rfl

end OrderedDict

end Python
