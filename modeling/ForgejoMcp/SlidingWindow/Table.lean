import ForgejoMcp.Python.OrderedDict
import ForgejoMcp.SlidingWindow.Window

/-!
# Tables of events

A list of events for each key.  A key without events that count need not be kept.
-/

namespace SlidingWindow

variable {τ ε : Type} [AddCommGroup τ] [LinearOrder τ] {time : ε → τ} {W now : τ}

/-- The events of each key. -/
abbrev Table (κ ε : Type) := Python.OrderedDict κ (List ε)

namespace Table

variable {κ : Type} [DecidableEq κ]

/-- The events of a key; a key without events is not kept. -/
def stored (d : Table κ ε) (k : κ) : List ε := (d.get? k).getD []

/-- What is kept of a list of events. -/
def entry (events : List ε) : Option (List ε) := if events.isEmpty then none else some events

/-- Replace the events of a key. -/
def put (d : Table κ ε) (k : κ) (events : List ε) : Table κ ε :=
  if events.isEmpty then d.pop k else d.set k events

/-- Prune the events of a key. -/
def pruneKey (time : ε → τ) (W now : τ) (k : κ) (d : Table κ ε) : Table κ ε :=
  match d.get? k with
  | none => d
  | some events => d.put k (prune time W now events)

/-- Prune the events of every key. -/
def sweep (time : ε → τ) (W now : τ) (d : Table κ ε) : Table κ ε :=
  d.filterMap fun events => entry (prune time W now events)

variable {d d' d'' : Table κ ε} {k k' : κ} {events : List ε}

theorem stored_of_get? (h : d.get? k = some events) : d.stored k = events := by
  rw [stored, h, Option.getD_some]

theorem stored_of_none (h : d.get? k = none) : d.stored k = [] := by
  rw [stored, h, Option.getD_none]

theorem stored_set : Table.stored (d.set k events) k' = if k' = k then events else d.stored k' := by
  rw [stored, Python.OrderedDict.get?_set]
  split
  · rfl
  · rfl

@[simp] theorem getD_entry (events : List ε) : (entry events).getD [] = events := by
  rw [entry]
  split
  · rename_i hempty
    rw [List.isEmpty_iff.1 hempty, Option.getD_none]
  · rw [Option.getD_some]

theorem get?_put : (d.put k events).get? k' = if k' = k then entry events else d.get? k' := by
  rw [put, entry]
  split
  · rw [Python.OrderedDict.get?_pop]
  · rw [Python.OrderedDict.get?_set]

theorem stored_put : (d.put k events).stored k' = if k' = k then events else d.stored k' := by
  rw [stored, get?_put]
  split
  · exact getD_entry events
  · rfl

theorem get?_pruneKey : (d.pruneKey time W now k).get? k' =
    if k' = k then entry (prune time W now (d.stored k')) else d.get? k' := by
  rw [pruneKey]
  split
  · rename_i hnone
    split
    · rename_i hk
      rw [hk, stored_of_none hnone]
      exact hnone
    · rfl
  · rename_i events hsome
    rw [get?_put]
    split
    · rename_i hk
      rw [hk, stored_of_get? hsome]
    · rfl

theorem get?_sweep : (d.sweep time W now).get? k = entry (prune time W now (d.stored k)) := by
  rw [sweep, Python.OrderedDict.get?_filterMap, stored]
  cases d.get? k with
  | none => rfl
  | some events => rw [Option.bind_some, Option.getD_some]

/-- Nothing is left if no event counts. -/
theorem length_sweep_eq_zero (h : ∀ k, prune time W now (d.stored k) = []) :
    (d.sweep time W now).length = 0 := by
  by_contra hne
  obtain ⟨⟨k, events⟩, hmem⟩ := List.exists_mem_of_length_pos (Nat.pos_of_ne_zero hne)
  have hget : (d.sweep time W now).get? k = some events :=
    Python.OrderedDict.get?_eq_some_iff.2 hmem
  rw [get?_sweep, h k] at hget
  cases hget

theorem length_put_le (h : d.get? k ≠ none) : (d.put k events).length ≤ d.length := by
  rw [put]
  split
  · exact Python.OrderedDict.length_pop_le
  · exact Nat.le_of_eq (Python.OrderedDict.length_set_of_some h)

theorem get?_sweep_of_none (h : d.get? k = none) : (d.sweep time W now).get? k = none := by
  rw [get?_sweep, stored_of_none h]
  rfl

/-- All that is dropped counts no longer. -/
structure Pruned (time : ε → τ) (W now : τ) (d d' : Table κ ε) : Prop where
  get? : ∀ k, d'.get? k = d.get? k ∨ d'.get? k = entry (prune time W now (d.stored k))
  length_le : d'.length ≤ d.length

namespace Pruned

theorem refl (d : Table κ ε) : Pruned time W now d d := ⟨fun _ => .inl rfl, Nat.le_refl _⟩

theorem stored (h : Pruned time W now d d') (k : κ) :
    d'.stored k = d.stored k ∨ d'.stored k = prune time W now (d.stored k) := by
  rcases h.get? k with heq | heq
  · exact .inl (congrArg (Option.getD · []) heq)
  · refine .inr ?_
    rw [Table.stored, heq, getD_entry]

/-- What counts is the same. -/
theorem prune_stored (h : Pruned time W now d d') (k : κ) :
    prune time W now (d'.stored k) = prune time W now (d.stored k) := by
  rcases h.stored k with heq | heq
  · rw [heq]
  · rw [heq, prune_prune]

theorem trans (h : Pruned time W now d d') (h' : Pruned time W now d' d'') :
    Pruned time W now d d'' where
  get? := fun k => by
    rcases h'.get? k with heq | heq
    · rw [heq]
      exact h.get? k
    · exact .inr (heq.trans (congrArg entry (h.prune_stored k)))
  length_le := h'.length_le.trans h.length_le

theorem pruneKey (d : Table κ ε) (k : κ) : Pruned time W now d (d.pruneKey time W now k) where
  get? := fun k' => by
    rw [get?_pruneKey]
    split
    · exact .inr rfl
    · exact .inl rfl
  length_le := by
    rw [Table.pruneKey]
    split
    · exact Nat.le_refl _
    · rename_i events hsome
      exact length_put_le (by rw [hsome]; exact Option.some_ne_none _)

theorem sweep (d : Table κ ε) : Pruned time W now d (d.sweep time W now) where
  get? := fun _ => .inr get?_sweep
  length_le := Python.OrderedDict.length_filterMap_le

theorem suffix (h : Pruned time W now d d') (k : κ) : d'.stored k <:+ d.stored k := by
  rcases h.stored k with heq | heq
  · exact heq ▸ List.suffix_rfl
  · rw [heq]
    exact prune_suffix _

theorem agree (h : Pruned time W now d d') (k : κ) :
    Agree time W now (d'.stored k) (d.stored k) := by
  rcases h.stored k with heq | heq
  · rw [heq]
    rfl
  · rw [heq]
    exact filter_prune _

end Pruned

end Table

end SlidingWindow
