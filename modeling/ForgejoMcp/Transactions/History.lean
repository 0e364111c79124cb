import ForgejoMcp.Transactions.System
import Mathlib.Data.List.Infix
import Mathlib.Data.List.TakeDrop
import Mathlib.Data.List.Induction

/-!
# Histories of commits

A history is *valid* for a step relation when every commit is a step from the history before it.
The step relation is the serial model of a system: it says, for each label, from which states the
transaction may commit and which state it leaves.  Invariants of all committed states are proved by
induction on valid histories.
-/

namespace Transactions

variable {S : Sorts}

@[simp] theorem after_nil (base : S.DB) : after base ([] : List (Entry S)) = base := by
  rw [after, List.getLast?_nil]

@[simp] theorem after_concat (base : S.DB) (h : List (Entry S)) (e : Entry S) :
    after base (h ++ [e]) = e.db := by
  simp [after]

/-! ### The committed states of a run -/

section

variable {g : Shared S}

theorem stateAt_length (g : Shared S) : g.stateAt g.history.length = g.current := by
  rw [Shared.stateAt, List.take_length, Shared.current]

theorem stateAt_of_getElem?_eq_none {n : ℕ} (he : g.history[n]? = none) :
    g.stateAt (n + 1) = g.stateAt n := by
  rw [Shared.stateAt, List.take_add_one, he, Option.toList_none, List.append_nil, Shared.stateAt]

theorem stateAt_of_getElem? {n : ℕ} {e : Entry S} (he : g.history[n]? = some e) :
    g.stateAt (n + 1) = e.db := by
  rw [Shared.stateAt, List.take_add_one, he, Option.toList_some, after_concat]

end

/-! ### Valid histories -/

/-- An element of a list to which one was added. -/
theorem getElem?_concat_eq_some {α : Type} {l : List α} {a b : α} {i : ℕ} :
    (l ++ [a])[i]? = some b ↔ l[i]? = some b ∨ i = l.length ∧ a = b := by
  by_cases hi : i < l.length
  · rw [List.getElem?_append_left hi]
    exact ⟨.inl, fun h => h.resolve_right fun h => absurd h.1 (Nat.ne_of_lt hi)⟩
  · rw [List.getElem?_append_right (Nat.not_lt.1 hi), List.getElem?_eq_none (Nat.not_lt.1 hi)]
    rw [List.getElem?_singleton]
    split
    · simp [show i = l.length by omega]
    · simp [show i ≠ l.length by omega]

/-- Every commit of the history is a step from the history before it. -/
inductive Valid (Step : S.DB → List (Entry S) → Entry S → Prop) (base : S.DB) :
    List (Entry S) → Prop
  | nil : Valid Step base []
  | snoc {h : List (Entry S)} {e : Entry S} : Valid Step base h → Step base h e →
      Valid Step base (h ++ [e])

namespace Valid

variable {Step : S.DB → List (Entry S) → Entry S → Prop} {base : S.DB} {h : List (Entry S)}

theorem take (hv : Valid Step base h) (n : ℕ) : Valid Step base (h.take n) := by
  induction hv with
  | nil => rw [List.take_nil]; exact nil
  | @snoc h e hv hs ih =>
    by_cases hn : n ≤ h.length
    · rwa [List.take_append_of_le_length hn]
    · rw [List.take_of_length_le (by rw [List.length_append, List.length_singleton]; omega)]
      exact hv.snoc hs

theorem step_at (hv : Valid Step base h) {i : ℕ} {e : Entry S} (hi : h[i]? = some e) :
    Step base (h.take i) e := by
  induction hv with
  | nil => simp at hi
  | @snoc h e' hv hs ih =>
    by_cases hlt : i < h.length
    · rw [List.getElem?_append_left hlt] at hi
      rw [List.take_append_of_le_length hlt.le]
      exact ih hi
    · have hlen : i < (h ++ [e']).length := (List.getElem?_eq_some_iff.1 hi).1
      rw [List.length_append, List.length_singleton] at hlen
      have hie : i = h.length := by omega
      subst hie
      rw [List.getElem?_concat_length, Option.some.injEq] at hi
      rw [← hi, List.take_left]
      exact hs

/-- A preorder that every step respects orders the states of a valid history. -/
theorem monotone (hv : Valid Step base h) (R : S.DB → S.DB → Prop) (hrefl : ∀ a, R a a)
    (htrans : ∀ a b c, R a b → R b c → R a c)
    (hstep : ∀ h e, Valid Step base h → Step base h e → R (after base h) e.db) {i j : ℕ}
    (hij : i ≤ j) : R (after base (h.take i)) (after base (h.take j)) := by
  induction hv generalizing i j with
  | nil => simpa using hrefl base
  | @snoc h e hv hs ih =>
    by_cases hj : j ≤ h.length
    · rw [List.take_append_of_le_length hj, List.take_append_of_le_length (hij.trans hj)]
      exact ih hij
    · have hfull : ∀ n, h.length < n → (h ++ [e]).take n = h ++ [e] := fun n hn =>
        List.take_of_length_le (by rw [List.length_append, List.length_singleton]; omega)
      rw [hfull j (by omega), after_concat]
      by_cases hi : i ≤ h.length
      · rw [List.take_append_of_le_length hi]
        have hlast : R (after base (h.take i)) (after base (h.take h.length)) := ih hi
        rw [List.take_length] at hlast
        exact htrans _ _ _ hlast (hstep h e hv hs)
      · rw [hfull i (by omega), after_concat]
        exact hrefl _

theorem of_append {ext : List (Entry S)} (hv : Valid Step base (h ++ ext)) : Valid Step base h := by
  have htake := hv.take h.length
  rwa [List.take_left] at htake

/-- What every step keeps, and the steps of one kind find false and leave true, is made true by at
most one of them. -/
theorem index_eq_of_once (hv : Valid Step base h) (P : S.DB → Prop) (L : S.Label → Prop)
    (hkeep : ∀ h e, Step base h e → P (after base h) → P e.db)
    (honce : ∀ h e, Step base h e → L e.label → ¬ P (after base h) ∧ P e.db) {a b : ℕ}
    {e e' : Entry S} (ha : h[a]? = some e) (hb : h[b]? = some e') (hl : L e.label)
    (hl' : L e'.label) : a = b := by
  have not_lt : ∀ {a b : ℕ} {e e' : Entry S}, h[a]? = some e → h[b]? = some e' → L e.label →
      L e'.label → ¬ a < b := by
    intro a b e e' ha hb hl hl' hab
    -- true after the earlier commit, and so before the later one
    have hafter : P (after base (h.take (a + 1))) := by
      rw [List.take_add_one, ha, Option.toList_some, after_concat]
      exact (honce _ e (hv.step_at ha) hl).2
    refine (honce _ e' (hv.step_at hb) hl').1 ?_
    exact hv.monotone (fun a b => P a → P b) (fun _ => id) (fun _ _ _ hab hbc => hbc ∘ hab)
      (fun h e _ hs => hkeep h e hs) (Nat.succ_le_of_lt hab) hafter
  have hab := not_lt ha hb hl hl'
  have hba := not_lt hb ha hl' hl
  omega

/-- What every step of one kind preserves is preserved by a stretch of such steps. -/
theorem frame {ext : List (Entry S)} (hv : Valid Step base (h ++ ext)) (R : S.DB → S.DB → Prop)
    (hrefl : ∀ a, R a a) (htrans : ∀ a b c, R a b → R b c → R a c) (ok : Entry S → Prop)
    (hstep : ∀ h e, Valid Step base h → Step base h e → ok e → R (after base h) e.db)
    (hok : ∀ e ∈ ext, ok e) : R (after base h) (after base (h ++ ext)) := by
  induction ext using List.reverseRecOn with
  | nil => rw [List.append_nil]; exact hrefl _
  | append_singleton ext e ih =>
    rw [← List.append_assoc] at hv ⊢
    have hlast : Step base (h ++ ext) e := by
      have hat := hv.step_at (i := (h ++ ext).length) (e := e) List.getElem?_concat_length
      rwa [List.take_left] at hat
    rw [after_concat]
    exact htrans _ _ _ (ih hv.of_append fun e' he' => hok e' (List.mem_append_left _ he'))
      (hstep _ e hv.of_append hlast (hok e (List.mem_append_right _ (List.mem_singleton_self e))))

end Valid

end Transactions
