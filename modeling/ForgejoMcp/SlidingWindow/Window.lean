import Mathlib.Algebra.Order.Group.Defs
import Mathlib.Algebra.Order.Sub.Basic
import Mathlib.Data.List.DropRight

/-!
# Sliding windows

A limiter that counts the events of a sliding window keeps a list of events, of which it drops old
ones from the front.  What it keeps agrees with what happened as far as events are recent enough to
count; that is enough for the bound on every window.
-/

namespace SlidingWindow

variable {τ ε : Type} [AddCommGroup τ] [LinearOrder τ] (time : ε → τ) (W now : τ)

/-- The event is recent enough to count at `now`. -/
def fresh (x : ε) : Bool := decide (now - W < time x)

/-- The event lies in the half-open window of length `W` that ends at `t`. -/
def inWindow (t : τ) (x : ε) : Bool := decide (t - W < time x ∧ time x ≤ t)

/-- No window holds more than `n` events. -/
def Bounded (n : ℕ) (charged : List ε) : Prop := ∀ t, charged.countP (inWindow time W t) ≤ n

/-- Drop the events at the front that count no longer. -/
def prune (stored : List ε) : List ε := stored.dropWhile fun x => decide (time x ≤ now - W)

/-- The stored events are those that happened, as far as they count. -/
def Agree (stored charged : List ε) : Prop :=
  stored.filter (fresh time W now) = charged.filter (fresh time W now)

variable {time W now} {n : ℕ} {stored charged : List ε} {x : ε}

theorem prune_suffix (stored : List ε) : prune time W now stored <:+ stored :=
  List.dropWhile_suffix _

theorem prune_cons_of_le (h : time x ≤ now - W) (stored : List ε) :
    prune time W now (x :: stored) = prune time W now stored := by
  rw [prune, List.dropWhile_cons, if_pos (decide_eq_true h)]
  rfl

theorem prune_eq_nil (h : ∀ x ∈ stored, time x ≤ now - W) : prune time W now stored = [] :=
  List.dropWhile_eq_nil_iff.2 fun x hx => decide_eq_true (h x hx)

theorem prune_prune (stored : List ε) :
    prune time W now (prune time W now stored) = prune time W now stored :=
  List.dropWhile_idempotent _ _

theorem filter_prune (stored : List ε) : (prune time W now stored).filter (fresh time W now) =
    stored.filter (fresh time W now) := by
  induction stored with
  | nil => rfl
  | cons x stored ih =>
    rw [prune, List.dropWhile_cons]
    split
    · rename_i hx
      have hstale : ¬fresh time W now x = true := by
        rw [fresh, decide_eq_true_iff, not_lt]
        exact of_decide_eq_true hx
      rw [List.filter_cons_of_neg hstale]
      exact ih
    · rfl

/-- A clock that does not go back started at some time. -/
theorem exists_pairwise_cons {times : List τ} (h : times.Pairwise (· ≤ ·)) :
    ∃ now, (now :: times).Pairwise (· ≤ ·) := by
  cases times with
  | nil => exact ⟨0, List.pairwise_singleton _ _⟩
  | cons t times =>
    refine ⟨t, List.pairwise_cons.2 ⟨List.forall_mem_cons.2 ⟨le_refl t, ?_⟩, h⟩⟩
    exact (List.pairwise_cons.1 h).1

namespace Bounded

theorem nil : Bounded time W n ([] : List ε) := fun _ => Nat.zero_le n

theorem sublist {charged' : List ε} (h : Bounded time W n charged) (hsub : charged'.Sublist charged) :
    Bounded time W n charged' := fun t => (hsub.countP_le).trans (h t)

end Bounded

namespace Agree

theorem prune (h : Agree time W now stored charged) :
    Agree time W now (prune time W now stored) charged :=
  (filter_prune stored).trans h

theorem append (h : Agree time W now stored charged) (xs : List ε) :
    Agree time W now (stored ++ xs) (charged ++ xs) := by
  rw [Agree, List.filter_append, List.filter_append, h]

theorem filter (h : Agree time W now stored charged) (p : ε → Bool) :
    Agree time W now (stored.filter p) (charged.filter p) := by
  rw [Agree, List.filter_comm, h, List.filter_comm]

theorem countP_le (h : Agree time W now stored charged) :
    charged.countP (fresh time W now) ≤ stored.length := by
  rw [List.countP_eq_length_filter, ← h]
  exact List.length_filter_le _ _

end Agree

variable [IsOrderedAddMonoid τ] {now' : τ}

theorem fresh_of_le (hle : now ≤ now') (h : fresh time W now' x = true) :
    fresh time W now x = true :=
  decide_eq_true (lt_of_le_of_lt (sub_le_sub_right hle W) (of_decide_eq_true h))

theorem Agree.mono (h : Agree time W now stored charged) (hle : now ≤ now') :
    Agree time W now' stored charged := by
  have hrefine : ∀ xs : List ε, (xs.filter (fresh time W now)).filter (fresh time W now') =
      xs.filter (fresh time W now') := by
    intro xs
    rw [List.filter_filter]
    refine List.filter_congr fun x _ => ?_
    cases hx : fresh time W now' x with
    | false => rfl
    | true => rw [fresh_of_le hle hx, Bool.and_self]
  rw [Agree, ← hrefine stored, h, hrefine]

/-- One more event fits if there is room among those that count. -/
theorem Bounded.append (h : Bounded time W n charged)
    (hroom : charged.countP (fresh time W (time x)) < n) : Bounded time W n (charged ++ [x]) := by
  intro t
  rw [List.countP_append, List.countP_singleton]
  split
  · rename_i hx
    have ht : time x ≤ t := (of_decide_eq_true hx).2
    have hle : charged.countP (inWindow time W t) ≤ charged.countP (fresh time W (time x)) := by
      refine List.countP_mono_left fun y _ hy => ?_
      exact decide_eq_true (lt_of_le_of_lt (sub_le_sub_right ht W) (of_decide_eq_true hy).1)
    exact Nat.lt_of_le_of_lt hle hroom
  · exact h t

end SlidingWindow
