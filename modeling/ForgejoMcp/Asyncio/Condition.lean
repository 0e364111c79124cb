import Mathlib.Data.List.Basic

/-! # Condition variables of a cooperative event loop

The lock and the condition variable of Python's `asyncio`, with the futures that their waiters are
suspended on.  A coroutine runs without interruption from one suspension to the next, so each
function below is one such piece; a coroutine that has to wait is left with the number of a
future. -/

namespace ForgejoMcp.Asyncio

/-- The state of a future. -/
inductive Future
  | pending
  | finished
  | cancelled
  deriving DecidableEq, Repr

/-- What a suspended coroutine is resumed with. -/
inductive Signal
  | value
  | cancelled
  deriving DecidableEq, Repr

/-- A condition variable with its lock.  Futures are numbered in the order of creation. -/
structure Condition where
  futures : List Future
  locked : Bool
  /-- The futures of the coroutines that wait for the lock. -/
  acquiring : List ℕ
  /-- The futures of the coroutines that wait for a notification. -/
  waiting : List ℕ
  deriving DecidableEq, Repr

namespace Condition

/-- An unlocked condition variable that nobody waits for. -/
def new : Condition :=
  ⟨[], false, [], []⟩

/-- The state of a future; one that was never made counts as cancelled. -/
def future (c : Condition) (n : ℕ) : Future :=
  c.futures.getD n .cancelled

/-- A future that is done keeps its state. -/
def complete (c : Condition) (n : ℕ) (state : Future) : Condition :=
  if c.future n = .pending then { c with futures := c.futures.set n state } else c

/-- The first waiter for the lock is woken, unless it has been. -/
def wakeUpFirst (c : Condition) : Condition :=
  match c.acquiring with
  | [] => c
  | n :: _ => c.complete n .finished

/-- The lock is taken. -/
def taken (c : Condition) : Condition :=
  { c with locked := true }

/-- Takes the lock, or leaves the future to wait for: a free lock is not taken before those who wait
for it already, unless all of them were cancelled. -/
def acquire (c : Condition) : Condition × Option ℕ :=
  if !c.locked && c.acquiring.all fun n => c.future n = .cancelled then
    (c.taken, none)
  else
    ({ c with futures := c.futures ++ [.pending], acquiring := c.acquiring ++ [c.futures.length] },
      some c.futures.length)

/-- The rest of `acquire` after the wait for future `n`. -/
def acquired (c : Condition) (n : ℕ) : Condition :=
  { c with acquiring := c.acquiring.erase n }.taken

/-- The rest of `acquire` when the wait for future `n` is cancelled. -/
def acquireCancelled (c : Condition) (n : ℕ) : Condition :=
  if c.locked then { c with acquiring := c.acquiring.erase n }
  else { c with acquiring := c.acquiring.erase n }.wakeUpFirst

/-- `Lock.release`. -/
def release (c : Condition) : Condition :=
  { c with locked := false }.wakeUpFirst

/-- Wakes up to `n` of the given waiters. -/
def notifyAmong : ℕ → List ℕ → Condition → Condition
  | 0, _, c => c
  | _, [], c => c
  | n + 1, w :: ws, c =>
    if c.future w = .pending then notifyAmong n ws (c.complete w .finished)
    else notifyAmong (n + 1) ws c

/-- `Condition.notify(n)`. -/
def notify (c : Condition) (n : ℕ) : Condition :=
  notifyAmong n c.waiting c

/-- `Condition.notify_all`. -/
def notifyAll (c : Condition) : Condition :=
  c.notify c.waiting.length

/-- The lock is released for the time of the wait. -/
def wait (c : Condition) : Condition × ℕ :=
  let c := c.release
  ({ c with futures := c.futures ++ [.pending], waiting := c.waiting ++ [c.futures.length] },
    c.futures.length)

/-- The wait for future `n` is over; the lock has still to be taken again. -/
def woken (c : Condition) (n : ℕ) : Condition :=
  { c with waiting := c.waiting.erase n }

/-- Nobody holds the lock and nobody waits for it. -/
structure Free (c : Condition) : Prop where
  unlocked : c.locked = false
  acquiring : c.acquiring = []

/-- Who holds the lock holds it alone, with nobody in line. -/
structure Held (c : Condition) : Prop where
  locked : c.locked = true
  acquiring : c.acquiring = []

/-- No waiter is left without a notification. -/
def Quiet (c : Condition) : Prop :=
  ∀ n ∈ c.waiting, c.future n ≠ .pending

theorem new_free : new.Free :=
  ⟨rfl, rfl⟩

@[simp]
theorem complete_locked (c : Condition) (n : ℕ) (state : Future) :
    (c.complete n state).locked = c.locked := by
  unfold complete
  split <;> rfl

@[simp]
theorem complete_acquiring (c : Condition) (n : ℕ) (state : Future) :
    (c.complete n state).acquiring = c.acquiring := by
  unfold complete
  split <;> rfl

@[simp]
theorem complete_waiting (c : Condition) (n : ℕ) (state : Future) :
    (c.complete n state).waiting = c.waiting := by
  unfold complete
  split <;> rfl

theorem future_complete (c : Condition) (n m : ℕ) (state : Future) :
    (c.complete n state).future m = if n = m ∧ c.future n = .pending then state else c.future m := by
  unfold complete
  by_cases h : c.future n = .pending
  · rw [if_pos h]
    have hlt : n < c.futures.length := by
      by_contra hge
      simp [future, List.getD, List.getElem?_eq_none (Nat.le_of_not_lt hge)] at h
    by_cases hnm : n = m
    · subst hnm
      rw [if_pos ⟨rfl, h⟩]
      simp [future, List.getD, hlt]
    · rw [if_neg fun hc => hnm hc.1]
      simp [future, List.getD, List.getElem?_set_ne hnm]
  · rw [if_neg h, if_neg fun hc => h hc.2]

theorem Free.complete {c : Condition} (h : c.Free) (n : ℕ) (state : Future) :
    (c.complete n state).Free :=
  ⟨by simp [h.unlocked], by simp [h.acquiring]⟩

/-- A free lock is taken without a suspension. -/
theorem Free.acquire {c : Condition} (h : c.Free) :
    c.acquire = (c.taken, none) := by
  unfold Condition.acquire
  rw [h.unlocked, h.acquiring]
  rfl

theorem Free.held {c : Condition} (h : c.Free) : c.taken.Held :=
  ⟨rfl, h.acquiring⟩

theorem Held.release {c : Condition} (h : c.Held) : c.release = { c with locked := false } := by
  unfold Condition.release wakeUpFirst
  split
  · rfl
  · next n ns hns => exact absurd (hns.symm.trans h.acquiring) (List.cons_ne_nil n ns)

theorem Held.released {c : Condition} (h : c.Held) : c.release.Free := by
  rw [h.release]
  exact ⟨rfl, h.acquiring⟩

theorem Held.waited {c : Condition} (h : c.Held) : c.wait.1.Free :=
  ⟨h.released.unlocked, h.released.acquiring⟩

theorem Free.woken {c : Condition} (h : c.Free) (n : ℕ) : (c.woken n).Free :=
  ⟨h.unlocked, h.acquiring⟩

/-- A notification changes nothing but futures, and no future that is done. -/
theorem notifyAmong_spec (n : ℕ) (ws : List ℕ) (c : Condition) :
    (notifyAmong n ws c).locked = c.locked ∧ (notifyAmong n ws c).acquiring = c.acquiring ∧
      (notifyAmong n ws c).waiting = c.waiting ∧
      ∀ m, c.future m ≠ .pending → (notifyAmong n ws c).future m ≠ .pending := by
  induction ws generalizing n c with
  | nil => cases n <;> exact ⟨rfl, rfl, rfl, fun _ h => h⟩
  | cons w ws ih =>
    cases n with
    | zero => exact ⟨rfl, rfl, rfl, fun _ h => h⟩
    | succ n =>
      unfold notifyAmong
      split
      · obtain ⟨hl, ha, hw, hf⟩ := ih n (c.complete w .finished)
        refine ⟨by simpa using hl, by simpa using ha, by simpa using hw, fun m hm => hf m ?_⟩
        rw [future_complete]
        split
        · exact Future.noConfusion
        · exact hm
      · exact ih (n + 1) c

theorem Held.notify {c : Condition} (h : c.Held) (n : ℕ) : (c.notify n).Held := by
  obtain ⟨hl, ha, -, -⟩ := notifyAmong_spec n c.waiting c
  exact ⟨hl.trans h.locked, ha.trans h.acquiring⟩

/-- Enough notifications reach every waiter. -/
theorem notifyAmong_done {n : ℕ} {ws : List ℕ} (hn : ws.length ≤ n) (c : Condition) :
    ∀ w ∈ ws, (notifyAmong n ws c).future w ≠ .pending := by
  induction ws generalizing n c with
  | nil => exact fun w hw => absurd hw List.not_mem_nil
  | cons w ws ih =>
    obtain ⟨n, rfl⟩ := Nat.exists_eq_succ_of_ne_zero
      (Nat.ne_of_gt (Nat.lt_of_lt_of_le (Nat.succ_pos ws.length) hn))
    have hlen : ws.length ≤ n := Nat.le_of_succ_le_succ hn
    intro v hv
    unfold notifyAmong
    split
    · next hw =>
      rcases List.mem_cons.1 hv with rfl | hv
      · refine (notifyAmong_spec n ws _).2.2.2 v ?_
        rw [future_complete, if_pos ⟨rfl, hw⟩]
        exact Future.noConfusion
      · exact ih hlen _ v hv
    · next hw =>
      rcases List.mem_cons.1 hv with rfl | hv
      · exact (notifyAmong_spec (n + 1) ws c).2.2.2 v hw
      · exact ih (Nat.le_succ_of_le hlen) c v hv

theorem notifyAll_quiet (c : Condition) : c.notifyAll.Quiet := by
  intro w hw
  rw [notifyAll, notify, (notifyAmong_spec _ _ _).2.2.1] at hw
  exact notifyAmong_done (Nat.le_refl _) c w hw

/-- What is done stays done. -/
theorem Quiet.notify {c : Condition} (h : c.Quiet) (n : ℕ) : (c.notify n).Quiet := by
  intro w hw
  rw [Condition.notify, (notifyAmong_spec _ _ _).2.2.1] at hw
  exact (notifyAmong_spec n c.waiting c).2.2.2 w (h w hw)

theorem Quiet.complete {c : Condition} (h : c.Quiet) (n : ℕ) {state : Future}
    (hs : state ≠ .pending) : (c.complete n state).Quiet := by
  intro w hw
  rw [complete_waiting] at hw
  rw [future_complete]
  split
  · exact hs
  · exact h w hw

theorem Quiet.woken {c : Condition} (h : c.Quiet) (n : ℕ) : (c.woken n).Quiet :=
  fun w hw => h w (List.mem_of_mem_erase hw)

end Condition

end ForgejoMcp.Asyncio
