import ForgejoMcp.SlidingWindow.Table
import Mathlib.Algebra.Order.Ring.Rat

/-!
# Limits on login attempts

`LoginRateLimiter` reserves an attempt before the login is tried and gives it back after a success.  No
window of the configured length holds more attempts of a key than allowed, whatever is dropped from the
table of keys.
-/

namespace ForgejoMcp.Auth

open Python SlidingWindow

/-! ### Functions -/

/-- `LoginRateLimitLease`. -/
@[ext]
structure LoginRateLimitLease where
  key : String
  eventId : ℕ
  deriving DecidableEq, Repr

/-- `HTTPException`. -/
structure HttpException where
  statusCode : ℕ
  detail : String
  deriving DecidableEq, Repr

/-- The parameters of a `LoginRateLimiter`. -/
structure LoginRateLimiter where
  attempts : ℕ
  windowSeconds : ℤ
  maxKeys : ℕ

/-- The time and the number of an attempt. -/
abbrev LoginEvent := ℚ × ℕ

/-- What a limiter keeps. -/
structure LoginState where
  events : Table String LoginEvent
  nextEventId : ℕ

namespace LoginState

/-- A limiter that nothing has been charged to. -/
def start : LoginState := ⟨.empty, 0⟩

/-- The events of a key. -/
def stored (s : LoginState) (key : String) : List LoginEvent := s.events.stored key

end LoginState

namespace LoginRateLimiter

variable (l : LoginRateLimiter)

/-- `_prune_login_mapping`. -/
def pruneMapping (now : ℚ) (entries : Table String LoginEvent) : Table String LoginEvent :=
  entries.sweep Prod.fst (l.windowSeconds : ℚ) now

/-- Reserve an attempt after the events of the key. -/
def reserve (now : ℚ) (key : String) (events : List LoginEvent) (s : LoginState) :
    Except HttpException LoginRateLimitLease × LoginState :=
  let eventId := s.nextEventId + 1
  (.ok ⟨key, eventId⟩, ⟨s.events.set key (events ++ [(now, eventId)]), eventId⟩)

/-- `check`. -/
def check (now : ℚ) (key : String) (s : LoginState) :
    Except HttpException LoginRateLimitLease × LoginState :=
  let s := { s with events := s.events.pruneKey Prod.fst (l.windowSeconds : ℚ) now key }
  match s.events.get? key with
  | some events =>
    if l.attempts ≤ events.length then (.error ⟨429, "too many login attempts"⟩, s)
    else reserve now key events s
  | none =>
    let s := if l.maxKeys ≤ s.events.length then { s with events := l.pruneMapping now s.events }
      else s
    if l.maxKeys ≤ s.events.length then
      (.error ⟨429, "login rate limiter capacity exceeded"⟩, s)
    else reserve now key [] s

end LoginRateLimiter

/-- `success`. -/
def LoginState.success (lease : LoginRateLimitLease) (s : LoginState) : LoginState :=
  match s.events.get? lease.key with
  | none => s
  | some events =>
    let events := events.eraseP fun event => event.2 == lease.eventId
    { s with events := s.events.put lease.key events }

/-- `failure`. -/
def LoginState.failure (_ : LoginRateLimitLease) (s : LoginState) : LoginState := s

/-! ### Runs -/

/-- A call of the limiter. -/
inductive LoginCall
  | check (key : String)
  | success (lease : LoginRateLimitLease)
  | failure (lease : LoginRateLimitLease)

/-- A call: when it is made, and what a check answers. -/
structure LoginStep where
  now : ℚ
  call : LoginCall
  before : LoginState
  answer : Option (Except HttpException LoginRateLimitLease)
  after : LoginState

namespace LoginRateLimiter

variable (l : LoginRateLimiter)

/-- A call at a time, as a step of the limiter. -/
def step (now : ℚ) (call : LoginCall) (s : LoginState) : LoginStep :=
  match call with
  | .check key =>
    let (answer, after) := l.check now key s
    ⟨now, call, s, some answer, after⟩
  | .success lease => ⟨now, call, s, none, s.success lease⟩
  | .failure lease => ⟨now, call, s, none, s.failure lease⟩

/-- The steps of a sequence of calls. -/
def run : LoginState → List (ℚ × LoginCall) → List LoginStep
  | _, [] => []
  | s, (now, call) :: calls =>
    let step := l.step now call s
    step :: run step.after calls

end LoginRateLimiter

/-- The limiter stores the attempt of a lease. -/
def LoginState.Stores (s : LoginState) (lease : LoginRateLimitLease) : Prop :=
  ∃ event ∈ s.stored lease.key, event.2 = lease.eventId

instance (s : LoginState) (lease : LoginRateLimitLease) : Decidable (s.Stores lease) :=
  List.decidableBEx _ _

/-- An attempt that was admitted. -/
structure LoginCharge where
  time : ℚ
  lease : LoginRateLimitLease
  deriving DecidableEq

/-- The attempts that are admitted and not given back: a check adds one, and a success takes that of its
lease if the limiter stores it. -/
def charge (charged : List LoginCharge) (step : LoginStep) : List LoginCharge :=
  match step.call, step.answer with
  | .check _, some (.ok lease) => charged ++ [⟨step.now, lease⟩]
  | .success lease, _ =>
    if step.before.Stores lease then charged.filter (·.lease ≠ lease) else charged
  | _, _ => charged

/-- The charges that count after the steps. -/
def outstanding (steps : List LoginStep) : List LoginCharge := steps.foldl charge []

/-- The outstanding attempts of a key. -/
def chargedTo (key : String) (charged : List LoginCharge) : List LoginEvent :=
  charged.filterMap fun c => if c.lease.key = key then some (c.time, c.lease.eventId) else none

/-- What is said of the steps of a limiter. -/
structure LoginRateLimiter.Sound (l : LoginRateLimiter) (steps : List LoginStep) : Prop where
  /-- No window holds more outstanding attempts of a key than allowed, at any moment. -/
  admits : ∀ past, past <+: steps → ∀ key t,
    ((outstanding past).filter fun c =>
      c.lease.key = key ∧ t - (l.windowSeconds : ℚ) < c.time ∧ c.time ≤ t).length ≤ l.attempts
  /-- A success takes its own lease and no other. -/
  refunds : ∀ step ∈ steps, ∀ lease, step.call = .success lease → ∀ key, step.after.stored key =
    if key = lease.key then (step.before.stored key).filter (·.2 ≠ lease.eventId)
    else step.before.stored key
  /-- A lease that was taken is not taken again. -/
  once : steps.Pairwise fun step later => ∀ lease, step.call = .success lease →
    step.before.Stores lease → ¬later.before.Stores lease
  keys_le : ∀ step ∈ steps, step.after.events.length ≤ l.maxKeys
  /-- A check that is denied adds nothing; what it drops is too old to count. -/
  denied : ∀ step ∈ steps, ∀ key e, step.call = .check key → step.answer = some (.error e) →
    step.after.nextEventId = step.before.nextEventId ∧ ∀ k,
      step.after.stored k <:+ step.before.stored k ∧
        Agree Prod.fst (l.windowSeconds : ℚ) step.now (step.after.stored k) (step.before.stored k)

/-! ### What a call does to the stored events -/

namespace LoginRateLimiter

variable {l : LoginRateLimiter} {now : ℚ} {key k : String} {s : LoginState}

/-- What is dropped is too old to count. -/
structure Pruned (l : LoginRateLimiter) (now : ℚ) (s s' : LoginState) : Prop where
  nextEventId : s'.nextEventId = s.nextEventId
  events : Table.Pruned Prod.fst (l.windowSeconds : ℚ) now s.events s'.events

/-- A check is denied, or it reserves an attempt after fewer than allowed that may still count. -/
theorem check_cases (l : LoginRateLimiter) (now : ℚ) (key : String) (s : LoginState) :
    ∃ s', l.Pruned now s s' ∧
    ((∃ e, l.check now key s = (.error e, s')) ∨
      ∃ events, events = s'.events.stored key ∧ (events = [] ∨ events.length < l.attempts) ∧
        (s.events.length ≤ l.maxKeys →
          (s'.events.set key (events ++ [(now, s.nextEventId + 1)])).length ≤ l.maxKeys) ∧
        l.check now key s = (.ok ⟨key, s.nextEventId + 1⟩,
          ⟨s'.events.set key (events ++ [(now, s.nextEventId + 1)]), s.nextEventId + 1⟩)) := by
  have hkey : Table.Pruned Prod.fst (l.windowSeconds : ℚ) now s.events
      (s.events.pruneKey Prod.fst (l.windowSeconds : ℚ) now key) := .pruneKey s.events key
  rw [check]
  dsimp only
  generalize s.events.pruneKey Prod.fst (l.windowSeconds : ℚ) now key = d at hkey
  split
  · rename_i events hsome
    refine ⟨{ s with events := d }, ⟨rfl, hkey⟩, ?_⟩
    split
    · exact .inl ⟨_, rfl⟩
    · rename_i hlt
      refine .inr ⟨events, (Table.stored_of_get? hsome).symm, .inr (Nat.lt_of_not_le hlt),
        fun hle => ?_, rfl⟩
      rw [OrderedDict.length_set_of_some (by rw [hsome]; exact Option.some_ne_none _)]
      exact hkey.length_le.trans hle
  · rename_i hnone
    -- the table is swept if it is full
    have hswept : ∃ d', Table.Pruned Prod.fst (l.windowSeconds : ℚ) now s.events d' ∧
        d'.get? key = none ∧ (if l.maxKeys ≤ d.length then
          (⟨l.pruneMapping now d, s.nextEventId⟩ : LoginState) else ⟨d, s.nextEventId⟩) =
            ⟨d', s.nextEventId⟩ := by
      split
      · exact ⟨_, hkey.trans (.sweep d), Table.get?_sweep_of_none hnone, rfl⟩
      · exact ⟨d, hkey, hnone, rfl⟩
    obtain ⟨d', hpruned, hnone', heq⟩ := hswept
    rw [heq]
    refine ⟨⟨d', s.nextEventId⟩, ⟨rfl, hpruned⟩, ?_⟩
    dsimp only
    split
    · exact .inl ⟨_, rfl⟩
    · rename_i hlt
      refine .inr ⟨[], (Table.stored_of_none hnone').symm, .inl rfl, fun _ => ?_, rfl⟩
      rw [OrderedDict.length_set_of_none hnone']
      omega

end LoginRateLimiter

namespace LoginState

variable {s : LoginState} {lease : LoginRateLimitLease} {k : String}

theorem eraseP_eq_filter {events : List LoginEvent} (h : (events.map Prod.snd).Nodup) (n : ℕ) :
    events.eraseP (fun event => event.2 == n) = events.filter fun event => decide (event.2 ≠ n) := by
  induction events with
  | nil => rfl
  | cons e events ih =>
    rw [List.map_cons, List.nodup_cons] at h
    by_cases he : e.2 = n
    · rw [List.eraseP_cons_of_pos (by simpa using he), List.filter_cons_of_neg (by simpa using he)]
      have hne : ∀ x ∈ events, x.2 ≠ n := fun x hx hn =>
        h.1 (List.mem_map.2 ⟨x, hx, hn.trans he.symm⟩)
      exact (List.filter_eq_self.2 (by simpa using hne)).symm
    · rw [List.eraseP_cons_of_neg (by simpa using he), List.filter_cons_of_pos (by simpa using he),
        ih h.2]

/-- A success takes the attempt of its lease. -/
theorem stored_success (h : ((s.stored lease.key).map Prod.snd).Nodup) :
    (s.success lease).stored k =
      if k = lease.key then (s.stored k).filter (·.2 ≠ lease.eventId) else s.stored k := by
  rw [success]
  split
  · rename_i hnone
    split
    · rename_i hk
      rw [hk, stored, Table.stored_of_none hnone]
      rfl
    · rfl
  · rename_i events hsome
    dsimp only [stored]
    rw [Table.stored_put]
    split
    · rename_i hk
      rw [stored, Table.stored_of_get? hsome] at h
      rw [hk, Table.stored_of_get? hsome, eraseP_eq_filter h]
    · rfl

theorem nextEventId_success : (s.success lease).nextEventId = s.nextEventId := by
  rw [success]
  split
  · rfl
  · rfl

theorem length_success_le : (s.success lease).events.length ≤ s.events.length := by
  rw [success]
  split
  · exact Nat.le_refl _
  · rename_i events hsome
    exact Table.length_put_le (by rw [hsome]; exact Option.some_ne_none _)

end LoginState

/-! ### Invariant -/

namespace LoginRateLimiter

variable {l : LoginRateLimiter} {now now' : ℚ} {s s' : LoginState} {charged : List LoginCharge}
  {key k : String} {lease : LoginRateLimitLease} {call : LoginCall}

/-- What is stored are the outstanding attempts, as far as they count. -/
structure Inv (l : LoginRateLimiter) (now : ℚ) (charged : List LoginCharge) (s : LoginState) :
    Prop where
  agree : ∀ k, Agree Prod.fst (l.windowSeconds : ℚ) now (s.stored k) (chargedTo k charged)
  bounded : ∀ k, Bounded Prod.fst (l.windowSeconds : ℚ) l.attempts (chargedTo k charged)
  nodup : ∀ k, ((s.stored k).map Prod.snd).Nodup
  ids_le : ∀ k, ∀ event ∈ s.stored k, event.2 ≤ s.nextEventId
  keys_le : s.events.length ≤ l.maxKeys

theorem Inv.start : l.Inv now [] .start where
  agree := fun _ => rfl
  bounded := fun _ => .nil
  nodup := fun _ => List.nodup_nil
  ids_le := fun _ _ hmem => absurd hmem List.not_mem_nil
  keys_le := Nat.zero_le _

theorem Inv.mono (h : l.Inv now charged s) (hle : now ≤ now') : l.Inv now' charged s :=
  { h with agree := fun k => (h.agree k).mono hle }

theorem Inv.pruned (h : l.Inv now charged s) (hp : l.Pruned now s s') : l.Inv now charged s' where
  agree := fun k => (hp.events.agree k).trans (h.agree k)
  bounded := h.bounded
  nodup := fun k => (h.nodup k).sublist ((hp.events.suffix k).sublist.map _)
  ids_le := fun k event hmem => hp.nextEventId ▸ h.ids_le k event ((hp.events.suffix k).subset hmem)
  keys_le := hp.events.length_le.trans h.keys_le

theorem chargedTo_append (charged : List LoginCharge) (time : ℚ) (n : ℕ) :
    chargedTo k (charged ++ [⟨time, ⟨key, n⟩⟩]) =
      if k = key then chargedTo k charged ++ [(time, n)] else chargedTo k charged := by
  rw [chargedTo, List.filterMap_append]
  by_cases hk : k = key
  · rw [if_pos hk, List.filterMap_cons, if_pos hk.symm]
    rfl
  · rw [if_neg hk, List.filterMap_cons, if_neg (Ne.symm hk)]
    exact List.append_nil _

theorem Inv.reserved (h : l.Inv now charged s) {events : List LoginEvent}
    (hevents : events = s.stored key) (hroom : events.length < l.attempts)
    (hkeys : (s.events.set key (events ++ [(now, s.nextEventId + 1)])).length ≤ l.maxKeys) :
    l.Inv now (charged ++ [⟨now, ⟨key, s.nextEventId + 1⟩⟩])
      ⟨s.events.set key (events ++ [(now, s.nextEventId + 1)]), s.nextEventId + 1⟩ where
  agree := fun k => by
    rw [LoginState.stored, Table.stored_set, chargedTo_append]
    split
    · rename_i hk
      rw [hevents, ← hk]
      exact (h.agree k).append _
    · exact h.agree k
  bounded := fun k => by
    rw [chargedTo_append]
    split
    · rename_i hk
      refine (h.bounded k).append (Nat.lt_of_le_of_lt (h.agree k).countP_le ?_)
      rw [hk, ← hevents]
      exact hroom
    · exact h.bounded k
  nodup := fun k => by
    rw [LoginState.stored, Table.stored_set]
    split
    · rw [hevents, List.map_append, List.map_singleton]
      refine List.nodup_append'.2 ⟨h.nodup key, List.nodup_singleton _, ?_⟩
      rw [List.disjoint_singleton]
      intro hmem
      obtain ⟨event, hevent, heq⟩ := List.mem_map.1 hmem
      have hle := h.ids_le key event hevent
      omega
    · exact h.nodup k
  ids_le := fun k event hmem => by
    dsimp only
    rw [LoginState.stored, Table.stored_set] at hmem
    split at hmem
    · rcases List.mem_append.1 hmem with hmem | hmem
      · exact Nat.le_succ_of_le (h.ids_le key event (hevents ▸ hmem))
      · rw [List.mem_singleton.1 hmem]
    · exact Nat.le_succ_of_le (h.ids_le k event hmem)
  keys_le := hkeys

theorem chargedTo_cons (c : LoginCharge) (charged : List LoginCharge) :
    chargedTo k (c :: charged) = if c.lease.key = k then (c.time, c.lease.eventId) :: chargedTo k charged
      else chargedTo k charged := by
  rw [chargedTo, List.filterMap_cons]
  split
  · rename_i hnone
    split at hnone
    · cases hnone
    · rename_i hk
      rw [if_neg hk]
      rfl
  · rename_i e hsome
    split at hsome
    · rename_i hk
      cases hsome
      rw [if_pos hk]
      rfl
    · cases hsome

theorem chargedTo_filter (charged : List LoginCharge) :
    chargedTo k (charged.filter (·.lease ≠ lease)) =
      if k = lease.key then (chargedTo k charged).filter (·.2 ≠ lease.eventId)
      else chargedTo k charged := by
  induction charged with
  | nil => split <;> rfl
  | cons c charged ih =>
    rw [chargedTo_cons]
    by_cases hc : c.lease = lease
    · rw [List.filter_cons_of_neg (by simpa using hc), ih]
      split
      · rename_i hk
        rw [if_pos (by rw [hc, hk]), List.filter_cons_of_neg (by simp [hc])]
      · rename_i hk
        rw [if_neg (by rw [hc]; exact Ne.symm hk)]
    · rw [List.filter_cons_of_pos (by simpa using hc), chargedTo_cons, ih]
      by_cases hkey : c.lease.key = k
      · rw [if_pos hkey, if_pos hkey]
        split
        · rename_i hk
          have hid : c.lease.eventId ≠ lease.eventId := fun heq =>
            hc (LoginRateLimitLease.ext (hkey.trans hk) heq)
          rw [List.filter_cons_of_pos (by simpa using hid)]
        · rfl
      · rw [if_neg hkey, if_neg hkey]

theorem Inv.success (h : l.Inv now charged s) :
    l.Inv now (if s.Stores lease then charged.filter (·.lease ≠ lease) else charged)
      (s.success lease) where
  agree := fun k => by
    rw [LoginState.stored_success (h.nodup _)]
    by_cases hstores : s.Stores lease
    · rw [if_pos hstores, chargedTo_filter]
      split
      · exact (h.agree k).filter _
      · exact h.agree k
    · rw [if_neg hstores]
      split
      · rename_i hk
        have hne : ∀ e ∈ s.stored k, e.2 ≠ lease.eventId := fun e he heq => hstores ⟨e, hk ▸ he, heq⟩
        rw [List.filter_eq_self.2 (by simpa using hne)]
        exact h.agree k
      · exact h.agree k
  bounded := fun k => by
    split
    · rw [chargedTo_filter]
      split
      · exact (h.bounded k).sublist List.filter_sublist
      · exact h.bounded k
    · exact h.bounded k
  nodup := fun k => by
    rw [LoginState.stored_success (h.nodup _)]
    split
    · exact (h.nodup k).sublist (List.filter_sublist.map _)
    · exact h.nodup k
  ids_le := fun k event hmem => by
    rw [LoginState.nextEventId_success]
    rw [LoginState.stored_success (h.nodup _)] at hmem
    split at hmem
    · exact h.ids_le k event (List.mem_filter.1 hmem).1
    · exact h.ids_le k event hmem
  keys_le := LoginState.length_success_le.trans h.keys_le

/-- What a call changes. -/
theorem Inv.step (hattempts : 0 < l.attempts) (h : l.Inv now charged s) (hle : now ≤ now')
    (call : LoginCall) :
    l.Inv now' (charge charged (l.step now' call s)) (l.step now' call s).after := by
  replace h := h.mono hle
  cases call with
  | check key =>
    rw [LoginRateLimiter.step]
    obtain ⟨s', hp, ⟨e, heq⟩ | ⟨events, hevents, hroom, hkeys, heq⟩⟩ :=
      check_cases l now' key s
    · rw [heq]
      exact h.pruned hp
    · rw [heq, ← hp.nextEventId]
      rw [← hp.nextEventId] at hkeys
      refine (h.pruned hp).reserved hevents ?_ (hkeys h.keys_le)
      rcases hroom with rfl | hlt
      · exact hattempts
      · exact hlt
  | success lease => exact h.success
  | failure lease => exact h

/-! ### Whole runs -/

variable {calls : List (ℚ × LoginCall)} {past : List LoginStep}

theorem clock_cons {call : LoginCall}
    (h : (now :: ((now', call) :: calls).map Prod.fst).Pairwise (· ≤ ·)) :
    now ≤ now' ∧ (now' :: calls.map Prod.fst).Pairwise (· ≤ ·) :=
  ⟨(List.pairwise_cons.1 h).1 now' List.mem_cons_self, (List.pairwise_cons.1 h).2⟩

/-- Every step of a run starts in a state with the invariant. -/
theorem exists_inv_of_mem {step : LoginStep} (hattempts : 0 < l.attempts) (h : l.Inv now charged s)
    (hclock : (now :: calls.map Prod.fst).Pairwise (· ≤ ·)) (hmem : step ∈ l.run s calls) :
    ∃ charged, l.Inv step.now charged step.before ∧
      step = l.step step.now step.call step.before := by
  induction calls generalizing now s charged with
  | nil => cases hmem
  | cons e calls ih =>
    obtain ⟨now', call⟩ := e
    obtain ⟨hle, hrest⟩ := clock_cons hclock
    rcases List.mem_cons.1 hmem with rfl | hmem
    · refine ⟨charged, ?_, ?_⟩
      · cases call <;> exact h.mono hle
      · cases call <;> rfl
    · exact ih (h.step hattempts hle call) hrest hmem

/-- The outstanding attempts are within the bound at every moment of a run. -/
theorem bounded_of_prefix (hattempts : 0 < l.attempts) (h : l.Inv now charged s)
    (hclock : (now :: calls.map Prod.fst).Pairwise (· ≤ ·)) (hpast : past <+: l.run s calls) :
    Bounded Prod.fst (l.windowSeconds : ℚ) l.attempts (chargedTo k (past.foldl charge charged)) := by
  induction calls generalizing now s charged past with
  | nil =>
    rw [List.prefix_nil.1 hpast]
    exact h.bounded k
  | cons e calls ih =>
    obtain ⟨now', call⟩ := e
    obtain ⟨hle, hrest⟩ := clock_cons hclock
    cases past with
    | nil => exact h.bounded k
    | cons step past =>
      rw [run] at hpast
      obtain ⟨rfl, hpast'⟩ := List.cons_prefix_cons.1 hpast
      rw [List.foldl_cons]
      exact ih (h.step hattempts hle call) hrest hpast'

/-- What a call adds is numbered later than all before. -/
structure Later (s s' : LoginState) : Prop where
  nextEventId : s.nextEventId ≤ s'.nextEventId
  stored : ∀ k, ∀ event ∈ s'.stored k, event ∈ s.stored k ∨ s.nextEventId < event.2

theorem Later.of_suffix (hid : s'.nextEventId = s.nextEventId)
    (h : ∀ k, s'.stored k <:+ s.stored k) : Later s s' where
  nextEventId := Nat.le_of_eq hid.symm
  stored := fun k _ hmem => .inl ((h k).subset hmem)

theorem Later.step (hnodup : ∀ k, ((s.stored k).map Prod.snd).Nodup) (now : ℚ) (call : LoginCall) :
    Later s (l.step now call s).after := by
  cases call with
  | check key =>
    rw [LoginRateLimiter.step]
    obtain ⟨s', hp, ⟨e, heq⟩ | ⟨events, hevents, -, -, heq⟩⟩ :=
      check_cases l now key s
    · rw [heq]
      exact .of_suffix hp.nextEventId hp.events.suffix
    · rw [heq]
      refine ⟨Nat.le_succ _, fun k event hmem => ?_⟩
      dsimp only at hmem
      rw [LoginState.stored, Table.stored_set] at hmem
      split at hmem
      · rename_i hk
        rcases List.mem_append.1 hmem with hmem | hmem
        · exact .inl ((hp.events.suffix k).subset (hk ▸ hevents ▸ hmem))
        · rw [List.mem_singleton.1 hmem]
          exact .inr (Nat.lt_succ_self _)
      · exact .inl ((hp.events.suffix k).subset hmem)
  | success lease =>
    refine ⟨Nat.le_of_eq LoginState.nextEventId_success.symm, fun k event hmem => .inl ?_⟩
    rw [LoginRateLimiter.step, LoginState.stored_success (hnodup _)] at hmem
    split at hmem
    · exact (List.mem_filter.1 hmem).1
    · exact hmem
  | failure lease => exact .of_suffix rfl fun _ => List.suffix_rfl

/-- A lease that was given out and is not stored. -/
structure Gone (lease : LoginRateLimitLease) (s : LoginState) : Prop where
  eventId_le : lease.eventId ≤ s.nextEventId
  not_stores : ¬s.Stores lease

theorem Gone.later (h : Gone lease s) (hl : Later s s') : Gone lease s' where
  eventId_le := h.eventId_le.trans hl.nextEventId
  not_stores := by
    rintro ⟨event, hmem, heq⟩
    rcases hl.stored _ event hmem with hmem | hlt
    · exact h.not_stores ⟨event, hmem, heq⟩
    · exact absurd (heq ▸ hlt) (Nat.not_lt_of_le h.eventId_le)

theorem Gone.not_stores_of_mem {step : LoginStep} (hattempts : 0 < l.attempts)
    (h : l.Inv now charged s) (hclock : (now :: calls.map Prod.fst).Pairwise (· ≤ ·))
    (hgone : Gone lease s) (hmem : step ∈ l.run s calls) : ¬step.before.Stores lease := by
  induction calls generalizing now s charged with
  | nil => cases hmem
  | cons e calls ih =>
    obtain ⟨now', call⟩ := e
    obtain ⟨hle, hrest⟩ := clock_cons hclock
    rcases List.mem_cons.1 hmem with rfl | hmem
    · cases call <;> exact hgone.not_stores
    · exact ih (h.step hattempts hle call) hrest (hgone.later (.step h.nodup now' call)) hmem

/-- A success leaves its lease gone. -/
theorem Inv.gone_success (h : l.Inv now charged s) (hstores : s.Stores lease) :
    Gone lease (s.success lease) where
  eventId_le := by
    obtain ⟨event, hmem, heq⟩ := hstores
    rw [LoginState.nextEventId_success, ← heq]
    exact h.ids_le _ event hmem
  not_stores := by
    rintro ⟨event, hmem, heq⟩
    rw [LoginState.stored_success (h.nodup _), if_pos rfl] at hmem
    exact of_decide_eq_true (List.mem_filter.1 hmem).2 heq

theorem pairwise_once (hattempts : 0 < l.attempts) (h : l.Inv now charged s)
    (hclock : (now :: calls.map Prod.fst).Pairwise (· ≤ ·)) :
    (l.run s calls).Pairwise fun step later => ∀ lease,
      step.call = .success lease → step.before.Stores lease → ¬later.before.Stores lease := by
  induction calls generalizing now s charged with
  | nil => exact .nil
  | cons e calls ih =>
    obtain ⟨now', call⟩ := e
    obtain ⟨hle, hrest⟩ := clock_cons hclock
    have hafter := h.step hattempts hle call
    refine List.pairwise_cons.2 ⟨fun later hlater lease hcall hstores => ?_, ih hafter hrest⟩
    cases call with
    | success lease' =>
      cases hcall
      exact (h.gone_success hstores).not_stores_of_mem hattempts hafter hrest hlater
    | check key => cases hcall
    | failure lease' => cases hcall

theorem length_filter_outstanding (charged : List LoginCharge) (key : String) (t : ℚ) :
    (charged.filter fun c =>
        c.lease.key = key ∧ t - (l.windowSeconds : ℚ) < c.time ∧ c.time ≤ t).length =
      (chargedTo key charged).countP (inWindow Prod.fst (l.windowSeconds : ℚ) t) := by
  induction charged with
  | nil => rfl
  | cons c charged ih =>
    rw [chargedTo_cons]
    by_cases hkey : c.lease.key = key
    · rw [if_pos hkey, List.countP_cons, ← ih, List.filter_cons]
      by_cases hwindow : t - (l.windowSeconds : ℚ) < c.time ∧ c.time ≤ t
      · have hin : inWindow Prod.fst (l.windowSeconds : ℚ) t (c.time, c.lease.eventId) = true :=
          decide_eq_true hwindow
        rw [if_pos (decide_eq_true ⟨hkey, hwindow⟩), if_pos hin]
        rfl
      · rw [if_neg (by simpa [hkey] using hwindow), if_neg (by simpa [inWindow] using hwindow)]
        rfl
    · rw [if_neg hkey, ← ih, List.filter_cons_of_neg (by simp [hkey])]

/-- A login limiter never admits more than it may, in any run. -/
theorem login_sound {l : LoginRateLimiter} (hattempts : 0 < l.attempts)
    {calls : List (ℚ × LoginCall)} (hclock : (calls.map Prod.fst).Pairwise (· ≤ ·)) :
    l.Sound (l.run .start calls) := by
  obtain ⟨now, hclock⟩ := exists_pairwise_cons hclock
  have hmem : ∀ {step}, step ∈ l.run .start calls → ∃ charged, l.Inv step.now charged step.before ∧
      step = l.step step.now step.call step.before :=
    fun hstep => exists_inv_of_mem hattempts Inv.start hclock hstep
  refine ⟨fun past hpast key t => ?_, fun step hstep lease hcall key => ?_,
    pairwise_once hattempts Inv.start hclock, fun step hstep => ?_,
    fun step hstep key e hcall hanswer => ?_⟩
  · rw [length_filter_outstanding]
    exact bounded_of_prefix hattempts Inv.start hclock hpast t
  · obtain ⟨charged, hinv, heq⟩ := hmem hstep
    rw [heq, hcall]
    exact LoginState.stored_success (hinv.nodup _)
  · obtain ⟨charged, hinv, heq⟩ := hmem hstep
    rw [heq]
    exact (hinv.step hattempts (le_refl _) _).keys_le
  · obtain ⟨charged, hinv, heq⟩ := hmem hstep
    rw [heq, hcall, LoginRateLimiter.step] at hanswer ⊢
    obtain ⟨s', hp, ⟨e', hcheck⟩ | ⟨events, -, -, -, hcheck⟩⟩ :=
      check_cases l step.now key step.before
    · rw [hcheck]
      exact ⟨hp.nextEventId, fun k => ⟨hp.events.suffix k, hp.events.agree k⟩⟩
    · rw [hcheck] at hanswer
      cases hanswer

/-- One attempt in ten seconds: a second one is denied, and one after a success is not. -/
def sampleLimiter : LoginRateLimiter := ⟨1, 10, 2⟩

/-- An attempt and one too many, a success, an attempt, and the first success reported again. -/
def sampleCalls : List (ℚ × LoginCall) :=
  [(0, .check "a"), (1, .check "a"), (2, .success ⟨"a", 1⟩), (2, .check "a"), (3, .success ⟨"a", 1⟩)]

theorem login_sound_sample : sampleLimiter.Sound (sampleLimiter.run .start sampleCalls) :=
  login_sound (by decide) (by decide +kernel)

end LoginRateLimiter

end ForgejoMcp.Auth
