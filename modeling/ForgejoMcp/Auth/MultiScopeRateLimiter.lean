import ForgejoMcp.SlidingWindow.Table
import Mathlib.Data.List.Dedup
import Mathlib.Data.Rat.Floor

/-!
# Limits of several scopes

`MultiScopeRateLimiter` checks all scopes of a request before it charges any.  No window holds more
admitted requests of a key than its limit, and the wait that a denial asks for is long enough for the
scope that denied.
-/

namespace ForgejoMcp.Auth

open Python SlidingWindow

/-! ### Functions -/

/-- `RateLimitDecision`. -/
structure RateLimitDecision where
  allowed : Bool
  scope : Option String
  retryAfterSeconds : ℤ
  deriving DecidableEq, Repr

/-- The parameters of a `MultiScopeRateLimiter`. -/
structure MultiScopeRateLimiter where
  windowSeconds : ℤ
  maxKeys : ℕ

/-- One of the limits of a request. -/
structure ScopeLimit where
  scope : String
  identifier : String
  limit : ℕ
  deriving DecidableEq, Repr

/-- The key of a scope and an identifier. -/
def ScopeLimit.key (x : ScopeLimit) : String := x.scope ++ ":" ++ x.identifier

/-- What denies a request: a limit, with the oldest event that counts, or the size of the table. -/
inductive Denial
  | limit (x : ScopeLimit) (oldest : ℚ)
  | capacity
  deriving DecidableEq

/-- `int(x)`. -/
def truncate (x : ℚ) : ℤ := if 0 ≤ x then ⌊x⌋ else ⌈x⌉

namespace MultiScopeRateLimiter

variable (l : MultiScopeRateLimiter) (now : ℚ)

/-- The decision that a denial is returned as. -/
def decision : Denial → RateLimitDecision
  | .limit x oldest =>
    ⟨false, some x.scope, max 1 (truncate (oldest + l.windowSeconds - now) + 1)⟩
  | .capacity => ⟨false, some "capacity", l.windowSeconds⟩

/-- The first loop of `check`. -/
def checkScopes : List ScopeLimit → Table String ℚ → Option Denial × Table String ℚ
  | [], d => (none, d)
  | x :: limits, d =>
    let d := d.pruneKey id (l.windowSeconds : ℚ) now x.key
    match d.get? x.key with
    | some (oldest :: events) =>
      if x.limit ≤ (oldest :: events).length then (some (.limit x oldest), d)
      else checkScopes limits d
    | _ => checkScopes limits d

/-- The last loop of `check`. -/
def chargeScopes (limits : List ScopeLimit) (d : Table String ℚ) : Table String ℚ :=
  limits.foldl (fun d x => d.set x.key (d.stored x.key ++ [now])) d

/-- The keys that are not in the table. -/
def newKeys (limits : List ScopeLimit) (d : Table String ℚ) : List String :=
  ((limits.map ScopeLimit.key).filter fun key => (d.get? key).isNone).dedup

/-- `check`, up to the decision. -/
def attempt (limits : List ScopeLimit) (d : Table String ℚ) : Option Denial × Table String ℚ :=
  match l.checkScopes now limits d with
  | (some denial, d) => (some denial, d)
  | (none, d) =>
    let new := newKeys limits d
    let d := if l.maxKeys < d.length + new.length then d.sweep id (l.windowSeconds : ℚ) now else d
    if l.maxKeys < d.length + new.length then (some .capacity, d)
    else (none, chargeScopes now limits d)

/-- `check`. -/
def check (limits : List ScopeLimit) (d : Table String ℚ) : RateLimitDecision × Table String ℚ :=
  let (denial, d) := l.attempt now limits d
  ((denial.map (l.decision now)).getD ⟨true, none, 0⟩, d)

end MultiScopeRateLimiter

/-! ### Runs -/

/-- A check. -/
structure ScopeStep where
  now : ℚ
  limits : List ScopeLimit
  before : Table String ℚ
  denial : Option Denial
  decision : RateLimitDecision
  after : Table String ℚ

/-- The keys that a step charges. -/
def ScopeStep.keys (step : ScopeStep) : List String := step.limits.map ScopeLimit.key

/-- The limit that denied, if it was one. -/
def Denial.entry : Denial → Option ScopeLimit
  | limit x _ => some x
  | capacity => none

namespace MultiScopeRateLimiter

variable (l : MultiScopeRateLimiter)

/-- A request at a time, as a step of the limiter. -/
def step (now : ℚ) (limits : List ScopeLimit) (d : Table String ℚ) : ScopeStep where
  now := now
  limits := limits
  before := d
  denial := (l.attempt now limits d).1
  decision := (l.check now limits d).1
  after := (l.check now limits d).2

/-- The steps of a sequence of checks. -/
def run : Table String ℚ → List (ℚ × List ScopeLimit) → List ScopeStep
  | _, [] => []
  | d, (now, limits) :: calls =>
    let step := l.step now limits d
    step :: run step.after calls

/-- The limits of a request: of distinct keys, no more than the table holds, positive, and the same as
ever for a key. -/
structure Admissible (limitOf : String → ℕ) (limits : List ScopeLimit) : Prop where
  nodup : (limits.map ScopeLimit.key).Nodup
  length_le : limits.length ≤ l.maxKeys
  pos : ∀ x ∈ limits, 0 < x.limit
  limit_eq : ∀ x ∈ limits, x.limit = limitOf x.key

/-- What is said of the steps of a limiter. -/
structure Sound (limitOf : String → ℕ) (steps : List ScopeStep) : Prop where
  /-- No window holds more admitted requests of a key than its limit, at any moment. -/
  admits : ∀ past, past <+: steps → ∀ key t, (past.filter fun step =>
    step.decision.allowed ∧ key ∈ step.keys ∧ t - (l.windowSeconds : ℚ) < step.now ∧
      step.now ≤ t).length ≤ limitOf key
  /-- A request that is denied charges no scope; what is dropped is too old to count. -/
  denied : ∀ step ∈ steps, step.decision.allowed = false → ∀ key,
    step.after.stored key <:+ step.before.stored key ∧
      Agree id (l.windowSeconds : ℚ) step.now (step.after.stored key) (step.before.stored key)
  keys_le : ∀ step ∈ steps, step.after.length ≤ l.maxKeys
  /-- The scope that denied does not deny after the wait; the table has room for the request then, if it
  was the table. -/
  retry : ∀ step ∈ steps, ∀ denial, step.denial = some denial →
    step.decision = l.decision step.now denial ∧
    ∀ now', step.now + step.decision.retryAfterSeconds ≤ now' →
      (∀ denial', (l.attempt now' step.limits step.after).1 = some denial' →
        denial'.entry ≠ denial.entry) ∧
      (denial = .capacity → (l.check now' step.limits step.after).1.allowed = true)

end MultiScopeRateLimiter

/-! ### What a check does -/

namespace MultiScopeRateLimiter

variable {l : MultiScopeRateLimiter} {now now' : ℚ} {limits : List ScopeLimit} {x : ScopeLimit}
  {d d' : Table String ℚ} {key : String} {denial : Denial}

theorem lt_truncate_add_one (x : ℚ) : x < truncate x + 1 := by
  rw [truncate]
  split
  · exact Int.lt_floor_add_one x
  · exact lt_of_le_of_lt (Int.le_ceil x) (lt_add_one _)

/-- The events of a key that count. -/
def counted (l : MultiScopeRateLimiter) (now : ℚ) (d : Table String ℚ) (key : String) : List ℚ :=
  prune id (l.windowSeconds : ℚ) now (d.stored key)

/-- The table `d'` keeps the events of `d` for a key that count, and no others. -/
def Current (l : MultiScopeRateLimiter) (now : ℚ) (d d' : Table String ℚ) (key : String) : Prop :=
  d'.get? key = Table.entry (l.counted now d key)

theorem Current.stored (h : l.Current now d d' key) : d'.stored key = l.counted now d key := by
  rw [Table.stored, h, Table.getD_entry]

theorem Current.trans {d'' : Table String ℚ} (h : l.Current now d d' key)
    (h' : Table.Pruned id (l.windowSeconds : ℚ) now d' d'') : l.Current now d d'' key := by
  rcases h'.get? key with heq | heq
  · exact heq.trans h
  · rw [h.stored, counted, prune_prune] at heq
    exact heq

/-- There is room for another event. -/
def Room (l : MultiScopeRateLimiter) (now : ℚ) (d : Table String ℚ) (x : ScopeLimit) : Prop :=
  l.counted now d x.key = [] ∨ (l.counted now d x.key).length < x.limit

/-- What the first loop does: it prunes, and it ends at a limit that is reached. -/
structure Checked (l : MultiScopeRateLimiter) (now : ℚ) (limits : List ScopeLimit)
    (d d' : Table String ℚ) (denial : Option Denial) : Prop where
  pruned : Table.Pruned id (l.windowSeconds : ℚ) now d d'
  passed : denial = none → ∀ x ∈ limits, l.Current now d d' x.key ∧ l.Room now d x
  reached : ∀ δ, denial = some δ → ∃ x ∈ limits, ∃ oldest events, δ = .limit x oldest ∧
    l.counted now d x.key = oldest :: events ∧ l.Current now d d' x.key ∧
    x.limit ≤ (oldest :: events).length

theorem Checked.cons {d₁ : Table String ℚ} {o : Option Denial} (h : l.Checked now limits d₁ d' o)
    (hpruned : Table.Pruned id (l.windowSeconds : ℚ) now d d₁) (hcurrent : l.Current now d d₁ x.key)
    (hroom : l.Room now d x) : l.Checked now (x :: limits) d d' o := by
  have hcounted : ∀ key, l.counted now d₁ key = l.counted now d key := hpruned.prune_stored
  refine ⟨hpruned.trans h.pruned, fun hnone => ?_, fun δ hδ => ?_⟩
  · refine List.forall_mem_cons.2 ⟨⟨hcurrent.trans h.pruned, hroom⟩, fun y hy => ?_⟩
    obtain ⟨hy, hroom⟩ := h.passed hnone y hy
    rw [Current, Room, hcounted] at *
    exact ⟨hy, hroom⟩
  · obtain ⟨y, hy, oldest, events, heq, hevents, hcurrent, hle⟩ := h.reached δ hδ
    rw [Current, hcounted] at *
    exact ⟨y, List.mem_cons_of_mem x hy, oldest, events, heq, hevents, hcurrent, hle⟩

theorem checked (l : MultiScopeRateLimiter) (now : ℚ) (limits : List ScopeLimit)
    (d : Table String ℚ) :
    l.Checked now limits d (l.checkScopes now limits d).2 (l.checkScopes now limits d).1 := by
  induction limits generalizing d with
  | nil =>
    exact ⟨.refl d, fun _ x hx => absurd hx List.not_mem_nil, fun _ h => (nomatch h)⟩
  | cons x limits ih =>
    have hpruned : Table.Pruned id (l.windowSeconds : ℚ) now d
        (d.pruneKey id (l.windowSeconds : ℚ) now x.key) := .pruneKey d x.key
    have hcurrent : l.Current now d (d.pruneKey id (l.windowSeconds : ℚ) now x.key) x.key := by
      rw [Current, Table.get?_pruneKey, if_pos rfl]
      rfl
    rw [checkScopes]
    generalize d.pruneKey id (l.windowSeconds : ℚ) now x.key = d₁ at hpruned hcurrent
    split
    · rename_i oldest events hsome
      have hevents : l.counted now d x.key = oldest :: events :=
        hcurrent.stored.symm.trans (Table.stored_of_get? hsome)
      split
      · rename_i hle
        refine ⟨hpruned, fun h => (nomatch h), fun δ hδ => ?_⟩
        exact ⟨x, List.mem_cons_self, oldest, events, (Option.some.inj hδ).symm, hevents, hcurrent, hle⟩
      · rename_i hlt
        exact (ih d₁).cons hpruned hcurrent (.inr (by rw [hevents]; exact Nat.lt_of_not_le hlt))
    · rename_i hnone
      refine (ih d₁).cons hpruned hcurrent (.inl ?_)
      cases hevents : l.counted now d x.key with
      | nil => rfl
      | cons oldest events =>
        rw [Current, hevents] at hcurrent
        exact absurd hcurrent (hnone oldest events)

/-! ### Charges -/

theorem newKeys_eq (hnodup : (limits.map ScopeLimit.key).Nodup) (d : Table String ℚ) :
    newKeys limits d = (limits.map ScopeLimit.key).filter fun key => (d.get? key).isNone :=
  (hnodup.filter _).dedup

theorem length_newKeys_le (limits : List ScopeLimit) (d : Table String ℚ) :
    (newKeys limits d).length ≤ limits.length := by
  rw [newKeys, ← List.length_map ScopeLimit.key]
  exact (List.dedup_sublist _).length_le.trans (List.length_filter_le _ _)

theorem stored_chargeScopes (hnodup : (limits.map ScopeLimit.key).Nodup) (d : Table String ℚ) :
    (chargeScopes now limits d).stored key =
      if key ∈ limits.map ScopeLimit.key then d.stored key ++ [now] else d.stored key := by
  induction limits generalizing d with
  | nil => rw [if_neg (by simp)]; rfl
  | cons x limits ih =>
    rw [List.map_cons, List.nodup_cons] at hnodup
    have hset : Table.stored (d.set x.key (d.stored x.key ++ [now])) key =
        if key = x.key then d.stored key ++ [now] else d.stored key := by
      rw [Table.stored_set]
      split
      · rename_i hkey
        rw [hkey]
      · rfl
    rw [chargeScopes, List.foldl_cons, List.map_cons]
    refine (ih hnodup.2 _).trans ?_
    rw [hset]
    by_cases hkey : key = x.key
    · rw [if_neg (by rw [hkey]; exact hnodup.1), if_pos hkey, if_pos (by simp [hkey])]
    · rw [if_neg hkey]
      simp [hkey]

theorem length_chargeScopes_le (hnodup : (limits.map ScopeLimit.key).Nodup) (d : Table String ℚ) :
    (chargeScopes now limits d).length ≤ d.length + (newKeys limits d).length := by
  rw [newKeys_eq hnodup]
  induction limits generalizing d with
  | nil => exact Nat.le_refl _
  | cons x limits ih =>
    rw [List.map_cons, List.nodup_cons] at hnodup
    have hrest := ih hnodup.2 (d.set x.key (d.stored x.key ++ [now]))
    -- the other keys are in the table just if they were before
    have hothers : ((limits.map ScopeLimit.key).filter fun key =>
        ((d.set x.key (d.stored x.key ++ [now])).get? key).isNone) =
        (limits.map ScopeLimit.key).filter fun key => (d.get? key).isNone := by
      refine List.filter_congr fun key hkey => ?_
      rw [OrderedDict.get?_set, if_neg fun heq : key = x.key => hnodup.1 (heq ▸ hkey)]
    rw [hothers] at hrest
    rw [chargeScopes, List.foldl_cons, List.map_cons]
    refine hrest.trans ?_
    cases hget : d.get? x.key with
    | none =>
      rw [OrderedDict.length_set_of_none hget, List.filter_cons_of_pos (by rw [hget]; rfl),
        List.length_cons]
      omega
    | some events =>
      rw [OrderedDict.length_set_of_some (by rw [hget]; exact Option.some_ne_none _),
        List.filter_cons_of_neg (by rw [hget]; exact Bool.false_ne_true)]

/-- What a check does: it is denied after pruning, or the scopes are charged. -/
inductive Attempted (l : MultiScopeRateLimiter) (now : ℚ) (limits : List ScopeLimit)
    (d : Table String ℚ) : Option Denial → Table String ℚ → Prop
  | limit {d' : Table String ℚ} (x : ScopeLimit) (oldest : ℚ) (events : List ℚ) (mem : x ∈ limits)
      (pruned : Table.Pruned id (l.windowSeconds : ℚ) now d d')
      (counted : l.counted now d x.key = oldest :: events)
      (stored : d'.stored x.key = oldest :: events) (le : x.limit ≤ (oldest :: events).length) :
      Attempted l now limits d (some (.limit x oldest)) d'
  | capacity {d' : Table String ℚ} (pruned : Table.Pruned id (l.windowSeconds : ℚ) now d d')
      (full : l.maxKeys < (d'.sweep id (l.windowSeconds : ℚ) now).length + (newKeys limits d').length) :
      Attempted l now limits d (some .capacity) (d'.sweep id (l.windowSeconds : ℚ) now)
  | admitted {d' : Table String ℚ} (pruned : Table.Pruned id (l.windowSeconds : ℚ) now d d')
      (room : ∀ x ∈ limits, d'.stored x.key = [] ∨ (d'.stored x.key).length < x.limit)
      (fits : d'.length + (newKeys limits d').length ≤ l.maxKeys) :
      Attempted l now limits d none (chargeScopes now limits d')

theorem attempted (l : MultiScopeRateLimiter) (now : ℚ) (limits : List ScopeLimit)
    (d : Table String ℚ) :
    l.Attempted now limits d (l.attempt now limits d).1 (l.attempt now limits d).2 := by
  have hchecked := checked l now limits d
  rw [attempt]
  generalize l.checkScopes now limits d = result at hchecked
  obtain ⟨o, d₁⟩ := result
  cases o with
  | some denial =>
    obtain ⟨x, hx, oldest, events, rfl, hevents, hcurrent, hle⟩ := hchecked.reached denial rfl
    exact .limit x oldest events hx hchecked.pruned hevents (hcurrent.stored.trans hevents) hle
  | none =>
    dsimp only at hchecked ⊢
    -- the keys of the request are in the table after the sweep just if they were before
    have hnew : newKeys limits (d₁.sweep id (l.windowSeconds : ℚ) now) = newKeys limits d₁ := by
      refine congrArg List.dedup (List.filter_congr fun key hkey => ?_)
      obtain ⟨x, hx, rfl⟩ := List.mem_map.1 hkey
      have hcurrent := (hchecked.passed rfl x hx).1
      rw [hcurrent, hcurrent.trans (.sweep d₁)]
    have hroom : ∀ d', Table.Pruned id (l.windowSeconds : ℚ) now d₁ d' → ∀ x ∈ limits,
        d'.stored x.key = [] ∨ (d'.stored x.key).length < x.limit := by
      intro d' hp x hx
      obtain ⟨hcurrent, hroom⟩ := hchecked.passed rfl x hx
      rw [(hcurrent.trans hp).stored]
      exact hroom
    by_cases hfull : l.maxKeys < d₁.length + (newKeys limits d₁).length
    · rw [if_pos hfull]
      split
      · rename_i hstill
        exact .capacity hchecked.pruned hstill
      · rename_i hfits
        refine .admitted (hchecked.pruned.trans (.sweep d₁)) (hroom _ (.sweep d₁)) ?_
        rw [hnew]
        exact Nat.le_of_not_lt hfits
    · rw [if_neg hfull, if_neg hfull]
      exact .admitted hchecked.pruned (hroom _ (.refl d₁)) (Nat.le_of_not_lt hfull)

/-! ### Invariant -/

variable {limitOf : String → ℕ} {charged : String → List ℚ}

/-- The charges after a check. -/
def charge (charged : String → List ℚ) (step : ScopeStep) (key : String) : List ℚ :=
  if step.decision.allowed ∧ key ∈ step.keys then charged key ++ [step.now] else charged key

/-- What is stored are the charges, as far as they count. -/
structure Inv (l : MultiScopeRateLimiter) (limitOf : String → ℕ) (now : ℚ)
    (charged : String → List ℚ) (d : Table String ℚ) : Prop where
  agree : ∀ k, Agree id (l.windowSeconds : ℚ) now (d.stored k) (charged k)
  bounded : ∀ k, Bounded id (l.windowSeconds : ℚ) (limitOf k) (charged k)
  length_le : ∀ k, (d.stored k).length ≤ limitOf k
  times_le : ∀ k, ∀ t ∈ d.stored k, t ≤ now
  keys_le : d.length ≤ l.maxKeys

theorem Inv.empty : l.Inv limitOf now (fun _ => []) .empty where
  agree := fun _ => rfl
  bounded := fun _ => .nil
  length_le := fun _ => Nat.zero_le _
  times_le := fun _ _ hmem => absurd hmem List.not_mem_nil
  keys_le := Nat.zero_le _

theorem Inv.mono (h : l.Inv limitOf now charged d) (hle : now ≤ now') :
    l.Inv limitOf now' charged d :=
  { h with
    agree := fun k => (h.agree k).mono hle
    times_le := fun k t hmem => (h.times_le k t hmem).trans hle }

theorem Inv.pruned (h : l.Inv limitOf now charged d)
    (hp : Table.Pruned id (l.windowSeconds : ℚ) now d d') : l.Inv limitOf now charged d' where
  agree := fun k => (hp.agree k).trans (h.agree k)
  bounded := h.bounded
  length_le := fun k => (hp.suffix k).length_le.trans (h.length_le k)
  times_le := fun k t hmem => h.times_le k t ((hp.suffix k).subset hmem)
  keys_le := hp.length_le.trans h.keys_le

theorem Inv.admitted (h : l.Inv limitOf now charged d) (hadmissible : l.Admissible limitOf limits)
    (hroom : ∀ x ∈ limits, d.stored x.key = [] ∨ (d.stored x.key).length < x.limit)
    (hfits : d.length + (newKeys limits d).length ≤ l.maxKeys) :
    l.Inv limitOf now
      (fun k => if k ∈ limits.map ScopeLimit.key then charged k ++ [now] else charged k)
      (chargeScopes now limits d) := by
  have hlt : ∀ k ∈ limits.map ScopeLimit.key, (d.stored k).length < limitOf k := by
    intro k hk
    obtain ⟨x, hx, rfl⟩ := List.mem_map.1 hk
    rw [← hadmissible.limit_eq x hx]
    rcases hroom x hx with hnil | hlt
    · rw [hnil]
      exact hadmissible.pos x hx
    · exact hlt
  have hstored : ∀ k, (chargeScopes now limits d).stored k =
      if k ∈ limits.map ScopeLimit.key then d.stored k ++ [now] else d.stored k :=
    fun k => stored_chargeScopes hadmissible.nodup d
  refine ⟨fun k => ?_, fun k => ?_, fun k => ?_, fun k t hmem => ?_,
    (length_chargeScopes_le hadmissible.nodup d).trans hfits⟩
  · rw [hstored]
    split
    · exact (h.agree k).append _
    · exact h.agree k
  · split
    · rename_i hk
      exact (h.bounded k).append (Nat.lt_of_le_of_lt (h.agree k).countP_le (hlt k hk))
    · exact h.bounded k
  · rw [hstored]
    split
    · rename_i hk
      rw [List.length_append]
      exact hlt k hk
    · exact h.length_le k
  · rw [hstored] at hmem
    split at hmem
    · rcases List.mem_append.1 hmem with hmem | hmem
      · exact h.times_le k t hmem
      · rw [List.mem_singleton.1 hmem]
    · exact h.times_le k t hmem

/-! ### One check -/

theorem step_after : (l.step now limits d).after = (l.attempt now limits d).2 := rfl

theorem check_fst : (l.check now limits d).1 =
    ((l.attempt now limits d).1.map (l.decision now)).getD ⟨true, none, 0⟩ := rfl

theorem allowed_step : (l.step now limits d).decision.allowed = (l.attempt now limits d).1.isNone := by
  show (l.check now limits d).1.allowed = _
  rw [check]
  obtain ⟨o, d'⟩ := l.attempt now limits d
  cases o with
  | none => rfl
  | some denial => cases denial <;> rfl

theorem Inv.step (h : l.Inv limitOf now charged d) (hle : now ≤ now')
    (hadmissible : l.Admissible limitOf limits) :
    l.Inv limitOf now' (charge charged (l.step now' limits d)) (l.step now' limits d).after := by
  replace h := h.mono hle
  have hcharge : charge charged (l.step now' limits d) = fun k =>
      if (l.attempt now' limits d).1.isNone = true ∧ k ∈ limits.map ScopeLimit.key then
        charged k ++ [now'] else charged k := by
    funext k
    rw [charge, allowed_step]
    rfl
  have hattempted := attempted l now' limits d
  rw [hcharge, step_after]
  generalize l.attempt now' limits d = result at hattempted
  obtain ⟨o, d'⟩ := result
  cases hattempted with
  | limit x oldest events mem pruned counted stored le =>
    simp only [Option.isNone_some, Bool.false_eq_true, false_and, if_false]
    exact h.pruned pruned
  | capacity pruned full =>
    simp only [Option.isNone_some, Bool.false_eq_true, false_and, if_false]
    exact h.pruned (pruned.trans (.sweep _))
  | admitted pruned room fits =>
    simp only [Option.isNone_none, true_and]
    exact (h.pruned pruned).admitted hadmissible room fits

theorem check_of_denied (h : (l.attempt now limits d).1 = some denial) :
    (l.check now limits d).1 = l.decision now denial := by
  rw [check_fst, h]
  rfl

theorem pruned_of_denied (h : (l.attempt now limits d).1.isNone = false) :
    Table.Pruned id (l.windowSeconds : ℚ) now d (l.attempt now limits d).2 := by
  have hattempted := attempted l now limits d
  generalize l.attempt now limits d = result at hattempted h
  obtain ⟨o, d'⟩ := result
  cases hattempted with
  | limit x oldest events mem pruned counted stored le => exact pruned
  | capacity pruned full => exact pruned.trans (.sweep _)
  | admitted pruned room fits => cases h

/-- The limit that denied is not reached after the wait. -/
theorem entry_ne_of_limit (h : l.Inv limitOf now charged d)
    (hadmissible : l.Admissible limitOf limits) {oldest : ℚ} {events : List ℚ} (hx : x ∈ limits)
    (hstored : d.stored x.key = oldest :: events)
    (hwait : now + (l.decision now (.limit x oldest)).retryAfterSeconds ≤ now')
    (hdenied : (l.attempt now' limits d).1 = some denial) : denial.entry ≠ some x := by
  have hlength := h.length_le x.key
  have hold : oldest ≤ now' - l.windowSeconds := by
    have hretry : (truncate (oldest + l.windowSeconds - now) : ℚ) + 1 ≤
        ((l.decision now (.limit x oldest)).retryAfterSeconds : ℚ) := by
      exact_mod_cast le_max_right (1 : ℤ) _
    have hlt := lt_truncate_add_one (oldest + l.windowSeconds - now)
    linarith
  have hcounted : (l.counted now' d x.key).length < x.limit := by
    have hsuffix : (l.counted now' d x.key).length ≤ events.length := by
      rw [counted, hstored, prune_cons_of_le hold]
      exact (prune_suffix events).length_le
    rw [hstored, ← hadmissible.limit_eq x hx] at hlength
    exact Nat.lt_of_le_of_lt hsuffix hlength
  have hattempted := attempted l now' limits d
  rw [hdenied] at hattempted
  generalize (l.attempt now' limits d).2 = d' at hattempted
  cases hattempted with
  | limit y oldest' events' mem pruned hcounted' stored le =>
    intro heq
    obtain rfl : y = x := Option.some.inj heq
    rw [← hcounted'] at le
    exact Nat.lt_irrefl _ (Nat.lt_of_lt_of_le hcounted le)
  | capacity pruned full =>
    intro heq
    cases heq

/-- A table that was full of recent keys has room after a whole window. -/
theorem admitted_of_capacity (h : l.Inv limitOf now charged d)
    (hadmissible : l.Admissible limitOf limits)
    (hwait : now + (l.decision now .capacity).retryAfterSeconds ≤ now') :
    (l.attempt now' limits d).1 = none := by
  have hold : now ≤ now' - (l.windowSeconds : ℚ) := le_sub_iff_add_le.2 hwait
  have hnil : ∀ key, l.counted now' d key = [] := fun key =>
    prune_eq_nil fun t ht => (h.times_le key t ht).trans hold
  have hattempted := attempted l now' limits d
  generalize l.attempt now' limits d = result at hattempted
  obtain ⟨o, d'⟩ := result
  cases hattempted with
  | limit x oldest events mem pruned counted stored le =>
    rw [hnil] at counted
    cases counted
  | @capacity d₁ pruned full =>
    have hempty := Table.length_sweep_eq_zero fun key => (pruned.prune_stored key).trans (hnil key)
    have hnew := length_newKeys_le limits d₁
    have hle := hadmissible.length_le
    omega
  | admitted pruned room fits => rfl

theorem entry_ne_of_denied {denial' : Denial} (hdenial : (l.attempt now limits d).1 = some denial)
    (h : l.Inv limitOf now charged (l.attempt now limits d).2)
    (hadmissible : l.Admissible limitOf limits)
    (hwait : now + (l.decision now denial).retryAfterSeconds ≤ now')
    (hdenied : (l.attempt now' limits (l.attempt now limits d).2).1 = some denial') :
    denial'.entry ≠ denial.entry := by
  have hattempted := attempted l now limits d
  generalize l.attempt now limits d = result at hattempted hdenial h hdenied
  obtain ⟨o, d'⟩ := result
  cases hattempted with
  | limit x oldest events mem pruned counted stored le =>
    cases hdenial
    exact entry_ne_of_limit h hadmissible mem stored hwait hdenied
  | capacity pruned full =>
    cases hdenial
    rw [admitted_of_capacity h hadmissible hwait] at hdenied
    cases hdenied
  | admitted pruned room fits => cases hdenial

variable {calls : List (ℚ × List ScopeLimit)} {past : List ScopeStep} {step : ScopeStep}

/-! ### Whole runs -/

theorem exists_inv_of_mem (h : l.Inv limitOf now charged d)
    (hclock : (now :: calls.map Prod.fst).Pairwise (· ≤ ·))
    (hadmissible : ∀ call ∈ calls, l.Admissible limitOf call.2) (hmem : step ∈ l.run d calls) :
    ∃ charged, l.Inv limitOf step.now charged step.before ∧ l.Admissible limitOf step.limits ∧
      step = l.step step.now step.limits step.before := by
  induction calls generalizing now d charged with
  | nil => cases hmem
  | cons e calls ih =>
    obtain ⟨now', limits⟩ := e
    obtain ⟨hfirst, hrest⟩ := List.pairwise_cons.1 hclock
    obtain ⟨hlimits, hothers⟩ := List.forall_mem_cons.1 hadmissible
    have hle : now ≤ now' := hfirst now' List.mem_cons_self
    rcases List.mem_cons.1 hmem with rfl | hmem
    · exact ⟨charged, h.mono hle, hlimits, rfl⟩
    · exact ih (h.step hle hlimits) hrest hothers hmem

theorem bounded_of_prefix (h : l.Inv limitOf now charged d)
    (hclock : (now :: calls.map Prod.fst).Pairwise (· ≤ ·))
    (hadmissible : ∀ call ∈ calls, l.Admissible limitOf call.2) (hpast : past <+: l.run d calls) :
    Bounded id (l.windowSeconds : ℚ) (limitOf key) (past.foldl charge charged key) := by
  induction calls generalizing now d charged past with
  | nil =>
    rw [List.prefix_nil.1 hpast]
    exact h.bounded key
  | cons e calls ih =>
    obtain ⟨now', limits⟩ := e
    obtain ⟨hfirst, hrest⟩ := List.pairwise_cons.1 hclock
    obtain ⟨hlimits, hothers⟩ := List.forall_mem_cons.1 hadmissible
    have hle : now ≤ now' := hfirst now' List.mem_cons_self
    cases past with
    | nil => exact h.bounded key
    | cons step past =>
      rw [run] at hpast
      obtain ⟨rfl, hpast'⟩ := List.cons_prefix_cons.1 hpast
      rw [List.foldl_cons]
      exact ih (h.step hle hlimits) hrest hothers hpast'

/-- The charges of a key are the times of the requests that were admitted with it. -/
theorem foldl_charge (past : List ScopeStep) (charged : String → List ℚ) (key : String) :
    past.foldl charge charged key = charged key ++
      (past.filter fun step => step.decision.allowed ∧ key ∈ step.keys).map ScopeStep.now := by
  induction past generalizing charged with
  | nil => simp
  | cons step past ih =>
    rw [List.foldl_cons, ih, charge, List.filter_cons]
    split
    · rename_i hadmitted
      rw [if_pos (decide_eq_true hadmitted), List.map_cons, List.append_assoc]
      rfl
    · rename_i hnot
      rw [if_neg (by simpa using hnot)]

/-- A limiter of several scopes never admits more than it may, in any run. -/
theorem scopes_sound {l : MultiScopeRateLimiter} {limitOf : String → ℕ}
    {calls : List (ℚ × List ScopeLimit)} (hclock : (calls.map Prod.fst).Pairwise (· ≤ ·))
    (hadmissible : ∀ call ∈ calls, l.Admissible limitOf call.2) :
    l.Sound limitOf (l.run .empty calls) := by
  obtain ⟨now, hclock⟩ := exists_pairwise_cons hclock
  have hmem : ∀ {step}, step ∈ l.run .empty calls → ∃ charged,
      l.Inv limitOf step.now charged step.before ∧ l.Admissible limitOf step.limits ∧
        step = l.step step.now step.limits step.before :=
    fun hstep => exists_inv_of_mem Inv.empty hclock hadmissible hstep
  refine ⟨fun past hpast key t => ?_, fun step hstep hdenied key => ?_, fun step hstep => ?_,
    fun step hstep denial hdenial => ?_⟩
  · have hbounded : (past.foldl charge (fun _ => []) key).countP
        (inWindow id (l.windowSeconds : ℚ) t) ≤ limitOf key :=
      bounded_of_prefix Inv.empty hclock hadmissible hpast t
    rw [foldl_charge, List.nil_append, List.countP_map, List.countP_filter] at hbounded
    rw [← List.countP_eq_length_filter]
    refine (List.countP_mono_left fun step _ hstep => ?_).trans hbounded
    obtain ⟨hallowed, hkey, hwindow⟩ := of_decide_eq_true hstep
    rw [Bool.and_eq_true]
    exact ⟨decide_eq_true hwindow, decide_eq_true ⟨hallowed, hkey⟩⟩
  · obtain ⟨charged, hinv, hlimits, heq⟩ := hmem hstep
    rw [heq, allowed_step] at hdenied
    rw [heq, step_after]
    have hpruned := pruned_of_denied hdenied
    exact ⟨hpruned.suffix key, hpruned.agree key⟩
  · obtain ⟨charged, hinv, hlimits, heq⟩ := hmem hstep
    rw [heq]
    exact (hinv.step (le_refl _) hlimits).keys_le
  · obtain ⟨charged, hinv, hlimits, heq⟩ := hmem hstep
    have hafter := hinv.step (le_refl _) hlimits
    rw [← heq] at hafter
    have hattempt : (l.attempt step.now step.limits step.before).1 = some denial := by
      rw [heq] at hdenial
      exact hdenial
    have hdecision : step.decision = l.decision step.now denial := by
      rw [heq]
      exact check_of_denied hattempt
    refine ⟨hdecision, fun now' hwait => ⟨fun denial' hdenied => ?_, ?_⟩⟩
    · rw [hdecision] at hwait
      rw [heq, step_after, ← heq] at hafter hdenied
      exact entry_ne_of_denied hattempt hafter hlimits hwait hdenied
    · rintro rfl
      rw [hdecision] at hwait
      rw [check_fst, admitted_of_capacity hafter hlimits hwait]
      rfl

/-- A token with one request in a minute and its user with two. -/
def sampleLimits : List ScopeLimit := [⟨"token", "a", 1⟩, ⟨"user", "u", 2⟩]

/-- A window of a minute, with two keys at most. -/
def sampleLimiter : MultiScopeRateLimiter := ⟨60, 2⟩

/-- One request a minute for one token, two for the others. -/
def sampleLimitOf (key : String) : ℕ := if key = "token:a" then 1 else 2

theorem admissible_sample : sampleLimiter.Admissible sampleLimitOf sampleLimits where
  nodup := by decide
  length_le := by decide
  pos := by decide
  limit_eq := by decide

theorem scopes_sound_sample : sampleLimiter.Sound sampleLimitOf
    (sampleLimiter.run .empty [(0, sampleLimits), (1 / 2, sampleLimits)]) := by
  refine scopes_sound (by decide +kernel) fun call hcall => ?_
  simp only [List.mem_cons, List.not_mem_nil, or_false] at hcall
  rcases hcall with rfl | rfl
  · exact admissible_sample
  · exact admissible_sample

end MultiScopeRateLimiter

end ForgejoMcp.Auth
