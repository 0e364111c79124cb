import ForgejoMcp.Runtime.InvocationCoordinator

/-! # Graceful shutdown

No critical section of the coordinator suspends with the lock, so no coroutine ever waits for it:
the exit of an invocation runs without a suspension, and no cancellation can hit it. -/

namespace ForgejoMcp.Runtime

open Asyncio

/-- The coroutine waits for the lock. -/
def Position.locking : Position → Bool
  | .entering _ | .leaving _ _ | .closing _ | .opening _ | .reacquiring _ _ => true
  | _ => false

/-- The coroutine of the call has such a suspension. -/
def Position.OfCall : Position → Call → Prop
  | .inside, call => call = .invocation
  | .waiting _, call | .abandoning, call => ∃ timeoutSeconds, call = .waitForIdle timeoutSeconds
  | _, _ => True

/-- A condition that a piece of a coroutine may leave: the lock is free, and if nobody slept through
an idle coordinator before, then nobody does with the given number of active invocations. -/
structure Settles (c : InvocationCoordinator) (condition : Condition) (active : ℤ) : Prop where
  free : condition.Free
  quiet : (c.active = 0 → c.condition.Quiet) → active = 0 → condition.Quiet

/-- All that a task can do to a coordinator with a free lock. -/
inductive Effect (c : InvocationCoordinator) :
    Call → Position → InvocationCoordinator × Position → Prop
  | entered (haccepting : c.accepting = true) {condition : Condition}
      (hs : Settles c condition (c.active + 1)) :
      Effect c .invocation .created (⟨c.accepting, c.active + 1, condition,
        c.mcpActiveInvocations + 1⟩, .inside)
  | refused (haccepting : c.accepting = false) {condition : Condition}
      (hs : Settles c condition c.active) :
      Effect c .invocation .created (c.withCondition condition, .done .shuttingDown)
  | exited {outcome : Outcome} (houtcome : outcome ≠ .idle true) {condition : Condition}
      (hs : Settles c condition (c.active - 1)) :
      Effect c .invocation .inside (⟨c.accepting, c.active - 1, condition,
        c.mcpActiveInvocations - 1⟩, .done outcome)
  | closed {condition : Condition} (hs : Settles c condition c.active) :
      Effect c .beginShutdown .created (⟨false, c.active, condition, c.mcpActiveInvocations⟩,
        .done .returned)
  | idle (hactive : c.active = 0) {timeoutSeconds : ℤ} {p : Position} (hp : p.admitted = false)
      (hrunning : ∀ outcome, p ≠ .done outcome) {condition : Condition}
      (hs : Settles c condition c.active) :
      Effect c (.waitForIdle timeoutSeconds) p (c.withCondition condition, .done (.idle true))
  | waits {timeoutSeconds : ℤ} {p p' : Position} (hp : p.admitted = false)
      (hrunning : ∀ outcome, p ≠ .done outcome) (hp' : p' = .abandoning ∨ ∃ n, p' = .waiting n)
      {condition : Condition} (hs : Settles c condition c.active) :
      Effect c (.waitForIdle timeoutSeconds) p (c.withCondition condition, p')
  | failed {call : Call} {p : Position} (hp : p.admitted = false)
      (hrunning : ∀ outcome, p ≠ .done outcome) {outcome : Outcome}
      (houtcome : outcome = .cancelled ∨ outcome = .idle false) {condition : Condition}
      (hs : Settles c condition c.active) :
      Effect c call p (c.withCondition condition, .done outcome)
  /-- The task is cancelled, but has not run yet. -/
  | stays {call : Call} {p : Position} (hrunning : ∀ outcome, p ≠ .done outcome)
      {condition : Condition} (hs : Settles c condition c.active) :
      Effect c call p (c.withCondition condition, p)

namespace Settles

variable {c : InvocationCoordinator} {condition : Condition} {active : ℤ}

theorem same (h : c.condition.Free) (hactive : active = 0 → c.active = 0) :
    Settles c c.condition active :=
  ⟨h, fun hq ha => hq (hactive ha)⟩

/-- A section that notifies nobody, or that does so when the coordinator is idle. -/
theorem released (hheld : condition.Held)
    (hq : (c.active = 0 → c.condition.Quiet) → active = 0 → condition.Quiet) :
    Settles c condition.release active where
  free := hheld.released
  quiet hc ha := by
    rw [hheld.release]
    exact hq hc ha

/-- The last one to leave notifies all waiters. -/
theorem notified (hheld : condition.Held) (hq : active ≠ 0 → (c.active = 0 → c.condition.Quiet) →
    active = 0 → condition.Quiet) : Settles c (if active = 0 then condition.notifyAll else
      condition).release active := by
  split
  · exact released (hheld.notify _) fun _ _ => condition.notifyAll_quiet
  · next ha => exact released hheld (hq ha)

theorem replace {condition' : Condition} (h : Settles c condition active)
    (hfree : condition'.Free) (hq : condition.Quiet → condition'.Quiet) :
    Settles c condition' active :=
  ⟨hfree, fun hc ha => hq (h.quiet hc ha)⟩

end Settles

namespace InvocationCoordinator

variable {c : InvocationCoordinator} {held : Condition}

/-- With a free lock, the critical section runs at once. -/
theorem withLock_free (h : c.condition.Free) (suspended : ℕ → Position) (critical : Piece) :
    c.withLock suspended critical = critical (c.withCondition c.condition.taken) := by
  unfold withLock
  rw [h.acquire]

theorem admit_effect (h : held.Held) (hq : c.condition.Quiet → held.Quiet) (hpos : 0 ≤ c.active) :
    Effect c .invocation .created (c.withCondition held).admitInvocation := by
  unfold admitInvocation
  split
  · next haccepting =>
    refine .entered (c := c) haccepting (.released h fun _ ha => ?_)
    exact absurd ha (Int.ne_of_gt (Int.lt_add_one_of_le hpos))
  · next haccepting =>
    exact .refused (c := c) (Bool.eq_false_iff.2 haccepting) (.released h fun hc ha => hq (hc ha))

theorem notifyIfIdle_eq (c : InvocationCoordinator) : c.notifyIfIdle =
    c.withCondition (if c.active = 0 then c.condition.notifyAll else c.condition) := by
  unfold notifyIfIdle
  split <;> rfl

theorem discharge_effect (h : held.Held) {outcome : Outcome} (houtcome : outcome ≠ .idle true) :
    Effect c .invocation .inside ((c.withCondition held).discharge outcome) := by
  rw [discharge, notifyIfIdle_eq]
  exact .exited (c := c) houtcome (.notified h fun hne _ ha => absurd ha hne)

theorem close_effect (h : held.Held) :
    Effect c .beginShutdown .created (c.withCondition held).close := by
  rw [close, notifyIfIdle_eq]
  exact .closed (c := c) (.notified h fun hne _ ha => absurd ha hne)

theorem awaitIdle_effect (h : held.Held) (hq : c.condition.Quiet → held.Quiet)
    {timeoutSeconds : ℤ} {p : Position} (hp : p.admitted = false)
    (hrunning : ∀ outcome, p ≠ .done outcome) :
    Effect c (.waitForIdle timeoutSeconds) p (c.withCondition held).awaitIdle := by
  unfold awaitIdle
  split
  · next hactive =>
    exact .idle (c := c) hactive hp hrunning (.released h fun hc ha => hq (hc ha))
  · next hactive =>
    exact .waits (c := c) hp hrunning (.inr ⟨_, rfl⟩) ⟨h.waited, fun _ ha => absurd ha hactive⟩

/-- The end of the wait of `wait_for_idle`, whether it was notified or cancelled. -/
theorem awaken_effect (h : held.Held) (hq : c.condition.Quiet → held.Quiet)
    {timeoutSeconds : ℤ} {p : Position} (hp : p.admitted = false)
    (hrunning : ∀ outcome, p ≠ .done outcome) (cancelled : Bool) :
    Effect c (.waitForIdle timeoutSeconds) p ((c.withCondition held).awaken cancelled) := by
  unfold awaken
  split
  · exact .failed (c := c) hp hrunning (.inl rfl)
      (.released (h.notify 1) fun hc ha => (hq (hc ha)).notify 1)
  · exact awaitIdle_effect h hq hp hrunning

theorem leave_effect (h : c.condition.Free) {outcome : Outcome} (houtcome : outcome ≠ .idle true) :
    Effect c .invocation .inside (c.leave outcome) := by
  rw [leave, withLock_free h]
  exact discharge_effect h.held houtcome

theorem start_effect (h : c.condition.Free) (hpos : 0 ≤ c.active) (call : Call) :
    Effect c call .created (c.start call) := by
  cases call with
  | invocation =>
    rw [start, withLock_free h]
    exact admit_effect h.held id hpos
  | beginShutdown =>
    rw [start, withLock_free h]
    exact close_effect h.held
  | waitForIdle timeoutSeconds =>
    by_cases htime : timeoutSeconds ≤ 0
    · simp only [start, if_pos htime]
      exact .waits (c := c) rfl (fun _ => Position.noConfusion) (.inl rfl) (.same h id)
    · simp only [start, if_neg htime]
      rw [withLock_free h]
      exact awaitIdle_effect h.held id rfl fun _ => Position.noConfusion

theorem resume_effect (h : c.condition.Free) (hpos : 0 ≤ c.active) {call : Call} {p : Position}
    (hp : p.locking = false) (hcall : p.OfCall call) (hinside : p ≠ .inside)
    (hrunning : ∀ outcome, p ≠ .done outcome) (signal : Signal) :
    Effect c call p (c.resume call p signal) := by
  match p, signal with
  | .created, .value => exact start_effect h hpos call
  | .created, .cancelled =>
    exact .failed (c := c) rfl (fun _ => Position.noConfusion) (.inl rfl) (.same h id)
  | .waiting n, signal =>
    obtain ⟨timeoutSeconds, rfl⟩ := hcall
    have hwoken : (c.withCondition (c.condition.woken n)).condition.Free := h.woken n
    simp only [resume]
    rw [withLock_free hwoken]
    exact awaken_effect hwoken.held (fun hq => hq.woken n) rfl (fun _ => Position.noConfusion) _
  | .abandoning, .value =>
    exact .failed (c := c) rfl (fun _ => Position.noConfusion) (.inr rfl) (.same h id)
  | .abandoning, .cancelled =>
    exact .failed (c := c) rfl (fun _ => Position.noConfusion) (.inl rfl) (.same h id)
  | .inside, _ => exact absurd rfl hinside
  | .done outcome, _ => exact absurd rfl (hrunning outcome)

end InvocationCoordinator

theorem Task.outcome_cases (task : Task) (outcome : Outcome) : task.outcome outcome = outcome ∨
    outcome = .cancelled ∧ task.outcome outcome = .idle false := by
  unfold Task.outcome
  split
  · split
    · exact .inr ⟨rfl, rfl⟩
    · exact .inl rfl
  · exact .inl rfl

/-- The turn of a cancellation into a result of `wait_for_idle`. -/
theorem Effect.outcome {c c' : InvocationCoordinator} {call : Call} {p : Position}
    {outcome : Outcome} (h : Effect c call p (c', .done outcome)) (task : Task) :
    Effect c call p (c', .done (task.outcome outcome)) := by
  rcases task.outcome_cases outcome with heq | ⟨rfl, heq⟩
  · rwa [heq]
  · rw [heq]
    cases h with
    | exited _ hs => exact .exited (by decide) hs
    | waits _ _ hp' => rcases hp' with hp' | ⟨_, hp'⟩ <;> cases hp'
    | failed hp hrunning _ hs => exact .failed hp hrunning (.inr rfl) hs
    | stays hrunning => exact absurd rfl (hrunning _)

/-- What the tasks of a reachable state share. -/
structure Inv (s : State) : Prop where
  free : s.coordinator.condition.Free
  quiet : s.coordinator.active = 0 → s.coordinator.condition.Quiet
  unlocking : ∀ task ∈ s.tasks, task.position.locking = false
  ofCall : ∀ task ∈ s.tasks, task.position.OfCall task.call
  active : s.coordinator.active = s.tasks.countP (·.position.admitted)
  gauge : s.coordinator.mcpActiveInvocations = s.coordinator.active
  closed : ∀ task ∈ s.tasks, task.call = .beginShutdown → task.position = .done .returned →
    s.coordinator.accepting = false

/-- A step of one task: all others stay as they are. -/
def Moves (s s' : State) (t : ℕ) (task task' : Task) : Prop :=
  s.tasks[t]? = some task ∧ s'.tasks = s.tasks.set t task' ∧ task'.call = task.call ∧
    Effect s.coordinator task.call task.position (s'.coordinator, task'.position)

/-- The condition may change further in a way that keeps the lock free. -/
theorem Effect.replace {c c' : InvocationCoordinator} {call : Call} {p p' : Position}
    (h : Effect c call p (c', p')) {condition : Condition} (hfree : condition.Free)
    (hq : c'.condition.Quiet → condition.Quiet) :
    Effect c call p (c'.withCondition condition, p') := by
  cases h with
  | entered haccepting hs => exact .entered haccepting (hs.replace hfree hq)
  | refused haccepting hs => exact .refused haccepting (hs.replace hfree hq)
  | exited houtcome hs => exact .exited houtcome (hs.replace hfree hq)
  | closed hs => exact .closed (hs.replace hfree hq)
  | idle hactive hp hrunning hs => exact .idle hactive hp hrunning (hs.replace hfree hq)
  | waits hp hrunning hp' hs => exact .waits hp hrunning hp' (hs.replace hfree hq)
  | failed hp hrunning houtcome hs => exact .failed hp hrunning houtcome (hs.replace hfree hq)
  | stays hrunning hs => exact .stays hrunning (hs.replace hfree hq)

theorem Effect.settles {c : InvocationCoordinator} {call : Call} {p : Position}
    {r : InvocationCoordinator × Position} (h : Effect c call p r) :
    Settles c r.1.condition r.1.active := by
  cases h <;> assumption

theorem Moves.suspend {s : State} {t : ℕ} {task : Task} (ht : s.tasks[t]? = some task)
    {next : InvocationCoordinator × Position} (mustCancel : Bool)
    (h : Effect s.coordinator task.call task.position next) :
    ∃ task', Moves s (s.suspend t { task with mustCancel } next) t task task' := by
  unfold State.suspend
  split
  · exact ⟨_, ht, rfl, rfl, h.outcome { task with mustCancel }⟩
  · split
    · exact ⟨_, ht, rfl, rfl, h.replace (h.settles.free.complete _ _)
        fun hq => hq.complete _ Future.noConfusion⟩
    · exact ⟨_, ht, rfl, rfl, h⟩

theorem Moves.cancel {s : State} (hi : Inv s) {t : ℕ} {task : Task} (ht : s.tasks[t]? = some task)
    (hrunning : ∀ outcome, task.position ≠ .done outcome) (expiring : Bool) :
    ∃ task', Moves s (s.cancel t { task with expiring }) t task task' := by
  have hs : Settles s.coordinator s.coordinator.condition s.coordinator.active :=
    .same hi.free id
  unfold State.cancel
  split
  · split
    · exact ⟨_, ht, rfl, rfl, .stays hrunning (hs.replace (hi.free.complete _ _)
        fun hq => hq.complete _ Future.noConfusion)⟩
    · exact ⟨_, ht, rfl, rfl, .stays hrunning hs⟩
  · exact ⟨_, ht, rfl, rfl, .stays hrunning hs⟩

/-- A step creates a task or moves one. -/
theorem Step.cases {s s' : State} (hi : Inv s) (h : Step s s') :
    (∃ call, s' = { s with tasks := s.tasks ++ [.new call] }) ∨
      ∃ t task task', Moves s s' t task task' := by
  have hpos : 0 ≤ s.coordinator.active := hi.active ▸ Int.natCast_nonneg _
  cases h with
  | spawn call => exact .inl ⟨call, rfl⟩
  | @resume t task signal ht hready =>
    have hmem := List.mem_of_getElem? ht
    have hinside : task.position ≠ .inside := fun hp => by simp [Task.signal, hp] at hready
    have hrunning : ∀ outcome, task.position ≠ .done outcome :=
      fun outcome hp => by simp [Task.signal, hp] at hready
    exact .inr ⟨t, task, Moves.suspend ht false (InvocationCoordinator.resume_effect hi.free hpos
      (hi.unlocking task hmem) (hi.ofCall task hmem) hinside hrunning signal)⟩
  | @ended t task ht hinside outcome mustCancel houtcome =>
    have hcall : task.call = .invocation := by
      have := hi.ofCall task (List.mem_of_getElem? ht)
      rwa [hinside] at this
    refine .inr ⟨t, task, Moves.suspend ht mustCancel ?_⟩
    rw [hinside, hcall]
    exact InvocationCoordinator.leave_effect hi.free
      (by rcases houtcome with rfl | rfl | rfl <;> exact Outcome.noConfusion)
  | @cancel t task ht hrunning => exact .inr ⟨t, task, Moves.cancel hi ht hrunning task.expiring⟩
  | @expire t task ht hwaiting hexpiring =>
    refine .inr ⟨t, task, Moves.cancel hi ht (fun outcome hp => ?_) true⟩
    obtain ⟨n, b, hw | hw | hw⟩ := hwaiting <;> cases hp.symm.trans hw

namespace Effect

variable {c : InvocationCoordinator} {call : Call} {p : Position}
  {r : InvocationCoordinator × Position}

/-- The active count changes with what the task is admitted to. -/
theorem active (h : Effect c call p r) :
    r.1.active + p.admitted.toNat = c.active + r.2.admitted.toNat := by
  cases h with
  | entered => exact Int.add_zero _
  | refused => rfl
  | exited => exact (Int.sub_add_cancel c.active 1).trans (Int.add_zero _).symm
  | closed => rfl
  | waits hp _ hp' => rcases hp' with rfl | ⟨n, rfl⟩ <;> rw [hp] <;> rfl
  | idle _ hp | failed hp => rw [hp]; rfl
  | stays => rfl

theorem gauge (h : Effect c call p r) (hg : c.mcpActiveInvocations = c.active) :
    r.1.mcpActiveInvocations = r.1.active := by
  cases h <;> simp [hg, InvocationCoordinator.withCondition]

theorem accepting (h : Effect c call p r) (hc : c.accepting = false) : r.1.accepting = false := by
  cases h <;> first | exact hc | rfl

/-- Nobody enters a closed coordinator. -/
theorem admitted (h : Effect c call p r) (hc : c.accepting = false) (hr : r.2.admitted = true) :
    p.admitted = true := by
  cases h with
  | entered haccepting => exact absurd (haccepting.symm.trans hc) Bool.noConfusion
  | waits _ _ hp' => rcases hp' with rfl | ⟨n, rfl⟩ <;> cases hr
  | stays => exact hr
  | _ => cases hr

/-- An invocation leaves only by its end. -/
theorem exits (h : Effect c call p r) (hp : p.admitted = true) :
    r.2.admitted = true ∨ ∃ outcome, r.2 = .done outcome := by
  cases h with
  | entered => exact .inl rfl
  | waits hp' => exact absurd (hp.symm.trans hp') Bool.noConfusion
  | stays => exact .inl hp
  | _ => exact .inr ⟨_, rfl⟩

theorem running (h : Effect c call p r) (outcome : Outcome) : p ≠ .done outcome := by
  cases h with
  | idle _ _ hrunning | waits _ hrunning | failed _ hrunning | stays hrunning =>
    exact hrunning outcome
  | _ => exact Position.noConfusion

theorem idle_eq_zero (h : Effect c call p r) (hr : r.2 = .done (.idle true)) : r.1.active = 0 := by
  cases h with
  | idle hactive => exact hactive
  | exited houtcome => exact absurd (Position.done.inj hr) houtcome
  | waits _ _ hp' => rcases hp' with rfl | ⟨n, rfl⟩ <;> cases hr
  | failed _ _ houtcome => rcases houtcome with rfl | rfl <;> cases hr
  | stays hrunning => exact absurd hr (hrunning _)
  | _ => cases hr

theorem closes (h : Effect c call p r) (hcall : call = .beginShutdown)
    (hr : r.2 = .done .returned) : r.1.accepting = false := by
  cases h with
  | closed => rfl
  | failed _ _ houtcome => rcases houtcome with rfl | rfl <;> cases hr
  | stays hrunning => exact absurd hr (hrunning _)
  | _ => cases hcall

theorem locking (h : Effect c call p r) (hp : p.locking = false) : r.2.locking = false := by
  cases h with
  | waits _ _ hp' => rcases hp' with rfl | ⟨n, rfl⟩ <;> rfl
  | stays => exact hp
  | _ => rfl

theorem ofCall (h : Effect c call p r) (hp : p.OfCall call) : r.2.OfCall call := by
  cases h with
  | entered => exact rfl
  | waits _ _ hp' => rcases hp' with rfl | ⟨n, rfl⟩ <;> exact ⟨_, rfl⟩
  | stays => exact hp
  | _ => trivial

end Effect

/-- One entry of a list is counted, or not, instead of another. -/
theorem countP_set_add {α : Type} (f : α → Bool) {l : List α} {n : ℕ} {a : α} (h : l[n]? = some a)
    (b : α) : (l.set n b).countP f + (f a).toNat = l.countP f + (f b).toNat := by
  obtain ⟨hlt, rfl⟩ := List.getElem?_eq_some_iff.1 h
  have hset := List.countP_set (p := f) (a := b) hlt
  cases ha : f l[n] with
  | false => cases hb : f b <;> simp [hset, ha, hb]
  | true =>
    have hpos := List.countP_pos_iff.2 ⟨l[n], List.getElem_mem hlt, ha⟩
    simp only [ha, if_true] at hset
    cases hb : f b <;> simp [hb] at hset ⊢ <;> omega

theorem Moves.mem {s s' : State} {t : ℕ} {task task' : Task} (h : Moves s s' t task task')
    {task'' : Task} (hmem : task'' ∈ s'.tasks) : task'' ∈ s.tasks ∨ task'' = task' := by
  rw [h.2.1] at hmem
  exact List.mem_or_eq_of_mem_set hmem

theorem Inv.initial : Inv .initial where
  free := Condition.new_free
  quiet _ _ hn := absurd hn List.not_mem_nil
  unlocking _ hmem := absurd hmem List.not_mem_nil
  ofCall _ hmem := absurd hmem List.not_mem_nil
  active := rfl
  gauge := rfl
  closed _ hmem := absurd hmem List.not_mem_nil

theorem Inv.step {s s' : State} (hi : Inv s) (h : Step s s') : Inv s' := by
  rcases h.cases hi with ⟨call, rfl⟩ | ⟨t, task, task', hm⟩
  · have hmem {task : Task} (h : task ∈ s.tasks ++ [.new call]) :
        task ∈ s.tasks ∨ task = .new call := by simpa using h
    exact {
      free := hi.free
      quiet := hi.quiet
      unlocking := fun task h => (hmem h).elim (hi.unlocking task) fun h => h ▸ rfl
      ofCall := fun task h => (hmem h).elim (hi.ofCall task) fun h => h ▸ trivial
      active := by simpa [List.countP_append, Task.new, Position.admitted] using hi.active
      gauge := hi.gauge
      closed := fun task h hcall hdone => (hmem h).elim (fun h => hi.closed task h hcall hdone)
        fun h => by rw [h] at hdone; cases hdone }
  · obtain ⟨ht, htasks, hcall, he⟩ := id hm
    have hold := List.mem_of_getElem? ht
    exact {
      free := he.settles.free
      quiet := he.settles.quiet hi.quiet
      unlocking := fun task'' h => (hm.mem h).elim (hi.unlocking task'')
        fun h => h ▸ he.locking (hi.unlocking task hold)
      ofCall := fun task'' h => (hm.mem h).elim (hi.ofCall task'')
        fun h => h ▸ hcall ▸ he.ofCall (hi.ofCall task hold)
      active := by
        have hcount := countP_set_add (·.position.admitted) ht task'
        have hactive := he.active
        rw [← htasks] at hcount
        have := hi.active
        simp only at hactive
        omega
      gauge := he.gauge hi.gauge
      closed := fun task'' h hcall'' hdone => (hm.mem h).elim
        (fun h => he.accepting (hi.closed task'' h hcall'' hdone))
        fun h => he.closes (hcall ▸ h ▸ hcall'') (h ▸ hdone) }

theorem Inv.steps {s s' : State} (hi : Inv s) (h : Steps s s') : Inv s' := by
  induction h with
  | refl => exact hi
  | tail _ h ih => exact ih.step h

theorem reachable_inv {s : State} (h : Reachable s) : Inv s :=
  Inv.initial.steps h

theorem Steps.trans {s s' s'' : State} (h : Steps s s') (h' : Steps s' s'') : Steps s s'' := by
  induction h' with
  | refl => exact h
  | tail _ h' ih => exact ih.tail h'

/-- The invocation of task `t` has entered and has not exited. -/
def State.Admitted (s : State) (t : ℕ) : Prop :=
  ∃ task, s.tasks[t]? = some task ∧ task.position.admitted = true

/-- Task `t` has ended. -/
def State.Ended (s : State) (t : ℕ) : Prop :=
  ∃ task outcome, s.tasks[t]? = some task ∧ task.position = .done outcome

/-- Where a task of the state after a step comes from. -/
theorem Step.before {s s' : State} (hi : Inv s) (h : Step s s') {t : ℕ} {task' : Task}
    (ht : s'.tasks[t]? = some task') : task'.position = .created ∨
      ∃ task, s.tasks[t]? = some task ∧ (task' = task ∨
        Effect s.coordinator task.call task.position (s'.coordinator, task'.position)) := by
  rcases h.cases hi with ⟨call, rfl⟩ | ⟨u, task, task'', hu, htasks, -, he⟩
  · rw [List.getElem?_append] at ht
    split at ht
    · exact .inr ⟨task', ht, .inl rfl⟩
    · rw [List.mem_singleton.1 (List.mem_of_getElem? ht)]
      exact .inl rfl
  · rw [htasks, List.getElem?_set] at ht
    split at ht
    · next heq =>
      subst heq
      rw [if_pos (List.getElem?_eq_some_iff.1 hu).1] at ht
      obtain rfl := Option.some.inj ht
      exact .inr ⟨task, hu, .inr he⟩
    · exact .inr ⟨task', ht, .inl rfl⟩

/-- What becomes of a task of the state before a step. -/
theorem Step.after {s s' : State} (hi : Inv s) (h : Step s s') {t : ℕ} {task : Task}
    (ht : s.tasks[t]? = some task) : ∃ task', s'.tasks[t]? = some task' ∧ (task' = task ∨
      Effect s.coordinator task.call task.position (s'.coordinator, task'.position)) := by
  have hlt := (List.getElem?_eq_some_iff.1 ht).1
  rcases h.cases hi with ⟨call, rfl⟩ | ⟨u, task₁, task', hu, htasks, -, he⟩
  · exact ⟨task, (List.getElem?_append_left hlt).trans ht, .inl rfl⟩
  · by_cases heq : u = t
    · subst heq
      obtain rfl := Option.some.inj (hu.symm.trans ht)
      exact ⟨task', by rw [htasks, List.getElem?_set_self hlt], .inr he⟩
    · exact ⟨task, by rw [htasks, List.getElem?_set_ne heq, ht], .inl rfl⟩

theorem Step.closed {s s' : State} (hi : Inv s) (h : Step s s')
    (hc : s.coordinator.accepting = false) : s'.coordinator.accepting = false := by
  rcases h.cases hi with ⟨call, rfl⟩ | ⟨t, task, task', -, -, -, he⟩
  · exact hc
  · exact he.accepting hc

theorem Steps.closed {s s' : State} (hi : Inv s) (h : Steps s s')
    (hc : s.coordinator.accepting = false) : s'.coordinator.accepting = false := by
  induction h with
  | refl => exact hc
  | tail hs h ih => exact h.closed (hi.steps hs) ih

/-- After the shutdown has begun, no invocation enters. -/
theorem Step.not_entered {s s' : State} (hi : Inv s) (h : Step s s')
    (hc : s.coordinator.accepting = false) {t : ℕ} (ht : s'.Admitted t) : s.Admitted t := by
  obtain ⟨task', ht, hp⟩ := ht
  rcases h.before hi ht with hnew | ⟨task, ht, rfl | he⟩
  · rw [hnew] at hp
    cases hp
  · exact ⟨task', ht, hp⟩
  · exact ⟨task, ht, he.admitted hc hp⟩

theorem Steps.not_entered {s s' : State} (hi : Inv s) (h : Steps s s')
    (hc : s.coordinator.accepting = false) {t : ℕ} (ht : s'.Admitted t) : s.Admitted t := by
  induction h with
  | refl => exact ht
  | tail hs h ih => exact ih (h.not_entered (hi.steps hs) (hs.closed hi hc) ht)

/-- An invocation that has entered is inside until its task has ended. -/
theorem Step.admitted_or_ended {s s' : State} (hi : Inv s) (h : Step s s') {t : ℕ}
    (ht : s.Admitted t ∨ s.Ended t) : s'.Admitted t ∨ s'.Ended t := by
  rcases ht with ⟨task, ht, hp⟩ | ⟨task, outcome, ht, hp⟩
  · obtain ⟨task', ht', rfl | he⟩ := h.after hi ht
    · exact .inl ⟨task', ht', hp⟩
    · rcases he.exits hp with hp' | ⟨outcome, hp'⟩
      · exact .inl ⟨task', ht', hp'⟩
      · exact .inr ⟨task', outcome, ht', hp'⟩
  · obtain ⟨task', ht', rfl | he⟩ := h.after hi ht
    · exact .inr ⟨task', outcome, ht', hp⟩
    · exact absurd hp (he.running outcome)

theorem Steps.admitted_or_ended {s s' : State} (hi : Inv s) (h : Steps s s') {t : ℕ}
    (ht : s.Admitted t) : s'.Admitted t ∨ s'.Ended t := by
  induction h with
  | refl => exact .inl ht
  | tail hs h ih => exact h.admitted_or_ended (hi.steps hs) ih

theorem Inv.not_admitted {s : State} (hi : Inv s) (ha : s.coordinator.active = 0) (t : ℕ) :
    ¬ s.Admitted t := by
  rintro ⟨task, ht, hp⟩
  have hpos : 0 < s.tasks.countP (·.position.admitted) :=
    List.countP_pos_iff.2 ⟨task, List.mem_of_getElem? ht, hp⟩
  have hactive := hi.active
  omega

/-- A `wait_for_idle` returns true in the step from `s` to `s'`. -/
def State.Idles (s s' : State) : Prop :=
  ∃ (t : ℕ) (task' : Task), s'.tasks[t]? = some task' ∧ task'.position = .done (.idle true) ∧
    ∀ task : Task, s.tasks[t]? = some task → task.position ≠ .done (.idle true)

theorem Step.idle {s s' : State} (hi : Inv s) (h : Step s s') (hidle : s.Idles s') :
    s'.coordinator.active = 0 := by
  obtain ⟨t, task', ht', hp', hbefore⟩ := hidle
  rcases h.before hi ht' with hnew | ⟨task, ht, rfl | he⟩
  · cases hnew.symm.trans hp'
  · exact absurd hp' (hbefore task' ht)
  · exact he.idle_eq_zero hp'

/-- Graceful shutdown admits nothing and loses nobody.  The active count is the number of
invocations that have entered and have not exited; a `begin_shutdown` that has returned has closed
the coordinator, for ever; no invocation enters a closed coordinator; and when `wait_for_idle`
returns true in a closed coordinator, every invocation that ever entered has ended. -/
theorem graceful_shutdown {s : State} (h : Reachable s) :
    s.coordinator.active = s.tasks.countP (·.position.admitted) ∧
    (∀ task ∈ s.tasks, task.call = .beginShutdown → task.position = .done .returned →
      s.coordinator.accepting = false) ∧
    (s.coordinator.accepting = false →
      (∀ s', Steps s s' → s'.coordinator.accepting = false) ∧
      (∀ s' s'', Steps s s' → Step s' s'' → ∀ t, s''.Admitted t → s'.Admitted t) ∧
      ∀ s', Step s s' → s.Idles s' → ∀ s'', Steps s' s'' → ∀ t s₀, Reachable s₀ → Steps s₀ s'' →
        s₀.Admitted t → s''.Ended t) := by
  have hi := reachable_inv h
  refine ⟨hi.active, hi.closed, fun hc => ⟨fun s' hs => hs.closed hi hc,
    fun s' s'' hs hstep t => hstep.not_entered (hi.steps hs) (hs.closed hi hc), ?_⟩⟩
  intro s' hstep hidle s'' hs t s₀ h₀ hs₀ ht
  have hi' := hi.step hstep
  have hempty := hi'.not_admitted (hstep.idle hi hidle) t
  rcases hs₀.admitted_or_ended (reachable_inv h₀) ht with ht'' | hended
  · exact absurd (hs.not_entered hi' (hstep.closed hi hc) ht'') hempty
  · exact hended

/-- Task `t` runs, if it is ready. -/
def State.run (s : State) (t : ℕ) : State :=
  match s.tasks[t]? with
  | none => s
  | some task =>
    match task.signal s.coordinator.condition with
    | none => s
    | some signal => s.suspend t { task with mustCancel := false }
      (s.coordinator.resume task.call task.position signal)

theorem Steps.run {s₀ s : State} (h : Steps s₀ s) (t : ℕ) : Steps s₀ (s.run t) := by
  unfold State.run
  split
  · exact h
  · next ht =>
    split
    · exact h
    · next hready => exact h.tail (.resume ht hready)

/-- The shutdown begins with an invocation inside. -/
def sampleClosing : State :=
  (({ State.initial with tasks := [.new .invocation, .new .beginShutdown, .new (.waitForIdle 30)] }
    |>.run 0).run 1).run 2

/-- The invocation is cancelled and leaves. -/
def sampleDrained : State :=
  sampleClosing.suspend 0 ⟨.invocation, .inside, false, 0, false⟩
    (sampleClosing.coordinator.leave .cancelled)

theorem sampleClosing_reachable : Reachable sampleClosing :=
  .run (.run (.run (.tail (.tail (.tail (.refl _) (.spawn _ _)) (.spawn _ _)) (.spawn _ _)) 0) 1) 2

theorem sampleDrained_step : Step sampleClosing sampleDrained :=
  @Step.ended sampleClosing 0 ⟨.invocation, .inside, false, 0, false⟩ rfl rfl .cancelled false
    (.inr (.inr rfl))

theorem graceful_shutdown_sample : ∃ s s', Reachable s ∧ s.coordinator.accepting = false ∧
    Step s s' ∧ s.Idles s' ∧ s'.Ended 0 := by
  have hdrained : Reachable sampleDrained := .tail sampleClosing_reachable sampleDrained_step
  have hstep : Step sampleDrained (sampleDrained.run 2) :=
    @Step.resume sampleDrained 2 _ .value rfl rfl
  have hidle : sampleDrained.Idles (sampleDrained.run 2) :=
    ⟨2, _, rfl, rfl, fun task ht hp => by obtain rfl := Option.some.inj ht; cases hp⟩
  exact ⟨_, _, hdrained, rfl, hstep, hidle,
    ((graceful_shutdown hdrained).2.2 rfl).2.2 _ hstep hidle _ (.refl _) 0 sampleClosing
      sampleClosing_reachable (.tail (.tail (.refl _) sampleDrained_step) hstep) ⟨_, rfl, rfl⟩⟩

/-- No `wait_for_idle` sleeps through an idle coordinator: each one that waits has been woken. -/
theorem idle_waiter_woken {s : State} (h : Reachable s) (ha : s.coordinator.active = 0) :
    ∀ n ∈ s.coordinator.condition.waiting, s.coordinator.condition.future n ≠ .pending :=
  (reachable_inv h).quiet ha

end ForgejoMcp.Runtime
