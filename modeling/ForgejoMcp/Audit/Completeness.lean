import ForgejoMcp.Audit.Invocations
import ForgejoMcp.Transactions.Run

/-!
# Completeness of the invocation audit

A call ends with a completed record unless its completion is lost: the result of the tool cannot be
summarised, an exception passes every handler, or a commit is cancelled before it takes effect.
-/

namespace ForgejoMcp.Audit

open Python Transactions

/-! ### Surroundings of a call -/

/-- How the wait for a commit ends.  Commits succeed, but a cancelled wait does not tell whether the
commit has taken effect. -/
inductive CommitFate
  | done
  | cancelled (landed : Bool)
  deriving DecidableEq

/-- The commit takes effect. -/
def CommitFate.lands : CommitFate → Bool
  | done => true
  | cancelled landed => landed

/-- Everything a call meets.  A call waits at most once at each place other than a commit. -/
structure Surroundings where
  accessToken : Except Raised (Uuid × Uuid)
  enterInvocation : Except Raised Unit
  exitInvocation : Except Raised Unit
  openSession : Except Raised Unit
  closeSession : Except Raised Unit
  decision : Except Raised ToolAuthorizationDecision
  token : Except Raised (Option LoadedMcpToken)
  redaction : Except Raised RedactionResult
  target : Except Raised Dict
  newId : Uuid
  clock : ℕ → Time
  commits : ℕ → CommitFate
  validation : Except Raised Unit
  execution : Except Raised Dict

/-- An execution of the tool, with the versions of the record committed before it. -/
structure Execution where
  recorded : List ToolInvocation
  outcome : Except Raised Dict

/-- The committed versions of the record, oldest first, and what else a call leaves behind. -/
structure World where
  committed : List ToolInvocation
  executions : List Execution
  attempts : ℕ
  ticks : ℕ

namespace World

/-- Nothing has happened. -/
def start : World := ⟨[], [], 0, 0⟩

/-- The clock was read. -/
def tick (w : World) : World := { w with ticks := w.ticks + 1 }

/-- `session.commit()` with the given fate. -/
def commit (w : World) (fate : CommitFate) (invocation : ToolInvocation) :
    Except Raised Unit × World :=
  (match fate with
    | .done => .ok ()
    | .cancelled _ => .error .cancelled,
   { w with
      committed := if fate.lands then w.committed ++ [invocation] else w.committed
      attempts := w.attempts + 1 })

/-- The tool was executed, with the record as it was committed. -/
def execute (w : World) (outcome : Except Raised Dict) : World :=
  { w with executions := w.executions ++ [⟨w.committed, outcome⟩] }

/-- The committed status of the record. -/
def status? (w : World) : Option InvocationStatus := w.committed.getLast?.map (·.status)

end World

namespace Surroundings

/-- What the surroundings answer to the handler, and what that leaves behind. -/
def answer (s : Surroundings) : ∀ β, Await β → World → β × World
  | _, .accessToken, w => (s.accessToken, w)
  | _, .enterInvocation, w => (s.enterInvocation, w)
  | _, .exitInvocation, w => (s.exitInvocation, w)
  | _, .openSession, w => (s.openSession, w)
  | _, .closeSession, w => (s.closeSession, w)
  | _, .decision _ _, w => (s.decision, w)
  | _, .token _, w => (s.token, w)
  | _, .redactArguments _, w => (s.redaction, w)
  | _, .extractTarget _, w => (s.target, w)
  | _, .newId, w => (.ok s.newId, w)
  | _, .now, w => (.ok (s.clock w.ticks), w.tick)
  | _, .commit invocation, w => w.commit (s.commits w.attempts) invocation
  | _, .validate _ _, w => (s.validation, w)
  | _, .executeTool _ _ _ _, w =>
    (s.execution, w.execute s.execution)

/-- What a call leaves behind when the handler ends. -/
def call (s : Surroundings) (sha256 : List UInt8 → String) (spec : Option ToolSpec) (name : Text)
    (arguments : Dict) : World :=
  ((handleCallTool sha256 spec name arguments).run s.answer .start).2

/-- The decision denies the call; a tool that does not exist is denied unasked. -/
def Denied (s : Surroundings) (spec : Option ToolSpec) : Prop :=
  spec = none ∨ ∃ decision, s.decision = .ok decision ∧ decision.allowed = false

/-- The outcome of validating the arguments and then executing the tool. -/
def attempted (s : Surroundings) : Except Raised Dict :=
  match s.validation with
  | .ok _ => s.execution
  | .error e => .error e

/-- The attempt to execute the tool, seen from outside. -/
def executed (s : Surroundings) (w : World) : World :=
  match s.validation with
  | .ok _ => w.execute s.execution
  | .error _ => w

/-- The outcome of the tool leads to a completion: a result without surrogates, or an exception that
the handler takes. -/
def Completable (s : Surroundings) : Prop :=
  match s.attempted with
  | .ok result => Json.entriesSurrogates result = false
  | .error error => error ≠ .exit

instance (s : Surroundings) : Decidable s.Completable := by
  unfold Completable
  exact match s.attempted with
    | .ok _ => inferInstance
    | .error _ => inferInstance

/-- A call is denied, or nothing takes its completion away. -/
def Undisturbed (s : Surroundings) (spec : Option ToolSpec) : Prop :=
  s.Denied spec ∨ s.commits 0 = .done ∧ s.Completable ∧ (s.commits 1).lands = true

/-- The status a completion gives. -/
def finalStatus (s : Surroundings) : InvocationStatus :=
  match s.attempted with
  | .ok _ => .succeeded
  | .error _ => .failed

end Surroundings

/-- The record is complete: it became terminal once, and its status tells what happened. -/
structure Complete (denied : Prop) (w : World) : Prop where
  once : ∃ past last, w.committed = past ++ [last] ∧ last.status ≠ .pending ∧
    ∀ version ∈ past, version.status = .pending ∧ version.id = last.id
  succeeded : w.status? = some .succeeded ↔ ∃ x ∈ w.executions, ∃ result, x.outcome = .ok result
  denied : w.status? = some .denied ↔ w.executions = [] ∧ denied

/-! ### Runs of the parts -/

section Runs

variable (s : Surroundings) {sha256 : List UInt8 → String} {α : Type} {w : World}

theorem run_await (o : Await (Except Raised α)) (w : World) :
    (await o).run s.answer w = s.answer _ o w := by
  unfold await
  rw [Prog.run_act]
  rcases s.answer _ o w with ⟨_ | _, w'⟩ <;> rfl

theorem run_await_ok {o : Await (Except Raised α)} {a : α} {w' : World}
    (h : s.answer _ o w = (.ok a, w')) {β : Type} (f : α → P β) :
    ((await o).bind f).run s.answer w = (f a).run s.answer w' :=
  Prog.run_bind_ok s.answer ((run_await s o w).trans h) f

theorem run_await_error {o : Await (Except Raised α)} {e : Raised} {w' : World}
    (h : s.answer _ o w = (.error e, w')) {β : Type} (f : α → P β) :
    ((await o).bind f).run s.answer w = (.error e, w') :=
  Prog.run_bind_error s.answer ((run_await s o w).trans h) f

/-- The record commits a version. -/
def Commits (status : InvocationStatus) (id : Uuid) (w w' : World) : Prop :=
  ∃ version : ToolInvocation, version.status = status ∧ version.id = id ∧
    w' = (w.tick.commit (s.commits w.attempts) version).2

theorem run_completeSuccess (sha256 : List UInt8 → String) (result : Dict)
    (invocation : ToolInvocation) (w : World) :
    if Json.entriesSurrogates result then
      ((completeSuccess sha256 invocation result).run s.answer w).2 = w
    else Commits s .succeeded invocation.id w
      ((completeSuccess sha256 invocation result).run s.answer w).2 := by
  have hsummary : (summarizeResult sha256 result).isSome = !Json.entriesSurrogates result :=
    summarizeResult_isSome
  unfold completeSuccess
  split
  · rename_i hsurrogates
    rw [hsurrogates] at hsummary
    have hnone : summarizeResult sha256 result = none := by simpa using hsummary
    rw [hnone]
    rfl
  · rename_i hsurrogates
    rw [Bool.eq_false_of_not_eq_true hsurrogates] at hsummary
    obtain ⟨summary, hsome⟩ := Option.isSome_iff_exists.1 hsummary
    rw [hsome]
    simp only [Prog.bind_eq, Prog.require_some, Prog.ret_bind]
    rw [run_await_ok s (o := .now) rfl, run_await]
    refine ⟨_, ?_, ?_, rfl⟩ <;> rfl

theorem run_completeFailure {error : Raised} {invocation : ToolInvocation} :
    Commits s .failed invocation.id w
      ((completeFailure invocation error).run s.answer w).2 := by
  unfold completeFailure
  rw [Prog.bind_eq, run_await_ok s (o := .now) rfl, run_await]
  refine ⟨_, ?_, ?_, rfl⟩ <;> rfl

theorem run_commit_ret (invocation : ToolInvocation) :
    ((await (.commit invocation)).bind fun _ => Prog.ret invocation).run s.answer w =
      (match s.commits w.attempts with
        | .done => .ok invocation
        | .cancelled _ => .error .cancelled,
      (w.commit (s.commits w.attempts) invocation).2) := by
  have hanswer : s.answer _ (.commit invocation) w =
      w.commit (s.commits w.attempts) invocation := rfl
  rw [Prog.run_bind, run_await, hanswer]
  cases s.commits w.attempts <;> rfl

/-- Recording a decision fails before its commit, or commits the record with its first status. -/
theorem run_recordDecision (tokenId : Uuid) (name : Text) (spec : Option ToolSpec)
    (arguments : Dict) (decision : ToolAuthorizationDecision) (w : World) :
    (∃ e w', w'.committed = w.committed ∧ w'.executions = w.executions ∧
      (recordDecision tokenId name spec arguments decision).run s.answer w = (.error e, w')) ∨
    ∃ invocation : ToolInvocation,
      invocation.status = (if decision.allowed then .pending else .denied) ∧
      (recordDecision tokenId name spec arguments decision).run s.answer w =
        (match s.commits w.attempts with
          | .done => .ok invocation
          | .cancelled _ => .error .cancelled,
        (w.tick.commit (s.commits w.attempts) invocation).2) := by
  unfold recordDecision
  simp only [Prog.bind_eq]
  cases htoken : s.token with
  | error e =>
    rw [run_await_error s (o := .token tokenId) (congrArg (·, w) htoken)]
    exact .inl ⟨e, w, rfl, rfl, rfl⟩
  | ok token =>
    rw [run_await_ok s (o := .token tokenId) (congrArg (·, w) htoken)]
    cases token with
    | none => exact .inl ⟨_, w, rfl, rfl, rfl⟩
    | some token =>
      rw [Prog.require_some, Prog.ret_bind]
      cases hredaction : s.redaction with
      | error e =>
        rw [run_await_error s (o := .redactArguments arguments) (congrArg (·, w) hredaction)]
        exact .inl ⟨e, w, rfl, rfl, rfl⟩
      | ok redacted =>
        rw [run_await_ok s (o := .redactArguments arguments) (congrArg (·, w) hredaction),
          run_await_ok s (o := .now) rfl]
        cases htarget : s.target with
        | error e =>
          rw [run_await_error s (o := .extractTarget arguments) (congrArg (·, w.tick) htarget)]
          exact .inl ⟨e, w.tick, rfl, rfl, rfl⟩
        | ok target =>
          rw [run_await_ok s (o := .extractTarget arguments) (congrArg (·, w.tick) htarget),
            run_await_ok s (o := .newId) rfl]
          refine .inr ⟨_, ?_, run_commit_ret s _⟩
          rfl

theorem run_attempt (userId : Uuid) (spec : ToolSpec) (name : Text) (arguments : Dict)
    (id : Uuid) (f : Dict → P α) :
    ((await (.validate arguments spec.inputSchema)).bind fun _ =>
      (await (.executeTool userId name arguments id)).bind f).run s.answer w =
      match s.attempted with
      | .ok result => (f result).run s.answer (s.executed w)
      | .error e => (.error e, s.executed w) := by
  have hvalidate : s.answer _ (.validate arguments spec.inputSchema) w = (s.validation, w) := rfl
  have hexecute : s.answer _ (.executeTool userId name arguments id) w =
      (s.execution, w.execute s.execution) := rfl
  unfold Surroundings.attempted Surroundings.executed
  rw [Prog.run_bind, run_await, hvalidate]
  cases s.validation with
  | error e => rfl
  | ok _ =>
    dsimp only
    rw [Prog.run_bind, run_await, hexecute]
    cases s.execution <;> rfl

/-- A failed execution completes the record, unless the exception passes the handler. -/
theorem run_executionFailed (invocation : ToolInvocation) {k : CallResult ⊕ Dict → P CallResult}
    (quiet : ∀ response w, ((k (.inl response)).run s.answer w).2 = w) (error : Raised) :
    if error = .exit then (((executionFailed invocation error).bind k).run s.answer w).2 = w
    else Commits s .failed invocation.id w
      (((executionFailed invocation error).bind k).run s.answer w).2 := by
  have hcompleted : ∀ (failure : Raised) (f : Unit → P CallResult),
      (∀ w, ((f ()).run s.answer w).2 = w) → Commits s .failed invocation.id w
        (((completeFailure invocation failure).bind f).run s.answer w).2 := by
    intro failure f hf
    rw [Prog.run_bind_snd s.answer fun _ => hf]
    exact run_completeFailure s
  cases error with
  | exit => rfl
  | schemaValidation =>
    rw [if_neg (by simp), executionFailed, Prog.bind_eq, Prog.bind_assoc]
    exact hcompleted _ _ fun w => quiet _ w
  | cancelled =>
    rw [if_neg (by simp), executionFailed, Prog.bind_eq, Prog.bind_assoc]
    exact hcompleted _ _ fun _ => rfl
  | serviceShuttingDown =>
    rw [if_neg (by simp), executionFailed, Prog.bind_eq, Prog.bind_assoc]
    · exact hcompleted _ _ fun w => quiet _ w
    all_goals simp
  | error e =>
    rw [if_neg (by simp), executionFailed, Prog.bind_eq, Prog.bind_assoc]
    · exact hcompleted _ _ fun w => quiet _ w
    all_goals simp

/-- What the completion of an allowed call makes of the world `w`. -/
def Completes (id : Uuid) (w w' : World) : Prop :=
  ¬s.Completable ∧ w' = s.executed w ∨
    s.Completable ∧ Commits s s.finalStatus id (s.executed w) w'

theorem run_callRecorded {userId : Uuid} {spec : ToolSpec} {name : Text} {arguments : Dict}
    {decision : ToolAuthorizationDecision} (hallowed : decision.allowed = true)
    {invocation : ToolInvocation} :
    Completes s invocation.id w ((callRecorded sha256 userId (some spec) name arguments decision
      invocation).run s.answer w).2 := by
  have hattempt := run_attempt s (w := w) userId spec name arguments invocation.id fun result =>
    (pure (.inr result) : P (CallResult ⊕ Dict))
  unfold callRecorded Completes Surroundings.Completable Surroundings.finalStatus
  rw [hallowed]
  simp only [Prog.bind_eq]
  cases hattempted : s.attempted with
  | ok result =>
    rw [hattempted] at hattempt
    dsimp only at hattempt ⊢
    rw [Prog.run_bind_ok s.answer (Prog.run_handle_ok s.answer hattempt _),
      Prog.run_bind_snd s.answer fun _ _ => rfl]
    have hsuccess := run_completeSuccess s sha256 result invocation (s.executed w)
    split at hsuccess
    · rename_i hsurrogates
      exact .inl ⟨by simp [hsurrogates], hsuccess⟩
    · rename_i hsurrogates
      exact .inr ⟨Bool.eq_false_of_not_eq_true hsurrogates, hsuccess⟩
  | error error =>
    rw [hattempted] at hattempt
    dsimp only at hattempt ⊢
    rw [Prog.run_bind, Prog.run_handle_error s.answer hattempt, ← Prog.run_bind]
    by_cases hexit : error = .exit
    · refine .inl ⟨by simp [hexit], ?_⟩
      exact Eq.mp (if_pos hexit) (run_executionFailed s invocation (fun _ _ => rfl) error)
    · refine .inr ⟨hexit, ?_⟩
      exact Eq.mp (if_neg hexit) (run_executionFailed s invocation (fun _ _ => rfl) error)

theorem run_callRecorded_denied {userId : Uuid} {spec : Option ToolSpec} {name : Text}
    {arguments : Dict} {decision : ToolAuthorizationDecision} (hdenied : decision.allowed = false)
    {invocation : ToolInvocation} :
    ((callRecorded sha256 userId spec name arguments decision invocation).run s.answer
      w).2 = w := by
  unfold callRecorded
  rw [hdenied]
  rfl

theorem run_withInvocationSession (p : P α) :
    ((withInvocationSession p).run s.answer w).2 = w ∨
      ((withInvocationSession p).run s.answer w).2 = (p.run s.answer w).2 := by
  have hexit : ∀ w, ((await .exitInvocation).run s.answer w).2 = w := by
    intro w
    rw [run_await]
    rfl
  have hclose : ∀ w, ((await .closeSession).run s.answer w).2 = w := by
    intro w
    rw [run_await]
    rfl
  have henter : s.answer _ .enterInvocation w = (s.enterInvocation, w) := rfl
  have hopen : s.answer _ .openSession w = (s.openSession, w) := rfl
  unfold withInvocationSession
  rw [Prog.bind_eq, Prog.run_bind, run_await, henter]
  cases s.enterInvocation with
  | error e => exact .inl rfl
  | ok _ =>
    dsimp only
    rw [Prog.run_ensuring_snd s.answer hexit, Prog.bind_eq, Prog.run_bind, run_await, hopen]
    cases s.openSession with
    | error e => exact .inl rfl
    | ok _ =>
      right
      exact Prog.run_ensuring_snd s.answer hclose p w

end Runs

/-! ### Completeness -/

section Call

variable (s : Surroundings) (sha256 : List UInt8 → String) (spec : Option ToolSpec) (name : Text)
  (arguments : Dict)

/-- The final world records nothing, a denial, or an allowed call that was then completed or not. -/
def Ends (denied : Prop) (w : World) : Prop :=
  w.committed = [] ∧ w.executions = [] ∨ ∃ invocation : ToolInvocation,
    denied ∧ invocation.status = .denied ∧
      w = (World.start.tick.commit (s.commits 0) invocation).2 ∨
    ¬denied ∧ invocation.status = .pending ∧
      (s.commits 0 ≠ .done ∧ w = (World.start.tick.commit (s.commits 0) invocation).2 ∨
      s.commits 0 = .done ∧
        Completes s invocation.id (World.start.tick.commit .done invocation).2 w)

theorem ends_of_decision (tokenId userId : Uuid) {decision : ToolAuthorizationDecision}
    (hspec : decision.allowed = true → spec.isSome = true) :
    Ends s (decision.allowed = false) (((recordDecision tokenId name spec arguments decision).bind
      (callRecorded sha256 userId spec name arguments decision)).run s.answer .start).2 := by
  rcases run_recordDecision s tokenId name spec arguments decision .start with
    ⟨e, w', hcommitted, hexecutions, hrun⟩ | ⟨invocation, hstatus, hrun⟩
  · rw [Prog.run_bind_error s.answer hrun]
    exact .inl ⟨hcommitted, hexecutions⟩
  refine .inr ⟨invocation, ?_⟩
  have hattempts : World.start.attempts = 0 := rfl
  rw [hattempts] at hrun
  cases hallowed : decision.allowed with
  | false =>
    refine .inl ⟨rfl, by rw [hstatus, hallowed]; rfl, ?_⟩
    cases hfate : s.commits 0 with
    | cancelled landed =>
      rw [hfate] at hrun
      rw [Prog.run_bind_error s.answer hrun]
    | done =>
      rw [hfate] at hrun
      rw [Prog.run_bind_ok s.answer hrun, run_callRecorded_denied s hallowed]
  | true =>
    refine .inr ⟨by simp, by rw [hstatus, hallowed]; rfl, ?_⟩
    cases hfate : s.commits 0 with
    | cancelled landed =>
      rw [hfate] at hrun
      rw [Prog.run_bind_error s.answer hrun]
      exact .inl ⟨by simp, rfl⟩
    | done =>
      rw [hfate] at hrun
      obtain ⟨spec, rfl⟩ := Option.isSome_iff_exists.1 (hspec hallowed)
      rw [Prog.run_bind_ok s.answer hrun]
      exact .inr ⟨rfl, run_callRecorded s hallowed⟩

theorem ends_of_session {denied : Prop} {p : P CallResult}
    (h : Ends s denied (p.run s.answer .start).2) :
    Ends s denied ((withInvocationSession p).run s.answer .start).2 := by
  rcases run_withInvocationSession s (w := .start) p with hrun | hrun
  · rw [hrun]
    exact .inl ⟨rfl, rfl⟩
  · rwa [hrun]

theorem call_ends : Ends s (s.Denied spec) (s.call sha256 spec name arguments) := by
  have haccess : s.answer _ .accessToken .start = (s.accessToken, .start) := rfl
  have hstart : ∀ denied, Ends s denied .start := fun _ => .inl ⟨rfl, rfl⟩
  unfold Surroundings.call handleCallTool
  rw [Prog.bind_eq, Prog.run_bind, run_await, haccess]
  cases s.accessToken with
  | error e => exact hstart _
  | ok ids =>
    obtain ⟨tokenId, userId⟩ := ids
    dsimp only
    rw [Prog.run_handle_snd s.answer (by intro e w; cases e <;> rfl)]
    refine ends_of_session s ?_
    cases spec with
    | none =>
      have hdenied : s.Denied none ↔ false = false := ⟨fun _ => rfl, fun _ => .inl rfl⟩
      rw [hdenied]
      exact ends_of_decision s sha256 none name arguments tokenId userId (by simp)
    | some spec =>
      have hdecision : s.answer _ (.decision tokenId name) .start = (s.decision, .start) := rfl
      dsimp only
      rw [Prog.bind_eq, Prog.run_bind, run_await, hdecision]
      cases h : s.decision with
      | error e => exact hstart _
      | ok decision =>
        have hdenied : s.Denied (some spec) ↔ decision.allowed = false := by
          simp [Surroundings.Denied, h]
        rw [hdenied]
        exact ends_of_decision s sha256 (some spec) name arguments tokenId userId fun _ => rfl

end Call

section Ends

variable {s : Surroundings} {denied : Prop} {w w' : World} {invocation version : ToolInvocation}

theorem executed_committed : (s.executed w).committed = w.committed := by
  unfold Surroundings.executed
  split <;> rfl

theorem executed_attempts : (s.executed w).attempts = w.attempts := by
  unfold Surroundings.executed
  split <;> rfl

theorem mem_executed {x : Execution} (hnone : w.executions = [])
    (hx : x ∈ (s.executed w).executions) : x.recorded = w.committed := by
  unfold Surroundings.executed at hx
  split at hx
  · rw [World.execute, hnone] at hx
    rw [List.mem_singleton.1 hx]
  · rw [hnone] at hx
    cases hx

theorem executed_returned (hnone : w.executions = []) :
    (∃ x ∈ (s.executed w).executions, ∃ result, x.outcome = .ok result) ↔
      ∃ result, s.attempted = .ok result := by
  unfold Surroundings.executed Surroundings.attempted
  cases s.validation with
  | error e => simp [hnone]
  | ok _ => simp [World.execute, hnone]

theorem not_complete_of_status (hpending : w.status? = some .pending) : ¬Complete denied w := by
  rintro ⟨⟨past, last, hlast, hterminal, -⟩, -, -⟩
  have hstatus : w.status? = some last.status := by simp [World.status?, hlast]
  exact hterminal (Option.some_inj.1 (hstatus.symm.trans hpending))

theorem not_complete (hcommitted : w.committed = [invocation])
    (hpending : invocation.status = .pending) : ¬Complete denied w :=
  not_complete_of_status (by simp [World.status?, hcommitted, hpending])

theorem complete_of_denied (hdenied : denied) (hcommitted : w.committed = [invocation])
    (hstatus : invocation.status = .denied) (hnone : w.executions = []) : Complete denied w := by
  have hlast : w.status? = some .denied := by simp [World.status?, hcommitted, hstatus]
  refine ⟨⟨[], invocation, hcommitted, by simp [hstatus], by simp⟩, ?_, ?_⟩
  · simp [hlast, hnone]
  · simp [hlast, hnone, hdenied]

theorem complete_of_completed (hdenied : ¬denied) (hcommitted : w.committed = [invocation, version])
    (hpending : invocation.status = .pending) (hid : version.id = invocation.id)
    (hterminal : version.status = .succeeded ∨ version.status = .failed)
    (hreturned : version.status = .succeeded ↔
      ∃ x ∈ w.executions, ∃ result, x.outcome = .ok result) :
    Complete denied w := by
  have hlast : w.status? = some version.status := by simp [World.status?, hcommitted]
  refine ⟨⟨[invocation], version, hcommitted, ?_, ?_⟩, ?_, ?_⟩
  · rcases hterminal with h | h <;> simp [h]
  · simp [hpending, hid]
  · rw [hlast, Option.some_inj, hreturned]
  · rcases hterminal with h | h <;> simp [hlast, h, hdenied]

theorem finalStatus_terminal : s.finalStatus = .succeeded ∨ s.finalStatus = .failed := by
  unfold Surroundings.finalStatus
  cases s.attempted <;> simp

theorem finalStatus_succeeded :
    s.finalStatus = .succeeded ↔ ∃ result, s.attempted = .ok result := by
  unfold Surroundings.finalStatus
  cases s.attempted <;> simp

/-- An allowed call whose record is committed is complete just if its completion lands. -/
theorem Completes.complete_iff (hdenied : ¬denied) (hpending : invocation.status = .pending)
    (h : Completes s invocation.id (World.start.tick.commit .done invocation).2 w) :
    Complete denied w ↔ s.Completable ∧ (s.commits 1).lands = true := by
  have hattempts : (s.executed (World.start.tick.commit .done invocation).2).attempts = 1 :=
    executed_attempts
  have hcommitted :
      (s.executed (World.start.tick.commit .done invocation).2).committed = [invocation] :=
    executed_committed
  rcases h with ⟨hnot, rfl⟩ | ⟨hcompletable, version, hstatus, hid, rfl⟩
  · exact iff_of_false (not_complete hcommitted hpending) fun h => hnot h.1
  rw [hattempts]
  cases hlands : (s.commits 1).lands with
  | false =>
    have hlost : ((s.executed (World.start.tick.commit .done invocation).2).tick.commit
        (s.commits 1) version).2.committed = [invocation] := by
      simp only [World.commit, hlands]
      exact hcommitted
    exact iff_of_false (not_complete hlost hpending) (by simp)
  | true =>
    have hlanded : ((s.executed (World.start.tick.commit .done invocation).2).tick.commit
        (s.commits 1) version).2.committed = [invocation, version] := by
      simp only [World.commit, hlands]
      exact congrArg (· ++ [version]) hcommitted
    refine iff_of_true (complete_of_completed hdenied hlanded hpending hid ?_ ?_)
      ⟨hcompletable, rfl⟩
    · exact hstatus ▸ finalStatus_terminal
    · rw [hstatus, finalStatus_succeeded]
      exact (executed_returned rfl).symm

/-- No tool is executed before its record. -/
theorem Ends.recorded (h : Ends s denied w) : ∀ x ∈ w.executions, x.recorded ≠ [] := by
  have hexecuted : ∀ invocation, ∀ x ∈ (s.executed (World.start.tick.commit .done
      invocation).2).executions, x.recorded ≠ [] := by
    intro invocation x hx
    rw [mem_executed rfl hx]
    exact List.cons_ne_nil _ _
  intro x hx
  rcases h with ⟨-, hnone⟩ | ⟨invocation, ⟨-, -, rfl⟩ | ⟨-, -, ⟨-, rfl⟩ | ⟨-, hends⟩⟩⟩
  · rw [hnone] at hx
    cases hx
  · cases hx
  · cases hx
  · rcases hends with ⟨-, rfl⟩ | ⟨-, version, -, -, rfl⟩
    · exact hexecuted invocation x hx
    · exact hexecuted invocation x hx

theorem Ends.complete_iff (h : Ends s denied w) (hrecorded : w.committed ≠ []) :
    Complete denied w ↔
      denied ∨ s.commits 0 = .done ∧ s.Completable ∧ (s.commits 1).lands = true := by
  have hcommit : ∀ {fate : CommitFate} {invocation : ToolInvocation},
      (World.start.tick.commit fate invocation).2.committed ≠ [] →
        (World.start.tick.commit fate invocation).2.committed = [invocation] := by
    intro fate invocation hne
    cases hlands : fate.lands with
    | false => simp [World.commit, hlands, World.start, World.tick] at hne
    | true => simp [World.commit, hlands, World.start, World.tick]
  rcases h with ⟨hnone, -⟩ | ⟨invocation, ⟨hdenied, hstatus, rfl⟩ | ⟨hdenied, hstatus, h⟩⟩
  · exact absurd hnone hrecorded
  · exact iff_of_true (complete_of_denied hdenied (hcommit hrecorded) hstatus rfl) (.inl hdenied)
  rcases h with ⟨hfate, rfl⟩ | ⟨hfate, h⟩
  · exact iff_of_false (not_complete (hcommit hrecorded) hstatus) (by simp [hdenied, hfate])
  · rw [h.complete_iff hdenied hstatus]
    simp [hdenied, hfate]

end Ends

/-- A recorded call is complete just if it is undisturbed, and no tool is executed unrecorded. -/
theorem call_complete_iff (s : Surroundings) (sha256 : List UInt8 → String)
    (spec : Option ToolSpec) (name : Text) (arguments : Dict) :
    (∀ x ∈ (s.call sha256 spec name arguments).executions, x.recorded ≠ []) ∧
      ((s.call sha256 spec name arguments).committed ≠ [] →
        (Complete (s.Denied spec) (s.call sha256 spec name arguments) ↔ s.Undisturbed spec)) :=
  have hends := call_ends s sha256 spec name arguments
  ⟨hends.recorded, hends.complete_iff⟩

/-! ### A sample call -/

/-- The tool that reads the status of a commit. -/
def commitStatusSpec : ToolSpec where
  name := "forgejo_get_commit_status"
  risk := "read"
  inputSchema := .dict []
  version := 1

/-- An allowed call that no exception, cancellation or failure reaches. -/
def sampleSurroundings (result : Dict) : Surroundings where
  accessToken := .ok (2, 1)
  enterInvocation := .ok ()
  exitInvocation := .ok ()
  openSession := .ok ()
  closeSession := .ok ()
  decision := .ok ⟨true, "allowed"⟩
  token := .ok (some {
    id := 2
    userId := 1
    name := text "laptop"
    displayName := text "Alice"
    expectedForgejoUsername := text "alice"
    forgejoCredentials := [⟨.active, text "alice"⟩] })
  redaction := .ok ⟨[], false⟩
  target := .ok []
  newId := 3
  clock := fun n => n
  commits := fun _ => .done
  validation := .ok ()
  execution := .ok result

/-- A call of that tool that gives the result. -/
def sampleCall (result : Dict) : World :=
  (sampleSurroundings result).call (fun _ => "") (some commitStatusSpec)
    (text "forgejo_get_commit_status") []

/-- A combined commit status with one status of the given description. -/
def commitStatus (description : Text) : Dict :=
  [(text "sha", .str (text "abc")), (text "state", .str (text "success")),
    (text "total_count", .int 1),
    (text "statuses", .list [.dict [(text "context", .str (text "ci")),
      (text "state", .str (text "success")), (text "description", .str description),
      (text "target_url", .null)]]),
    (text "truncated", .bool false)]

theorem call_complete_iff_sample :
    Complete ((sampleSurroundings (commitStatus (text "passed"))).Denied (some commitStatusSpec))
      (sampleCall (commitStatus (text "passed"))) :=
  ((call_complete_iff (sampleSurroundings (commitStatus (text "passed"))) (fun _ => "")
    (some commitStatusSpec) (text "forgejo_get_commit_status") []).2
      (List.isEmpty_eq_false_iff.1 (by decide +kernel))).2 (.inr ⟨rfl, by decide +kernel, rfl⟩)

/-- A description with a lone surrogate. -/
def surrogateResult : Dict := commitStatus [0xD800]

/-- Every commit succeeds and nothing is cancelled, but the record of the executed tool stays
pending. -/
theorem surrogate_not_complete :
    (sampleCall surrogateResult).committed ≠ [] ∧
      (sampleCall surrogateResult).executions.map (·.outcome.isOk) = [true] ∧
      (sampleCall surrogateResult).status? = some .pending ∧
      ¬Complete ((sampleSurroundings surrogateResult).Denied (some commitStatusSpec))
        (sampleCall surrogateResult) := by
  have hpending : (sampleCall surrogateResult).status? = some .pending := by decide +kernel
  refine ⟨?_, by decide +kernel, hpending, not_complete_of_status hpending⟩
  exact List.isEmpty_eq_false_iff.1 (by decide +kernel)

end ForgejoMcp.Audit
