import ForgejoMcp.Audit.Arguments
import ForgejoMcp.Audit.Redaction
import ForgejoMcp.Models
import ForgejoMcp.Transactions.Program

/-!
# Tool calls and their invocation records

The completion methods of `ToolInvocationService` and the `tools/call` handler of `mcp/server.py`.
The handler is a program over the places at which it awaits or calls code outside of this model: any
of them may raise, and `CancelledError` is raised at an await.
-/

namespace ForgejoMcp.Audit

open Python Transactions

/-! ### Data -/

/-- `InvocationStatus`. -/
inductive InvocationStatus
  | pending
  | succeeded
  | failed
  | denied
  deriving DecidableEq, Repr

/-- A row of `tool_invocations`. -/
structure ToolInvocation where
  id : Uuid
  userId : Uuid
  mcpTokenId : Uuid
  userDisplayName : Text
  tokenName : Text
  forgejoUsername : Text
  toolName : Text
  toolVersion : ℕ
  risk : String
  startedAt : Time
  completedAt : Option Time
  durationMs : Option ℤ
  status : InvocationStatus
  authorizationAllowed : Bool
  denialReason : Option String
  redactedArguments : Dict
  target : Dict
  resultSummary : Dict
  errorType : Option String
  inputTruncated : Bool
  resultTruncated : Bool

/-- `ToolSpec`, as far as the handler reads it. -/
structure ToolSpec where
  name : String
  risk : String
  inputSchema : Json
  version : ℕ

/-- `ToolAuthorizationDecision`. -/
structure ToolAuthorizationDecision where
  allowed : Bool
  reason : String

/-- A Forgejo credential of the owner of a token. -/
structure OwnedCredential where
  status : CredentialStatus
  forgejoUsername : Text

/-- A token with its owner, as `McpTokenRepository.get` loads it. -/
structure LoadedMcpToken where
  id : Uuid
  userId : Uuid
  name : Text
  displayName : Text
  expectedForgejoUsername : Text
  forgejoCredentials : List OwnedCredential

/-- The exceptions under `Exception`, as far as they are told apart; `application` is any other
subclass of `ApplicationError`. -/
inductive Error
  | authenticationFailed
  | validationFailed
  | notFound
  | conflict
  | externalServiceUnavailable
  | application (name : String)
  | unicodeEncodeError
  | other (name : String)
  deriving DecidableEq

/-- What the handler may see raised; `exit` is a `BaseException` other than `CancelledError`. -/
inductive Raised
  | error (e : Error)
  | serviceShuttingDown
  /-- `jsonschema.ValidationError`. -/
  | schemaValidation
  | cancelled
  | exit
  deriving DecidableEq

/-- What the client gets: an error text or the result of the tool. -/
inductive CallResult
  | toolError (message : String)
  | result (value : Dict)

/-! ### Programs -/

/-- The places at which the handler awaits or calls code outside of this model. -/
inductive Await : Type → Type 1
  | accessToken : Await (Except Raised (Uuid × Uuid))
  | enterInvocation : Await (Except Raised Unit)
  | exitInvocation : Await (Except Raised Unit)
  | openSession : Await (Except Raised Unit)
  | closeSession : Await (Except Raised Unit)
  | decision (tokenId : Uuid) (toolName : Text) : Await (Except Raised ToolAuthorizationDecision)
  | token (tokenId : Uuid) : Await (Except Raised (Option LoadedMcpToken))
  | redactArguments (arguments : Dict) : Await (Except Raised RedactionResult)
  | extractTarget (arguments : Dict) : Await (Except Raised Dict)
  | newId : Await (Except Raised Uuid)
  | now : Await (Except Raised Time)
  /-- `session.commit()` with the invocation record as the session has it. -/
  | commit (invocation : ToolInvocation) : Await (Except Raised Unit)
  | validate (arguments : Dict) (schema : Json) : Await (Except Raised Unit)
  | executeTool (userId : Uuid) (name : Text) (arguments : Dict) (auditEventId : Uuid) :
      Await (Except Raised Dict)

/-- Programs of the handler. -/
abbrev P (α : Type) := Prog Await Raised α

variable {α : Type}

/-- `await`. -/
def await (o : Await (Except Raised α)) : P α :=
  .act o fun
    | .ok a => .ret a
    | .error e => .raise e

/-- `asyncio.shield`: a coroutine that goes on in a task of its own when the handler is cancelled.
For the handler its commit is one like others: a cancellation ends the wait for it, and it may or
may not have taken effect when the handler ends. -/
def shield (p : P α) : P α := p

/-! ### `ToolInvocationService` -/

/-- `_duration_ms`, computed exactly. -/
def durationMs (startedAt completedAt : Time) : ℤ := max 0 ((completedAt - startedAt).tdiv 1000)

/-- `_snake_case`. -/
def snakeCase (value : String) : String :=
  let separated := value.toList.mapIdx fun i c => if c.isUpper ∧ i ≠ 0 then ['_', c] else [c]
  (String.ofList separated.flatten).toLower

/-- `classify_error`. -/
def classifyError : Raised → String
  | .cancelled => "cancelled"
  | .error .authenticationFailed => "authentication_failed"
  | .error .validationFailed => "validation_failed"
  | .error .notFound => "not_found"
  | .error .conflict => "conflict"
  | .error .externalServiceUnavailable => "forgejo_unavailable"
  | .error (.application name) => snakeCase name
  | _ => "internal_error"

/-- `record_decision`. -/
def recordDecision (tokenId : Uuid) (toolName : Text) (spec : Option ToolSpec) (arguments : Dict)
    (decision : ToolAuthorizationDecision) : P ToolInvocation := do
  let token ← Prog.require (← await (.token tokenId)) (.error .authenticationFailed)
  let redacted ← await (.redactArguments arguments)
  let now ← await .now
  let credential := token.forgejoCredentials.find? fun item => item.status = .active
  let target ← await (.extractTarget arguments)
  let id ← await .newId
  let invocation : ToolInvocation := {
    id := id
    userId := token.userId
    mcpTokenId := token.id
    userDisplayName := token.displayName
    tokenName := token.name
    forgejoUsername := (credential.map (·.forgejoUsername)).getD token.expectedForgejoUsername
    toolName := toolName.take 100
    toolVersion := (spec.map (·.version)).getD 0
    risk := (spec.map (·.risk)).getD "unknown"
    startedAt := now
    completedAt := if decision.allowed then none else some now
    durationMs := if decision.allowed then none else some 0
    status := if decision.allowed then .pending else .denied
    authorizationAllowed := decision.allowed
    denialReason := if decision.allowed then none else some decision.reason
    redactedArguments := redacted.value
    target := target
    resultSummary := []
    errorType := none
    inputTruncated := redacted.truncated
    resultTruncated := false }
  await (.commit invocation)
  return invocation

/-- `complete_success`. -/
def completeSuccess (sha256 : List UInt8 → String) (invocation : ToolInvocation) (result : Dict) :
    P Unit := do
  let (summary, truncated) ← Prog.require (summarizeResult sha256 result)
    (.error .unicodeEncodeError)
  let completedAt ← await .now
  await (.commit { invocation with
    status := .succeeded
    completedAt := some completedAt
    durationMs := some (durationMs invocation.startedAt completedAt)
    resultSummary := summary
    resultTruncated := truncated })

/-- `complete_failure`. -/
def completeFailure (invocation : ToolInvocation) (error : Raised) : P Unit := do
  let completedAt ← await .now
  await (.commit { invocation with
    status := .failed
    completedAt := some completedAt
    durationMs := some (durationMs invocation.startedAt completedAt)
    errorType := some (classifyError error)
    resultSummary := [] })

/-! ### The handler -/

/-- `_safe_error_message`. -/
def safeErrorMessage : Raised → String
  | .error .validationFailed => "Forgejo request failed validation"
  | .error .notFound => "Forgejo resource was not found"
  | .error .authenticationFailed | .error .conflict | .error .externalServiceUnavailable
  | .error (.application _) => "Forgejo tool request failed"
  | _ => "Internal tool execution error"

/-- `async with coordinator.invocation(), session_factory_provider()() as session`. -/
def withInvocationSession (p : P α) : P α := do
  await .enterInvocation
  Prog.ensuring (do
    await .openSession
    Prog.ensuring p (await .closeSession)) (await .exitInvocation)

/-- The `except` clauses around the execution of a tool. -/
def executionFailed (invocation : ToolInvocation) : Raised → P (CallResult ⊕ Dict)
  | .schemaValidation => do
    completeFailure invocation (.error .validationFailed)
    return .inl (.toolError "Tool arguments are invalid")
  | .cancelled => do
    shield (completeFailure invocation .cancelled)
    throw .cancelled
  | .exit => throw .exit
  | error => do
    completeFailure invocation error
    return .inl (.toolError (safeErrorMessage error))

/-- A call with a recorded decision. -/
def callRecorded (sha256 : List UInt8 → String) (userId : Uuid) (spec : Option ToolSpec)
    (name : Text) (arguments : Dict) (decision : ToolAuthorizationDecision) (invocation : ToolInvocation) :
    P CallResult :=
  match decision.allowed, spec with
  | true, some spec => do
    let attempt : P (CallResult ⊕ Dict) := do
      await (.validate arguments spec.inputSchema)
      let result ← await (.executeTool userId name arguments invocation.id)
      return .inr result
    match ← attempt.handle (executionFailed invocation) with
    | .inl response => return response
    | .inr result => do
      completeSuccess sha256 invocation result
      return .result result
  | _, _ => return .toolError "Tool is not available for this token"

/-- `handle_call_tool`; `spec` is `get_tool(name)`. -/
def handleCallTool (sha256 : List UInt8 → String) (spec : Option ToolSpec) (name : Text)
    (arguments : Dict) : P CallResult := do
  let (tokenId, userId) ← await .accessToken
  Prog.handle (withInvocationSession do
    let decision ← match spec with
      | some _ => await (.decision tokenId name)
      | none => pure ⟨false, "unknown_tool"⟩
    let invocation ← recordDecision tokenId name spec arguments decision
    callRecorded sha256 userId spec name arguments decision invocation) fun
  | .serviceShuttingDown => return .toolError "Service is shutting down"
  | e => throw e

end ForgejoMcp.Audit
