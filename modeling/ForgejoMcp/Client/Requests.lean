import ForgejoMcp.Models
import ForgejoMcp.Python.Json
import ForgejoMcp.Transactions.Program

/-!
# Requests to Forgejo

The methods of `ForgejoClient` are programs whose only action is `_request`.  It sends one request, the
same one again after a transport error that may be retried, and answers with a checked response.
-/

namespace ForgejoMcp.Client

open Python Transactions

/-- The failures of a call, with the messages of the client's own ones; `typeError` is any exception
for an argument of a wrong type. -/
inductive Failure
  | validationFailed (message : String)
  | notFound (message : String)
  | externalServiceUnavailable (message : String)
  | unicodeEncodeError
  | typeError
  deriving DecidableEq, Repr

/-- The arguments that every method takes. -/
structure Connection where
  baseUrl : Text
  token : Text
  verifyTls : Bool

/-- The arguments of `_request`. -/
structure Request where
  method : String
  endpoint : Text
  token : Text
  verifyTls : Bool
  params : Option Dict
  jsonBody : Option Dict
  resource : String
  expectedStatus : ℕ
  accept : String

/-- A response of the expected status: the size of its content, and `response.json()` of it. -/
structure Response where
  size : ℕ
  json : Option Json

/-- `_request`. -/
inductive Action : Type → Type 1
  | request (r : Request) : Action (Except Failure Response)

/-- Programs of the client. -/
abbrev P (α : Type) := Prog Action Failure α

variable {α : Type}

/-- Sends a request. -/
def request (r : Request) : P Response :=
  .act (.request r) fun
    | .ok response => .ret response
    | .error e => .raise e

/-- `MAX_JSON_RESPONSE_BYTES`. -/
def maxJsonResponseBytes : ℕ := 2 * 1024 * 1024

/-- The payload of a JSON response. -/
def payload (resource : String) (response : Response) : P Json :=
  if maxJsonResponseBytes < response.size then
    throw (.externalServiceUnavailable ("Forgejo " ++ resource ++ " response is too large"))
  else Prog.require response.json
    (.externalServiceUnavailable ("Forgejo returned an invalid " ++ resource ++ " response"))

/-- `_get_json`. -/
def getJson (c : Connection) (endpoint : Text) (params : Option Dict) (resource : String) :
    P Json := do
  let response ← request {
    method := "GET"
    endpoint := endpoint
    token := c.token
    verifyTls := c.verifyTls
    params := params
    jsonBody := none
    resource := resource
    expectedStatus := 200
    accept := "application/json" }
  payload resource response

/-- `_write_json`. -/
def writeJson (method : String) (c : Connection) (endpoint : Text) (data : Dict)
    (resource : String) (expectedStatus : ℕ) : P Json := do
  let response ← request {
    method := method
    endpoint := endpoint
    token := c.token
    verifyTls := c.verifyTls
    params := none
    jsonBody := some data
    resource := resource
    expectedStatus := expectedStatus
    accept := "application/json" }
  payload resource response

/-- A value or the failure of a check that sends nothing. -/
def check (x : Except Failure α) : P α :=
  match x with
  | .ok a => .ret a
  | .error e => .raise e

theorem ite_eq_ok {c : Prop} [Decidable c] {a b : α} {e : Failure} :
    (if c then .ok b else .error e : Except Failure α) = .ok a ↔ c ∧ a = b := by
  split
  · rename_i hc
    exact ⟨fun h => ⟨hc, (Except.ok.inj h).symm⟩, fun h => congrArg Except.ok h.2.symm⟩
  · rename_i hc
    exact ⟨fun h => (nomatch h), fun h => absurd h.1 hc⟩

/-- A list of checks succeeds just if each of them does. -/
theorem mapM_eq_ok {γ δ : Type} {f : γ → Except Failure δ} {xs : List γ} {ys : List δ} :
    xs.mapM f = .ok ys ↔ List.Forall₂ (fun x y => f x = .ok y) xs ys := by
  induction xs generalizing ys with
  | nil =>
    rw [List.mapM_nil, List.forall₂_nil_left_iff]
    exact ⟨fun h => (Except.ok.inj h).symm, fun h => congrArg Except.ok h.symm⟩
  | cons x xs ih =>
    rw [List.mapM_cons, bind_eq_ok]
    constructor
    · rintro ⟨y, hy, h⟩
      obtain ⟨rest, hrest, h⟩ := bind_eq_ok.1 h
      cases h
      exact .cons hy (ih.1 hrest)
    · intro h
      cases h with
      | cons hy hrest => exact ⟨_, hy, bind_eq_ok.2 ⟨_, ih.2 hrest, rfl⟩⟩

theorem exists_mapM_eq_ok {γ δ : Type} {f : γ → Except Failure δ} {xs : List γ} :
    (∃ ys, xs.mapM f = .ok ys) ↔ ∀ x ∈ xs, ∃ y, f x = .ok y := by
  simp only [mapM_eq_ok]
  induction xs with
  | nil => exact ⟨fun _ _ h => (nomatch h), fun _ => ⟨[], .nil⟩⟩
  | cons x xs ih =>
    rw [List.forall_mem_cons, ← ih]
    constructor
    · rintro ⟨_, h⟩
      cases h with
      | cons hy hrest => exact ⟨⟨_, hy⟩, _, hrest⟩
    · rintro ⟨⟨y, hy⟩, ys, hys⟩
      exact ⟨y :: ys, .cons hy hys⟩

/-! ### What a call sends -/

/-- The request that a call sends first; a call that sends none has failed before. -/
def sent? : P α → Option Request
  | .act (.request r) _ => some r
  | _ => none

variable {β : Type} {x : Except Failure α} {f : α → P β} {r : Request}

@[simp] theorem sent?_raise (e : Failure) : sent? (.raise e : P α) = none := rfl

@[simp] theorem sent?_request (r : Request) (f : Response → P β) :
    sent? ((request r).bind f) = some r := rfl

/-- A check lets a request through just if it succeeds. -/
theorem sent?_check : sent? ((check x).bind f) = some r ↔ ∃ a, x = .ok a ∧ sent? (f a) = some r := by
  cases x with
  | error e => simp [check]
  | ok a => simp [check]

theorem sent?_rejectIf {c : Prop} [Decidable c] {e : Failure} {p : P β} :
    sent? ((Prog.rejectIf c e).bind fun _ => p) = some r ↔ ¬c ∧ sent? p = some r := by
  unfold Prog.rejectIf
  split <;> simp [*]

end ForgejoMcp.Client
