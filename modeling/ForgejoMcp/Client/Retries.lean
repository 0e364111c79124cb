import ForgejoMcp.Client.Responses

/-!
# Attempts of a request

`_request` sends a request again after some errors, if its method changes nothing.  What it answers
with depends on the outcome of the last attempt alone.
-/

namespace ForgejoMcp.Client

open Python Zlib

/-! ### Functions -/

/-- A token; one that was obtained by OAuth is sent as a bearer token. -/
inductive Token
  | pat (token : Text)
  | forgejoOAuthToken (token : Text)

/-- The arguments of `_request`. -/
structure Call where
  method : Text
  endpoint : Text
  token : Option Token
  verifyTls : Bool
  params : Option Dict
  jsonBody : Option Dict
  resource : String
  expectedStatus : List ℕ
  accept : Text

/-- What is sent in an attempt. -/
structure Transmission where
  method : Text
  endpoint : Text
  params : Option Dict
  json : Option Dict
  headers : Headers
  verify : Bool
  followRedirects : Bool

/-- The subclasses of `httpx.HTTPError`. -/
inductive HttpError
  | connectTimeout
  | readTimeout
  | writeTimeout
  | poolTimeout
  | connectError
  | readError
  | writeError
  | closeError
  | localProtocolError
  | remoteProtocolError
  | proxyError
  | unsupportedProtocol
  | decodingError
  | tooManyRedirects
  | httpStatusError
  deriving DecidableEq, Repr

/-- What comes of an attempt: a response, or an error of the transport, also while the body is read. -/
inductive Outcome
  | response (response : StreamedResponse)
  | error (e : HttpError)

/-- What `_request` does: what it sends, how long it sleeps in between, and how it ends. -/
structure Exchange where
  transmitted : List Transmission
  slept : List ℚ
  result : Except Failure BufferedResponse

/-- The attempt ends the request with `result`. -/
def Exchange.last (t : Transmission) (result : Except Failure BufferedResponse) : Exchange :=
  ⟨[t], [], result⟩

/-- The attempt is followed by others. -/
def Exchange.retry (t : Transmission) (delay : ℚ) (e : Exchange) : Exchange :=
  ⟨t :: e.transmitted, delay :: e.slept, e.result⟩

/-- The settings of `ForgejoClient` that its retries read. -/
structure ForgejoClient where
  safeRetryAttempts : ℕ
  retryMaxDelaySeconds : ℚ

/-- The failure for a request that did not get through. -/
def unableToConnect : Failure := .externalServiceUnavailable "unable to connect to Forgejo"

/-- The errors that the first `except` clause names. -/
def HttpError.retryable (e : HttpError) : Bool :=
  e ∈ [.connectError, .connectTimeout, .readTimeout, .poolTimeout, .remoteProtocolError]

/-- The statuses that ask for another attempt. -/
def retryableStatus (statusCode : ℕ) : Bool := statusCode ∈ [429, 502, 503, 504]

/-- `response.is_redirect`. -/
def BufferedResponse.isRedirect (response : BufferedResponse) : Bool :=
  decide (300 ≤ response.statusCode ∧ response.statusCode ≤ 399)

/-- The end of `_request`, after the loop. -/
def conclude (c : Call) : Option BufferedResponse → Except Failure BufferedResponse
  | none => .error unableToConnect
  | some response =>
    if response.isRedirect then
      .error (.externalServiceUnavailable ("Forgejo " ++ c.resource ++ " endpoint returned a redirect"))
    else if response.statusCode ∈ c.expectedStatus then .ok response
    else .error <| match response.statusCode with
      | 401 => .validationFailed "Forgejo rejected the personal access token"
      | 403 => .validationFailed ("Forgejo PAT does not permit access to the " ++ c.resource)
      | 404 => .notFound ("Forgejo " ++ c.resource ++ " not found")
      | 422 => .validationFailed ("Forgejo rejected the " ++ c.resource ++ " request")
      | 409 =>
        .externalServiceUnavailable ("Forgejo reported a conflict for the " ++ c.resource)
      | 429 => .externalServiceUnavailable "Forgejo rate limit was exceeded"
      | status => .externalServiceUnavailable
          ("Forgejo " ++ c.resource ++ " endpoint returned HTTP " ++ toString status)

/-- `GET`, `HEAD` and `OPTIONS`. -/
def safeMethods : List Text := ["GET", "HEAD", "OPTIONS"].map text

/-- The authorization header of a call. -/
def Call.authorization (c : Call) : Headers :=
  match c.token with
  | none => []
  | some (.pat token) => [(text "Authorization", text "token " ++ token)]
  | some (.forgejoOAuthToken token) => [(text "Authorization", text "Bearer " ++ token)]

/-- What is sent in every attempt, with the method in upper case. -/
def Call.transmission (c : Call) (method : Text) : Transmission where
  method := method
  endpoint := c.endpoint
  params := c.params
  json := c.jsonBody
  headers := [(text "Accept", c.accept), (text "Accept-Encoding", text "gzip, deflate"),
    (text "User-Agent", text "forgejo-mcp/0.1.0")] ++ c.authorization
  verify := c.verifyTls
  followRedirects := false

namespace ForgejoClient

variable (client : ForgejoClient) (retryAfterSeconds : Text → ℚ)

/-- `_retry_delay`. -/
def retryDelay (attempt : ℕ) (response : Option BufferedResponse) : ℚ :=
  let retryAfter := response.bind fun r => r.headers.get (text "retry-after")
  let requestedDelay := (retryAfter.map retryAfterSeconds).getD 0
  min client.retryMaxDelaySeconds (max requestedDelay (1 / 4 * 2 ^ attempt))

/-- The attempts after which another one may be made. -/
def retries (method : Text) : ℕ := if method ∈ safeMethods then client.safeRetryAttempts else 0

variable {σ : Type} (decompressobj : ℕ → Decompressor σ) (lower : Text → Text)
  (decimal : CodePoint → Option ℕ) (c : Call)

/-- The turns of the loop of `_request` from `attempt` on, at most `turns` of them; `response` is that
of the turn before. -/
def attempts (outcomes : ℕ → Outcome) (method : Text) :
    (turns attempt : ℕ) → (response : Option BufferedResponse) → Exchange
  | 0, _, response => ⟨[], [], conclude c response⟩
  | turns + 1, attempt, response =>
    let t := c.transmission method
    match outcomes attempt with
    | .error e =>
      if e.retryable ∧ attempt < client.retries method then
        .retry t (client.retryDelay retryAfterSeconds attempt none)
          (attempts outcomes method turns (attempt + 1) response)
      else .last t (.error unableToConnect)
    | .response streamedResponse =>
      match boundedResponse decompressobj lower decimal streamedResponse with
      | .error e => .last t (.error e)
      | .ok response =>
        if retryableStatus response.statusCode ∧ attempt < client.retries method then
          .retry t (client.retryDelay retryAfterSeconds attempt (some response))
            (attempts outcomes method turns (attempt + 1) (some response))
        else .last t (conclude c (some response))

/-- `_request`, with the outcome of every attempt. -/
def request (upper : Text → Text) (outcomes : ℕ → Outcome) : Exchange :=
  let method := upper c.method
  client.attempts retryAfterSeconds decompressobj lower decimal c outcomes method
    (client.retries method + 1) 0 none

/-! ### Attempts -/

/-- The outcome is one after which a safe request is sent again. -/
def Retryable : Outcome → Prop
  | .error e => e.retryable = true
  | .response streamedResponse => ∃ response,
      boundedResponse decompressobj lower decimal streamedResponse = .ok response ∧
        retryableStatus response.statusCode = true

/-- How a request ends whose last attempt has the outcome. -/
def settle : Outcome → Except Failure BufferedResponse
  | .error _ => .error unableToConnect
  | .response streamedResponse => do
    conclude c (some (← boundedResponse decompressobj lower decimal streamedResponse))

/-- `e` is what the attempts from `attempt` on come to, of which the one after `n` others is the
last. -/
structure Attempted (outcomes : ℕ → Outcome) (t : Transmission) (retries attempt n : ℕ)
    (e : Exchange) : Prop where
  transmitted : e.transmitted = List.replicate (n + 1) t
  le : attempt + n ≤ retries
  earlier : ∀ i < n, Retryable decompressobj lower decimal (outcomes (attempt + i))
  stops : attempt + n < retries → ¬Retryable decompressobj lower decimal (outcomes (attempt + n))
  result : e.result = settle decompressobj lower decimal c (outcomes (attempt + n))

variable {client retryAfterSeconds decompressobj lower decimal c} {outcomes : ℕ → Outcome}
  {method : Text} {turns attempt retries n : ℕ} {response : Option BufferedResponse}
  {t : Transmission} {e : Exchange}

theorem Attempted.last (hle : attempt ≤ retries)
    (h : ¬(Retryable decompressobj lower decimal (outcomes attempt) ∧ attempt < retries)) :
    Attempted decompressobj lower decimal c outcomes t retries attempt 0
      (.last t (settle decompressobj lower decimal c (outcomes attempt))) where
  transmitted := rfl
  le := hle
  earlier := fun i hi => absurd hi (Nat.not_lt_zero i)
  stops := fun hlt hretry => h ⟨hretry, hlt⟩
  result := rfl

theorem Attempted.retry {delay : ℚ}
    (h : Attempted decompressobj lower decimal c outcomes t retries (attempt + 1) n e)
    (hretry : Retryable decompressobj lower decimal (outcomes attempt)) :
    Attempted decompressobj lower decimal c outcomes t retries attempt (n + 1)
      (.retry t delay e) where
  transmitted := by
    rw [Exchange.retry, h.transmitted]
    rfl
  le := by
    have hle := h.le
    omega
  earlier := by
    intro i hi
    cases i with
    | zero => exact hretry
    | succ i =>
      rw [← Nat.add_assoc, Nat.add_right_comm]
      exact h.earlier i (Nat.lt_of_succ_lt_succ hi)
  stops := by
    rw [← Nat.add_assoc, Nat.add_right_comm]
    exact h.stops
  result := by
    rw [← Nat.add_assoc, Nat.add_right_comm]
    exact h.result

/-- A turn of the loop is the last one, or another one follows after an outcome that allows it. -/
theorem attempts_cases : let t := c.transmission method
    let next := client.attempts retryAfterSeconds decompressobj lower decimal c outcomes method
    (¬(Retryable decompressobj lower decimal (outcomes attempt) ∧ attempt < client.retries method) ∧
      next (turns + 1) attempt response =
        .last t (settle decompressobj lower decimal c (outcomes attempt))) ∨
    (Retryable decompressobj lower decimal (outcomes attempt) ∧ attempt < client.retries method ∧
      ∃ delay response', next (turns + 1) attempt response =
        .retry t delay (next turns (attempt + 1) response')) := by
  dsimp only
  rw [attempts]
  cases outcomes attempt with
  | error e =>
    dsimp only
    split
    · rename_i h
      exact .inr ⟨h.1, h.2, _, _, rfl⟩
    · rename_i h
      exact .inl ⟨h, rfl⟩
  | response streamedResponse =>
    dsimp only
    cases hread : boundedResponse decompressobj lower decimal streamedResponse with
    | error e =>
      refine .inl ⟨?_, by rw [settle, hread]; rfl⟩
      rintro ⟨⟨response, hresponse, -⟩, -⟩
      rw [hread] at hresponse
      cases hresponse
    | ok response =>
      dsimp only
      split
      · rename_i h
        exact .inr ⟨⟨response, hread, h.1⟩, h.2, _, _, rfl⟩
      · rename_i h
        refine .inl ⟨?_, by rw [settle, hread]; rfl⟩
        rintro ⟨⟨response', hresponse, hstatus⟩, hlt⟩
        rw [hread] at hresponse
        cases hresponse
        exact h ⟨hstatus, hlt⟩

/-- The loop ends by its last turn at the latest. -/
theorem exists_attempted (hturns : attempt + turns = client.retries method + 1) (hpos : 0 < turns) :
    ∃ n, Attempted decompressobj lower decimal c outcomes (c.transmission method)
      (client.retries method) attempt n
      (client.attempts retryAfterSeconds decompressobj lower decimal c outcomes method turns attempt
        response) := by
  induction turns generalizing attempt response with
  | zero => exact absurd hpos (Nat.lt_irrefl 0)
  | succ turns ih =>
    rcases attempts_cases with ⟨hlast, heq⟩ | ⟨hretry, hlt, delay, response', heq⟩
    · rw [heq]
      exact ⟨0, Attempted.last (by omega) hlast⟩
    · obtain ⟨n, hn⟩ := @ih (attempt + 1) response' (by omega) (by omega)
      rw [heq]
      exact ⟨n + 1, hn.retry hretry⟩

theorem conclude_eq_ok {r : BufferedResponse} (h : conclude c response = .ok r) :
    response = some r ∧ r.statusCode ∈ c.expectedStatus ∧ r.isRedirect = false := by
  unfold conclude at h
  split at h
  · cases h
  · split at h
    · cases h
    · rename_i hredirect
      split at h
      · rename_i hstatus
        cases h
        exact ⟨rfl, hstatus, Bool.eq_false_iff.2 hredirect⟩
      · cases h

theorem settle_eq_ok {o : Outcome} {r : BufferedResponse}
    (h : settle decompressobj lower decimal c o = .ok r) :
    (∃ streamedResponse, o = .response streamedResponse ∧
      boundedResponse decompressobj lower decimal streamedResponse = .ok r) ∧
      r.statusCode ∈ c.expectedStatus ∧ r.isRedirect = false := by
  cases o with
  | error e => cases h
  | response streamedResponse =>
    obtain ⟨r', hr', h⟩ := bind_eq_ok.1 h
    obtain ⟨hsome, hstatus, hredirect⟩ := conclude_eq_ok h
    cases hsome
    exact ⟨⟨_, rfl, hr'⟩, hstatus, hredirect⟩

/-- A request with a method that may change something is sent once, another one at most once more
than there are retries, and not again after an outcome that does not allow it.  How the request ends
depends on the outcome of the last attempt alone, and what it returns is the response of that attempt,
of an expected status and no redirect. -/
theorem request_transmitted (client : ForgejoClient) (retryAfterSeconds : Text → ℚ)
    (decompressobj : ℕ → Decompressor σ) (lower upper : Text → Text)
    (decimal : CodePoint → Option ℕ) (c : Call) (outcomes : ℕ → Outcome) :
    let e := client.request retryAfterSeconds decompressobj lower decimal c upper outcomes
    ∃ n, e.transmitted = List.replicate (n + 1) (c.transmission (upper c.method)) ∧
      (upper c.method ∉ safeMethods → n = 0) ∧
      (upper c.method ∈ safeMethods → n ≤ client.safeRetryAttempts ∧
        (∀ i < n, Retryable decompressobj lower decimal (outcomes i)) ∧
        (n < client.safeRetryAttempts → ¬Retryable decompressobj lower decimal (outcomes n))) ∧
      e.result = settle decompressobj lower decimal c (outcomes n) ∧
      ∀ response, e.result = .ok response →
        (∃ streamedResponse, outcomes n = .response streamedResponse ∧
          boundedResponse decompressobj lower decimal streamedResponse = .ok response) ∧
        response.statusCode ∈ c.expectedStatus ∧ response.isRedirect = false := by
  have hattempted : ∃ n, Attempted decompressobj lower decimal c outcomes
      (c.transmission (upper c.method)) (client.retries (upper c.method)) 0 n
      (client.request retryAfterSeconds decompressobj lower decimal c upper outcomes) :=
    exists_attempted (Nat.zero_add _) (Nat.succ_pos _)
  obtain ⟨n, htransmitted, hle, hearlier, hstops, hresult⟩ := hattempted
  simp only [Nat.zero_add] at hle hearlier hstops hresult
  refine ⟨n, htransmitted, fun hwrite => ?_, fun hsafe => ?_, hresult, fun response hok => ?_⟩
  · rw [retries, if_neg hwrite] at hle
    exact Nat.eq_zero_of_le_zero hle
  · rw [retries, if_pos hsafe] at hle hstops
    exact ⟨hle, hearlier, hstops⟩
  · exact settle_eq_ok (hresult.symm.trans hok)

end ForgejoClient

end ForgejoMcp.Client
