import ForgejoMcp.Credentials.Service

/-!
# Linking a Forgejo account, and using the link

`ForgejoOAuthService`, the routes of `api/forgejo_credentials.py` around it, and `_connection` of
the tool service.
-/

namespace ForgejoMcp.Credentials

open Transactions Rows
open Forgejo (Bytes CredentialCipher ForgejoOAuthClientConfiguration)

variable (server : Server)

/-! ### Sessions -/

/-- A session of the Dashboard with the account and the user it is loaded with. -/
structure CurrentSession where
  session : Users.Session
  account : Account
  user : Option (Loaded User)

/-- `selectinload(Session.account).selectinload(Account.user)`. -/
def loadSession (session : Users.Session) : P CurrentSession := do
  let account ← Prog.require (← accounts.find session.accountId) .attributeError
  match account.userId with
  | none => return ⟨session, account, none⟩
  | some userId => do
    let (readAt, found) ← query fun n db => (n, db.users.get userId)
    return ⟨session, account, found.map (⟨readAt, ·⟩)⟩

/-- `get_current_session`. -/
def getCurrentSession (sessionToken : String) : P CurrentSession := do
  let required := Raised.httpException 401 "authentication required"
  let found ← sessions.select fun s => s.sessionTokenHash = server.users.hashToken sessionToken
  let session ← Prog.require found.head? required
  let current ← loadSession session
  let now ← now
  Prog.rejectIf (session.revokedAt ≠ none ∨ session.expiresAt ≤ now ∨
    current.account.status ≠ .active ∨
    (current.user.any fun u => decide (u.row.status ≠ .active))) required
  return current

/-- `UserCsrfSession`, with the identifier of the user. -/
def userSession (sessionToken : String) : P (CurrentSession × Uuid) := do
  let current ← getCurrentSession server sessionToken
  Prog.rejectIf (current.account.mustChangePassword = true)
    (.httpException 403 "password change required")
  Prog.rejectIf (current.account.role ≠ .user) (.httpException 403 "user access required")
  let userId ← Prog.require current.account.userId (.httpException 403 "user access required")
  return (current, userId)

/-- `reject`. -/
def reject : Raised :=
  validationFailed "Forgejo authorization is unavailable; sign in and reconnect"

/-- The session may link an account: the query of `require_session`. -/
def Db.linkable (sessionId : Uuid) (now : Time) (db : Db) : Bool :=
  (db.sessions.get sessionId).any fun session =>
    session.revokedAt = none ∧ now < session.expiresAt ∧
      ((db.accounts.get session.accountId).any fun account =>
        account.role = .user ∧ account.status = .active ∧ account.mustChangePassword = false ∧
          ((account.userId.bind db.users.get).any fun user => user.status = .active))

/-- `require_session`. -/
def requireSession (current : CurrentSession) : P Unit := do
  let now ← now
  let active ← query fun _ db => db.linkable current.session.id now
  Prog.rejectIf (active = false) reject

/-! ### Configuration -/

/-- `configuration`. -/
def configuration (lock : Bool) : P (ForgejoInstance × ForgejoOAuthClientConfiguration) := do
  let inst ← primary none
  let found ← fallible (Forgejo.resolve server.lib server.settings (← record lock))
  let inst ← if lock then refreshInstance inst else pure inst
  let configuration ← Prog.require found (configurationUnavailable
    "Forgejo OAuth is not configured; use a PAT or contact your administrator")
  let untrusted := configurationUnavailable
    "Forgejo OAuth requires an allowlisted Forgejo instance"
  let inst ← Prog.require inst untrusted
  Prog.rejectIf (server.settings.permitsForgejoBaseUrl inst.baseUrl = false) untrusted
  Prog.rejectIf (("https://".isPrefixOf inst.baseUrl = false ∧
      server.settings.allowInsecureForgejoHttp = false) ∨
      (inst.verifyTls = false ∧ server.settings.allowUnverifiedForgejoTls = false))
    (configurationUnavailable "Forgejo OAuth requires a secure Forgejo connection")
  return (inst, configuration)

/-! ### Starting -/

/-- The URL that the browser is sent to, without its encoding, and the browser token. -/
structure Authorization where
  endpoint : String
  clientId : String
  redirectUri : String
  state : String
  codeVerifier : String
  browserToken : String
  deriving DecidableEq, Repr

/-- The end of `start`: the request is added, and committed. -/
def addRequest (request : ForgejoOAuthRequest) (deleted : List Uuid) : P Unit := do
  let duplicate ← exec [forgejoOauthRequests.exclusive request.id] fun db =>
    ((db.forgejoOauthRequests.get request.id).isSome ||
        db.forgejoOauthRequests.rows.any fun r => r.stateHash = request.stateHash,
      [forgejoOauthRequests.inserted [request]])
  Prog.rejectIf (duplicate = true) .integrityError
  commit (.requestStarted request deleted)

/-- `start`. -/
def start (current : CurrentSession) (userId : Uuid) : P Authorization := do
  requireSession current
  let (inst, configuration) ← configuration server false
  let state := server.tokenUrlsafe (← fresh)
  let browserToken := server.tokenUrlsafe (← fresh)
  let verifier := server.tokenUrlsafe (← fresh)
  let c ← fallible (cipher server)
  let encrypted ← encrypt server c verifier userId "oauth-verifier"
  let time ← now
  let deleted ← forgejoOauthRequests.deleteReturning fun r =>
    r.sessionId = current.session.id ∨ r.expiresAt ≤ time
  let created ← now
  let id ← fresh
  let request : ForgejoOAuthRequest :=
    { id := id, stateHash := server.users.hashToken state,
      browserTokenHash := server.users.hashToken browserToken, sessionId := current.session.id,
      instanceId := inst.id, baseUrl := inst.baseUrl, clientId := configuration.clientId,
      redirectUrl := configuration.redirectUrl, configRevision := configuration.revision,
      encryptedVerifier := encrypted.ciphertext, nonce := encrypted.nonce,
      keyVersion := encrypted.keyVersion, expiresAt := created + seconds 600, consumedAt := none }
  addRequest request deleted
  return ⟨inst.baseUrl ++ "/login/oauth/authorize", configuration.clientId,
    configuration.redirectUrl, state, verifier, browserToken⟩

/-! ### The callback -/

/-- `callback_session`. -/
def callbackSession (state : String) (browserToken : Option String) : P CurrentSession := do
  let browserToken ← Prog.require (browserToken.filter fun b => b.length = 43) reject
  Prog.rejectIf (state.length ≠ 43) reject
  let time ← now
  let found ← forgejoOauthRequests.select fun r =>
    r.stateHash = server.users.hashToken state ∧
      r.browserTokenHash = server.users.hashToken browserToken ∧ time < r.expiresAt ∧
      r.consumedAt = none
  let flow ← Prog.require found.head? reject
  let found ← sessions.find flow.sessionId
  let session ← Prog.require found reject
  let current ← loadSession session
  requireSession current
  return current

/-- The characters of a state. -/
def validState (state : String) : Bool :=
  state.length = 43 && state.toList.all fun c => c.isAlphanum || c ∈ ['-', '_']

/-- The codes that are exchanged. -/
def validCode (code : String) : Bool :=
  code ≠ "" && decide (code.length ≤ 2048) && code.toList.all fun c =>
    decide (32 < c.toNat ∧ c.toNat < 128)

/-- The flow that was found is the one of this session, instance and configuration. -/
def Bound (current : CurrentSession) (inst : ForgejoInstance)
    (configuration : ForgejoOAuthClientConfiguration) (now : Time) (flow : ForgejoOAuthRequest) :
    Prop :=
  flow.sessionId = current.session.id ∧ flow.consumedAt = none ∧ now < flow.expiresAt ∧
    flow.instanceId = inst.id ∧ flow.baseUrl = inst.baseUrl ∧
    flow.clientId = configuration.clientId ∧ flow.redirectUrl = configuration.redirectUrl ∧
    flow.configRevision = configuration.revision

instance (current : CurrentSession) (inst : ForgejoInstance)
    (configuration : ForgejoOAuthClientConfiguration) (now : Time) (flow : ForgejoOAuthRequest) :
    Decidable (Bound current inst configuration now flow) :=
  inferInstanceAs (Decidable (_ ∧ _))

/-- A request is consumed, and forgets its verifier. -/
def ForgejoOAuthRequest.consume (consumedAt : Time) : Assign ForgejoOAuthRequest.id where
  apply r := { r with consumedAt := some consumedAt, encryptedVerifier := [], nonce := [] }
  keeps _ := rfl

/-- The part of `complete` that consumes the request, with the PKCE verifier it stored. -/
def consume (current : CurrentSession) (userId : Uuid) (state : String) (inst : ForgejoInstance)
    (configuration : ForgejoOAuthClientConfiguration) : P (ForgejoOAuthRequest × String) := do
  let found ← forgejoOauthRequests.selectForUpdate fun r =>
    r.stateHash = server.users.hashToken state
  let time ← now
  let flow ← Prog.require (found.filter fun flow =>
    decide (Bound current inst configuration time flow)) reject
  let c ← fallible (cipher server)
  let verifier ← decrypt server c flow.encryptedVerifier flow.nonce userId flow.keyVersion
    "oauth-verifier"
  let consumed ← now
  -- consumed once before network IO
  forgejoOauthRequests.updateKey flow.id (ForgejoOAuthRequest.consume consumed)
  commit (.requestConsumed flow time)
  return (flow, verifier)

/-- `complete`. -/
def complete (current : CurrentSession) (state code : String) (denied : Bool) : P Unit := do
  Prog.rejectIf (validState state = false) reject
  requireSession current
  let (inst, configuration) ← configuration server false
  let userId ← Prog.require current.account.userId .attributeError
  let (flow, verifier) ← consume server current userId state inst configuration
  Prog.rejectIf (denied = true) reject
  Prog.rejectIf (validCode code = false) reject
  let tokens ← exchange server inst.baseUrl inst.verifyTls
    (.authorizationCode code configuration.redirectUrl verifier) configuration
    (.links flow.id current.session.id)
  requireSession current
  let _ ← getUser current.user userId
  let user ← refreshUser userId
  let _ ← save server (some user) (some inst) userId tokens.accessToken
    (some ⟨tokens, configuration, inst.baseUrl⟩)

/-- The outcome that the callback reports. -/
inductive Outcome
  | connected
  | failed
  deriving DecidableEq, Repr

/-- `complete_forgejo_oauth`: a failure of the application is reported. -/
def completeForgejoOauth (state code : String) (error browserToken dashboard : Option String) :
    P Outcome :=
  tryCatch (do
    let current ← callbackSession server state browserToken
    Prog.rejectIf (dashboard.any fun token =>
      server.users.hashToken token ≠ current.session.sessionTokenHash) reject
    complete server current state code error.isSome
    return .connected) fun failure =>
  match failure with
  | .application _ | .httpException _ _ => do
    rollback
    return .failed
  | _ => throw failure

/-! ### Using the link -/

/-- The credential can be used with the instance and the client. -/
def Usable (inst : ForgejoInstance) (configuration : ForgejoOAuthClientConfiguration)
    (credential : ForgejoCredential) : Prop :=
  credential.kind = .oauth ∧ credential.oauthBaseUrl = some inst.baseUrl ∧
    credential.oauthClientId = some configuration.clientId

instance (inst : ForgejoInstance) (configuration : ForgejoOAuthClientConfiguration)
    (credential : ForgejoCredential) : Decidable (Usable inst configuration credential) :=
  inferInstanceAs (Decidable (_ ∧ _))

/-- A pair of columns of which none is null. -/
def both {α β : Type} (a : Option α) (b : Option β) : Option (α × β) :=
  a.bind fun x => b.map fun y => (x, y)

/-- The new pair of a credential. -/
def ForgejoCredential.storeTokens (access newRefresh : Forgejo.EncryptedCredential)
    (accessExpiresAt : Time) : Assign fun r : ForgejoCredential => r.id where
  apply r := { r with
    encryptedToken := some access.ciphertext
    nonce := some access.nonce
    encryptedRefreshToken := some newRefresh.ciphertext
    refreshNonce := some newRefresh.nonce
    keyVersion := access.keyVersion
    accessExpiresAt := some accessExpiresAt }
  keeps _ := rfl

/-- The refresh of `access_token`, under the lock of the credential, with the new access token. -/
def refreshTokens (c : CredentialCipher) (inst : ForgejoInstance)
    (configuration : ForgejoOAuthClientConfiguration) (user : User)
    (credential : ForgejoCredential) : P String := do
  let (ciphertext, nonce) ← Prog.require
    (both credential.encryptedRefreshToken credential.refreshNonce) reject
  let refresh ← decrypt server c ciphertext nonce credential.userId credential.keyVersion
    "oauth-refresh"
  let tokens ← exchange server inst.baseUrl inst.verifyTls (.refreshToken refresh) configuration
    (.refreshes credential.id)
  let principal ← getCurrentUser inst.baseUrl inst.verifyTls (.oauth tokens.accessToken)
    (.confirms credential.id credential.forgejoUserId user.normalizedForgejoUsername)
  Prog.rejectIf (principal.id ≠ credential.forgejoUserId ∨
    Users.normalizeUsername server.users principal.username ≠ user.normalizedForgejoUsername)
    reject
  let access ← encrypt server c tokens.accessToken credential.userId "access"
  let newRefresh ← encrypt server c tokens.refreshToken credential.userId "oauth-refresh"
  let now ← now
  let token ← decrypt server c access.ciphertext access.nonce credential.userId access.keyVersion
    "access"
  forgejoCredentials.updateKey credential.id
    (ForgejoCredential.storeTokens access newRefresh (now + seconds tokens.expiresIn))
  commit (.credentialRefreshed credential.id tokens)
  return token

/-- `access_token`, with the instance, which it has refreshed in place. -/
def accessToken (userId : Uuid) : P (ForgejoInstance × AccessToken) := do
  let (inst, configuration) ← configuration server true
  let found ← forgejoCredentials.selectForUpdate fun r =>
    r.isActiveOf userId && r.revokedAt = none
  let credential ← Prog.require
    (found.filter fun r => decide (Usable inst configuration r)) reject
  let (ciphertext, nonce) ← Prog.require (both credential.encryptedToken credential.nonce) reject
  let _ ← getUser none userId
  let user ← refreshUser userId
  Prog.rejectIf (user.row.status ≠ .active) reject
  let c ← fallible (cipher server)
  let expiresAt ← Prog.require credential.accessExpiresAt reject
  let time ← now
  if expiresAt ≤ time + seconds 30 then do
    let token ← refreshTokens server c inst configuration user.row credential
    return (inst, .oauth token)
  else do
    let token ← decrypt server c ciphertext nonce userId credential.keyVersion "access"
    commit .tokenRead
    return (inst, .oauth token)

/-- `_connection`. -/
def connection (userId : Uuid) : P (ForgejoInstance × AccessToken) := do
  let found ← primary none
  let inst ← Prog.require found (conflict "Forgejo instance is not configured")
  Prog.rejectIf (server.settings.permitsForgejoBaseUrl inst.baseUrl = false)
    (configurationUnavailable
      "configured Forgejo base URL is not permitted by deployment policy")
  Prog.rejectIf (inst.verifyTls = false ∧ server.settings.allowUnverifiedForgejoTls = false)
    (configurationUnavailable ("configured Forgejo instance requires unverified TLS, which is "
      ++ "disabled by deployment policy"))
  -- `decrypted_token_for_user`
  let (_, credential) ← activeForUser userId
  let unavailable := notFound "active Forgejo credential not found"
  let credential ← Prog.require credential unavailable
  if credential.kind = .oauth then accessToken server userId
  else do
    let (ciphertext, nonce) ← Prog.require (both credential.encryptedToken credential.nonce)
      unavailable
    let c ← fallible (cipher server)
    let token ← decrypt server c ciphertext nonce userId credential.keyVersion "access"
    return (inst, .pat token)

end ForgejoMcp.Credentials
