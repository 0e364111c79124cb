import ForgejoMcp.Credentials.Database

/-!
# The credential service

`ForgejoCredentialService`, with the two requests that it and the linking service send to Forgejo.
A session of the ORM holds one object for each row: a row that it has loaded keeps the attributes
it was loaded with until it is refreshed, so the functions are given the objects that were loaded
before them.
-/

namespace ForgejoMcp.Credentials

open Transactions Rows
open Forgejo (Bytes CredentialCipher ForgejoOAuthClientConfiguration strip visibleAscii)

/-- What a running server is given: its libraries and settings, the random text and nonces of the
numbers it draws, and `normalize_base_url`. -/
structure Server where
  lib : Forgejo.Library
  users : Users.Library
  settings : Forgejo.ForgejoSettings
  tokenUrlsafe : ℕ → String
  nonce : ℕ → Bytes
  normalizeBaseUrl : String → Except String String

/-- An object that a session has loaded, with the number of commits before it was read. -/
structure Loaded (ρ : Type) where
  readAt : ℕ
  row : ρ

/-- `ValidationFailed`. -/
def validationFailed (message : String) : Raised := .application (.validationFailed message)

/-- `ConfigurationUnavailable`. -/
def configurationUnavailable (message : String) : Raised :=
  .application (.configurationUnavailable message)

/-- `Conflict`. -/
def conflict (message : String) : Raised := .application (.conflict message)

/-- `NotFound`. -/
def notFound (message : String) : Raised := .application (.notFound message)

variable (server : Server)

/-! ### Requests to Forgejo -/

/-- What `exchange` makes of the answer of the token endpoint. -/
def tokenOutcome : Answer → Except Forgejo.Failure ForgejoOAuthTokens
  | .tokens response =>
    match response.validate with
    | some pair => .ok pair
    | none => .error (.externalServiceUnavailable
        "Forgejo OAuth returned an invalid token response")
  | .status code =>
    if code = 400 ∨ code = 401 ∨ code = 403 then
      .error (.validationFailed "Forgejo authorization expired or was rejected; reconnect")
    else .error (.externalServiceUnavailable "Forgejo OAuth token endpoint is unavailable")
  | .failed => .error (.externalServiceUnavailable "Forgejo OAuth could not be reached")
  | _ => .error (.externalServiceUnavailable "Forgejo OAuth returned an invalid token response")

/-- `ForgejoOAuthClient.exchange`. -/
def exchange (baseUrl : String) (verifyTls : Bool) (grant : Grant)
    (configuration : ForgejoOAuthClientConfiguration) (purpose : Purpose) :
    P ForgejoOAuthTokens := do
  Prog.rejectIf (server.settings.permitsForgejoBaseUrl baseUrl = false)
    (configurationUnavailable "Forgejo OAuth instance is not allowlisted")
  Prog.rejectIf (verifyTls = false ∧ server.settings.allowUnverifiedForgejoTls = false)
    (configurationUnavailable "Forgejo OAuth requires verified TLS")
  Prog.rejectIf ("https://".isPrefixOf baseUrl = false ∧
      server.settings.allowInsecureForgejoHttp = false)
    (configurationUnavailable "Forgejo OAuth requires HTTPS")
  let answer ← ask ⟨baseUrl, verifyTls, .token grant configuration, purpose⟩
  fallible (tokenOutcome answer)

/-- A user of Forgejo, as `get_current_user` returns it. -/
structure ForgejoUser where
  id : ℤ
  username : String
  deriving DecidableEq, Repr

/-- What `_request` raises for the status of a response about `resource`. -/
def statusFailure (resource : String) (code : ℕ) : Forgejo.Failure :=
  if 300 ≤ code ∧ code ≤ 399 then
    .externalServiceUnavailable ("Forgejo " ++ resource ++ " endpoint returned a redirect")
  else if code = 401 then .validationFailed "Forgejo rejected the personal access token"
  else if code = 403 then
    .validationFailed ("Forgejo PAT does not permit access to the " ++ resource)
  else if code = 404 then .notFound ("Forgejo " ++ resource ++ " not found")
  else if code = 422 then .validationFailed ("Forgejo rejected the " ++ resource ++ " request")
  else if code = 409 then
    .externalServiceUnavailable ("Forgejo reported a conflict for the " ++ resource)
  else if code = 429 then .externalServiceUnavailable "Forgejo rate limit was exceeded"
  else .externalServiceUnavailable
    ("Forgejo " ++ resource ++ " endpoint returned HTTP " ++ toString code)

/-- What `get_current_user` makes of an answer. -/
def userOutcome : Answer → Except Forgejo.Failure ForgejoUser
  | .user id login =>
    if id < 1 ∨ strip login = "" ∨ 255 < login.length then
      .error (.externalServiceUnavailable "Forgejo returned an invalid user response")
    else .ok ⟨id, strip login⟩
  | .status code => .error (statusFailure "user" code)
  | .failed => .error (.externalServiceUnavailable "unable to connect to Forgejo")
  | _ => .error (.externalServiceUnavailable "Forgejo returned an invalid user response")

/-- `ForgejoClient.get_current_user`. -/
def getCurrentUser (baseUrl : String) (verifyTls : Bool) (token : AccessToken)
    (purpose : Purpose) : P ForgejoUser := do
  let answer ← ask ⟨baseUrl, verifyTls, .currentUser token, purpose⟩
  fallible (userOutcome answer)

/-- What `get_version` makes of the answers to its requests. -/
def versionOutcome : Answer → Except Forgejo.Failure String
  | .version version =>
    if strip version = "" ∨ 120 < version.length then
      .error (.externalServiceUnavailable "Forgejo returned an invalid version response")
    else .ok (strip version)
  | .status code =>
    if code = 403 then .error (.externalServiceUnavailable
      "Forgejo version endpoint returned an unexpected response")
    else .error (statusFailure "version" code)
  | .failed => .error (.externalServiceUnavailable "unable to connect to Forgejo")
  | _ => .error (.externalServiceUnavailable "Forgejo returned an invalid version response")

/-- `ForgejoClient.get_version`. -/
def getVersion (baseUrl : String) (verifyTls : Bool) : P String := do
  let answer ← ask ⟨baseUrl, verifyTls, .version, .checks⟩
  fallible (versionOutcome answer)

/-! ### What the services read -/

/-- `cipher`. -/
def cipher : Except Forgejo.Failure CredentialCipher :=
  match server.settings.credentialEncryptionKeyFile with
  | none => .error (.configurationUnavailable "credential encryption key is not configured")
  | some (.error message) => .error (.configurationUnavailable message)
  | some (.ok key) => .ok ⟨key, server.settings.credentialEncryptionKeyVersion⟩

/-- `CredentialCipher.encrypt`, with the nonce it draws. -/
def encrypt (c : CredentialCipher) (text : String) (userId : Uuid) (purpose : String) :
    P Forgejo.EncryptedCredential := do
  let n ← fresh
  return c.encrypt server.lib.aead (server.nonce n) text userId purpose

/-- `CredentialCipher.decrypt`. -/
def decrypt (c : CredentialCipher) (ciphertext nonce : Bytes) (userId : Uuid) (keyVersion : ℕ)
    (purpose : String) : P String :=
  match c.decrypt server.lib.aead ciphertext nonce userId keyVersion purpose with
  | .ok text => return text
  | .error message => throw (.application (.credentialKeyError message))

/-- `get_user`, in a session that may have loaded the user. -/
def getUser (loaded : Option (Loaded User)) (userId : Uuid) : P (Loaded User) := do
  let (readAt, found) ← query fun n db => (n, db.users.get userId)
  let row ← Prog.require found (notFound "user not found")
  return loaded.getD ⟨readAt, row⟩

/-- `session.refresh(user)`. -/
def refreshUser (userId : Uuid) : P (Loaded User) := do
  let (readAt, found) ← query fun n db => (n, db.users.get userId)
  let row ← Prog.require found .attributeError
  return ⟨readAt, row⟩

/-- `ForgejoInstanceRepository.primary`, in a session that may have loaded the instance. -/
def primary (loaded : Option ForgejoInstance) : P (Option ForgejoInstance) := do
  let found ← forgejoInstances.find ()
  return found.map loaded.getD

/-- `ForgejoCredentialRepository.active_for_user`, with the number of commits before it. -/
def activeForUser (userId : Uuid) : P (ℕ × Option ForgejoCredential) :=
  query fun n db => (n, (db.forgejoCredentials.select (·.isActiveOf userId)).head?)

/-! ### Verifying and saving -/

/-- `VerifiedForgejoPrincipal`, with the number of commits before its user was read. -/
structure VerifiedForgejoPrincipal where
  userId : ℤ
  username : String
  readAt : ℕ
  deriving DecidableEq, Repr

/-- `_record_verification_failure`, and the failure. -/
def verificationFailure {α : Type} (userId : Uuid) (failure : Raised) : P α := do
  commit (.verificationFailed userId)
  throw failure

/-- `get_current_user` in `verify`: a rejected token is recorded. -/
def verifiedUser (baseUrl : String) (verifyTls : Bool) (token : AccessToken) (userId : Uuid) :
    P ForgejoUser :=
  tryCatch (getCurrentUser baseUrl verifyTls token (.verifies userId)) fun failure =>
    match failure with
    | .application (.validationFailed _) => verificationFailure userId failure
    | _ => throw failure

/-- `verify`. -/
def verify (loadedUser : Option (Loaded User)) (loadedInstance : Option ForgejoInstance)
    (userId : Uuid) (token : String) (oauth : Bool) : P VerifiedForgejoPrincipal := do
  let normalizedToken := strip token
  Prog.rejectIf (normalizedToken = "" ∨ (if oauth then 8192 else 2048) < normalizedToken.length)
    (validationFailed "Forgejo credential is invalid")
  let user ← getUser loadedUser userId
  Prog.rejectIf (user.row.status ≠ .active) (validationFailed "active user account required")
  let found ← primary loadedInstance
  let inst ← Prog.require found (conflict "Forgejo instance is not configured")
  Prog.rejectIf (server.settings.permitsForgejoBaseUrl inst.baseUrl = false)
    (configurationUnavailable
      "configured Forgejo base URL is not permitted by deployment policy")
  Prog.rejectIf (inst.verifyTls = false ∧ server.settings.allowUnverifiedForgejoTls = false)
    (configurationUnavailable ("configured Forgejo instance requires unverified TLS, which is "
      ++ "disabled by deployment policy"))
  let principal ← verifiedUser inst.baseUrl inst.verifyTls
    (if oauth then .oauth normalizedToken else .pat normalizedToken) user.row.id
  if Users.normalizeUsername server.users principal.username ≠
      user.row.normalizedForgejoUsername then
    verificationFailure user.row.id
      (validationFailed "Forgejo token belongs to a different user")
  else do
    let (_, current) ← activeForUser user.row.id
    if current.any fun r => r.forgejoUserId ≠ principal.id then
      verificationFailure user.row.id (validationFailed
        "Forgejo user identity changed; revoke the old credential first")
    else return ⟨principal.id, principal.username, user.readAt⟩

/-- The OAuth arguments of `save`. -/
structure OAuthSave where
  tokens : ForgejoOAuthTokens
  configuration : ForgejoOAuthClientConfiguration
  instanceUrl : String

/-- `ForgejoOAuthConfigService.record`, without an exclusive lock. -/
def record (lock : Bool) : P (Option Forgejo.ForgejoOAuthConfiguration) :=
  if lock then forgejoOauthConfigurations.selectForShare fun _ => true
  else forgejoOauthConfigurations.find ()

/-- `session.refresh(instance, with_for_update={"read": True})`. -/
def refreshInstance (loaded : Option ForgejoInstance) : P (Option ForgejoInstance) :=
  match loaded with
  | none => return none
  | some _ => forgejoInstances.selectForShare fun _ => true

/-- The OAuth columns of a saved credential. -/
structure OAuthColumns where
  refresh : Forgejo.EncryptedCredential
  accessExpiresAt : Time
  oauthBaseUrl : String
  oauthClientId : String

/-- The credential that `save` adds. -/
def newCredential (id userId : Uuid) (encrypted : Forgejo.EncryptedCredential)
    (principal : VerifiedForgejoPrincipal) (normalized : String) (oauth : Option OAuthColumns) :
    ForgejoCredential where
  id := id
  userId := userId
  status := .active
  revokedAt := none
  encryptedToken := some encrypted.ciphertext
  nonce := some encrypted.nonce
  keyVersion := encrypted.keyVersion
  forgejoUserId := principal.userId
  forgejoUsername := principal.username
  normalizedForgejoUsername := normalized
  kind := if oauth.isSome then .oauth else .pat
  encryptedRefreshToken := oauth.map (·.refresh.ciphertext)
  refreshNonce := oauth.map (·.refresh.nonce)
  accessExpiresAt := oauth.map (·.accessExpiresAt)
  oauthBaseUrl := oauth.map (·.oauthBaseUrl)
  oauthClientId := oauth.map (·.oauthClientId)

/-- The part of `save` that checks the configuration again, and locks it. -/
def recheck (oauth : OAuthSave) (loadedInstance : Option ForgejoInstance) :
    P (ForgejoInstance × ForgejoOAuthClientConfiguration) := do
  let changed := configurationUnavailable "Forgejo OAuth configuration changed; reconnect"
  let effective ← fallible (Forgejo.resolve server.lib server.settings (← record true))
  let inst ← refreshInstance (← primary loadedInstance)
  let effective ← Prog.require effective changed
  let inst ← Prog.require inst changed
  Prog.rejectIf (effective ≠ oauth.configuration ∨ inst.baseUrl ≠ oauth.instanceUrl) changed
  return (inst, effective)

/-- `if current is not None: self._revoke_secret(current, now)`, when it is flushed. -/
def flushRevoked (current : Option ForgejoCredential) (now : Time) : P Unit :=
  match current with
  | none => return ()
  | some current => forgejoCredentials.updateKey current.id (ForgejoCredential.revokeSecret now)

/-- The `INSERT` of an active credential, under the partial unique index. -/
def insertCredential (row : ForgejoCredential) : P Bool :=
  exec [forgejoCredentials.exclusive row.id, ⟨.activeCredential row.userId, true⟩] fun db =>
    ((db.forgejoCredentials.get row.id).isNone &&
        (db.forgejoCredentials.select (·.isActiveOf row.userId)).isEmpty,
      [forgejoCredentials.inserted [row]])

/-- The end of `save`: the new credential, and the commit. -/
def store (row : ForgejoCredential) (replaced : Option Uuid) (pair : Option ForgejoOAuthTokens)
    (readAt : ℕ) : P ForgejoCredential := do
  if ← insertCredential row then do
    commit (.credentialSaved row replaced pair readAt)
    return row
  else do
    rollback
    throw (conflict "an active Forgejo credential already exists")

/-- The OAuth columns; the `SELECT` of the instance flushes the revocation of the old credential. -/
def oauthColumns (c : CredentialCipher) (oauth : OAuthSave) (inst : ForgejoInstance)
    (configuration : ForgejoOAuthClientConfiguration) (userId : Uuid) (now : Time) :
    P OAuthColumns := do
  let found ← primary (some inst)
  let inst ← Prog.require found .attributeError
  let refresh ← encrypt server c oauth.tokens.refreshToken userId "oauth-refresh"
  return ⟨refresh, now + seconds oauth.tokens.expiresIn, inst.baseUrl, configuration.clientId⟩

/-- `save`. -/
def save (loadedUser : Option (Loaded User)) (loadedInstance : Option ForgejoInstance)
    (userId : Uuid) (token : String) (oauth : Option OAuthSave) : P ForgejoCredential := do
  let principal ← verify server loadedUser loadedInstance userId token oauth.isSome
  let normalized := Users.normalizeUsername server.users principal.username
  match oauth with
  | none => do
    let c ← fallible (cipher server)
    let encrypted ← encrypt server c (strip token) userId "access"
    let now ← now
    let (_, current) ← activeForUser userId
    flushRevoked current now
    let id ← fresh
    store (newCredential id userId encrypted principal normalized none) (current.map (·.id)) none
      principal.readAt
  | some oauth => do
    let (inst, configuration) ← recheck server oauth loadedInstance
    let c ← fallible (cipher server)
    let encrypted ← encrypt server c (strip token) userId "access"
    let now ← now
    let (_, current) ← activeForUser userId
    flushRevoked current now
    let columns ← oauthColumns server c oauth inst configuration userId now
    let id ← fresh
    store (newCredential id userId encrypted principal normalized columns) (current.map (·.id))
      oauth.tokens principal.readAt

/-- `revoke`. -/
def revoke (loadedUser : Option (Loaded User)) (userId : Uuid) : P Unit := do
  let _ ← getUser loadedUser userId
  let (_, current) ← activeForUser userId
  let current ← Prog.require current (notFound "active Forgejo credential not found")
  let now ← now
  flushRevoked (some current) now
  commit (.credentialRevoked current.id)

end ForgejoMcp.Credentials
