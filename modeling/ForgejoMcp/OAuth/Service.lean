import ForgejoMcp.OAuth.Revocation

/-!
# The OAuth service

The functions of `application/oauth_service.py` that read or write consents, codes and tokens.  The
client information of the SDK is its `client_id`.
-/

namespace ForgejoMcp.OAuth

open Transactions Rows

/-- `StoredAuthorizationCode`. -/
structure StoredAuthorizationCode where
  code : String
  scopes : List String
  clientId : String
  codeChallenge : String
  redirectUri : String
  redirectUriProvidedExplicitly : Bool
  resource : String
  recordId : Uuid
  clientRecordId : Uuid
  userId : Uuid
  deriving DecidableEq

/-- `StoredRefreshToken`. -/
structure StoredRefreshToken where
  token : String
  clientId : String
  scopes : List String
  expiresAt : ℤ
  recordId : Uuid
  clientRecordId : Uuid
  familyId : Uuid
  userId : Uuid
  mcpTokenId : Option Uuid
  deriving DecidableEq

/-- `StoredAccessToken`. -/
structure StoredAccessToken where
  clientId : String
  scopes : List String
  expiresAt : ℤ
  resource : String
  userId : Uuid
  mcpTokenId : Uuid
  clientRecordId : Uuid
  refreshTokenId : Uuid
  familyId : Uuid
  deriving DecidableEq

/-- The query of `construct_redirect_uri`. -/
structure Redirect where
  redirectUri : String
  code : Option String
  error : Option String
  state : Option String
  iss : String
  deriving DecidableEq

/-- `TokenError("invalid_grant", …)`. -/
def invalidGrant (description : String) : Failure := .tokenError "invalid_grant" description

/-- `int(time.timestamp())`. -/
def timestamp (time : Time) : ℤ := time.tdiv 1000000

/-- `value.startswith(prefix)`. -/
def startsWith (value pre : String) : Bool := pre.toList.isPrefixOf value.toList

/-! ### Checks on the user -/

/-- `_effective_tool_names`, evaluated on one snapshot. -/
def Db.effectiveToolNames (db : Db) (userId : Uuid) : List String :=
  (db.userToolAllowances.select fun r => r.userId = userId ∧
    (db.toolSettings.get r.toolName).any (·.enabled)).map (·.toolName)

/-- `effective_tool_names`. -/
def effectiveToolNames (userId : Uuid) : P (List String) :=
  query fun _ db => db.effectiveToolNames userId

/-- The credential query of the readiness checks. -/
def activeCredential (userId : Uuid) : P (Option Uuid) :=
  query fun _ db => ((db.forgejoCredentials.select fun r =>
    r.userId = userId ∧ r.status = .active ∧ r.revokedAt = none).head?).map (·.id)

/-- `session.get(User, user_id)`. -/
def getUser (userId : Uuid) : P (Option User) := query fun _ db => db.users.get userId

/-- `session.get(OAuthClient, client_id)`. -/
def getClient (id : Uuid) : P (Option OAuthClient) := query fun _ db => db.oauthClients.get id

/-- `_require_consent_ready`. -/
def requireConsentReady (userId : Uuid) : P Unit := do
  let user ← getUser userId
  Prog.rejectIf (user.all fun u => u.status ≠ .active) (.consentUnavailable "user_unavailable")
  let credential ← activeCredential userId
  Prog.rejectIf (credential = none) (.consentUnavailable "credential_required")
  let names ← effectiveToolNames userId
  Prog.rejectIf (names = []) (.consentUnavailable "tools_required")

/-- `_require_authorizable_user`. -/
def requireAuthorizableUser (userId : Uuid) : P Unit := do
  let user ← getUser userId
  let credential ← activeCredential userId
  Prog.rejectIf ((user.all fun u => u.status ≠ .active) ∨ credential = none)
    (invalidGrant "user is not ready for MCP authorization")

/-! ### Consent -/

/-- `_valid_interaction_format`. -/
def validInteractionFormat (value : String) : Bool :=
  startsWith value "fmcp_oi_" && decide (40 ≤ value.length ∧ value.length ≤ 80)

/-- `_pending_request`. -/
def pendingRequest (record : OAuthAuthorizationRequest) (now : Time) : Bool :=
  decide (record.resolvedAt = none ∧ now < record.expiresAt)

/-- `_validate_grant_ttl_days`. -/
def validateGrantTtlDays (d : Deployment) (value : Option ℕ) : P ℕ := do
  let selected := value.getD d.oauthRefreshTokenTtlDays
  Prog.rejectIf (selected ∉ d.oauthGrantTtlOptionsDays)
    (.valueError "authorization lifetime is not allowed")
  return selected

/-- The account may answer a consent. -/
def consentAccount (account : Option Account) : Option (Account × Uuid) := do
  let account ← account
  let userId ← account.userId
  if account.role = .user ∧ account.status = .active ∧ account.mustChangePassword = false then
    return (account, userId)
  else none

/-- `resolve_consent`. -/
def resolveConsent (d : Deployment) (interaction : String) (accountId : Uuid) (approve : Bool)
    (grantTtlDays : Option ℕ) (toolNames : List String) : P Redirect := do
  Prog.rejectIf (validInteractionFormat interaction = false) (.consentUnavailable "request_expired")
  let now ← now
  withSession do
    let found ← authorizationRequests.selectForUpdate fun r =>
      r.requestTokenHash = d.hashToken interaction
    let record ← Prog.require found (.consentUnavailable "request_expired")
    Prog.rejectIf (pendingRequest record now = false) (.consentUnavailable "request_expired")
    let found ← query fun _ db => db.accounts.get accountId
    let (account, userId) ← Prog.require (consentAccount found)
      (.consentUnavailable "account_required")
    let client ← Prog.require (← getClient record.clientId)
      (.consentUnavailable "client_unavailable")
    if approve = false then do
      authorizationRequests.updateKey record.id ⟨fun r => { r with resolvedAt := now }, fun _ => rfl⟩
      audit ⟨account.id, "oauth.authorization_denied", "oauth_client", toString client.id⟩
      commit (.denied record.id)
      return ⟨record.redirectUri, none, "access_denied", record.state, d.oauthIssuerUrl⟩
    else do
      let selectedGrantTtlDays ← validateGrantTtlDays d grantTtlDays
      authorizationRequests.updateKey record.id ⟨fun r => { r with resolvedAt := now }, fun _ => rfl⟩
      requireConsentReady userId
      Prog.rejectIf (toolNames = []) (.consentUnavailable "tools_selection_required")
      let effective ← effectiveToolNames userId
      Prog.rejectIf (¬ toolNames ⊆ effective) (.consentUnavailable "tools_selection_invalid")
      let secret ← fresh
      let codeId ← fresh
      authorizationCodes.insert [{
        id := codeId
        codeHash := d.hashToken (d.newOauthCode secret)
        clientId := client.id
        userId := userId
        redirectUri := record.redirectUri
        redirectUriProvidedExplicitly := record.redirectUriProvidedExplicitly
        codeChallenge := record.codeChallenge
        scopes := record.scopes
        toolNames := sorted toolNames
        resource := record.resource
        expiresAt := now + seconds d.oauthAuthorizationCodeTtlSeconds
        refreshExpiresAt := some (now + days selectedGrantTtlDays)
        consumedAt := none }] .integrityError
      audit ⟨account.id, "oauth.authorization_approved", "oauth_client", toString client.id⟩
      commit (.approved record.id codeId secret toolNames)
      return ⟨record.redirectUri, d.newOauthCode secret, none, record.state, d.oauthIssuerUrl⟩

/-! ### Issuing a pair -/

/-- `_issue_token_pair`. -/
def issueTokenPair (d : Deployment) (clientRecord : OAuthClient) (userId : Uuid)
    (scopes : List String) (resource : String) (familyId : Uuid) (refreshExpiresAt : Time)
    (selectedToolNames : List String) : P Issue := do
  requireAuthorizableUser userId
  let effective ← effectiveToolNames userId
  let toolNames := selectedToolNames.filter (· ∈ effective)
  Prog.rejectIf (toolNames = []) (invalidGrant "no selected MCP tools remain available")
  let now ← now
  let expiresAt := min (now + seconds d.oauthAccessTokenTtlSeconds) refreshExpiresAt
  Prog.rejectIf ((expiresAt - now).tdiv 1000000 ≤ 0) (invalidGrant "authorization has expired")
  let accessSecret ← fresh
  let refreshSecret ← fresh
  Prog.rejectIf (clientRecord.metadataClientId ≠ clientRecord.clientId)
    (.runtimeError "stored OAuth client metadata is inconsistent")
  let accessId ← fresh
  let refreshId ← fresh
  let issue : Issue := ⟨clientRecord, userId, scopes, resource, familyId, refreshExpiresAt,
    toolNames, now, accessSecret, refreshSecret, accessId, refreshId⟩
  mcpTokens.insert [issue.accessRecord d] .integrityError
  mcpTokenToolGrants.insert issue.grantRecords .integrityError
  refreshTokens.insert [issue.refreshRecord d] .integrityError
  accessTokens.insert [issue.accessLink] .integrityError
  let accountId ← query fun _ db =>
    ((db.accounts.select fun r => r.userId = some userId).head?).map (·.id)
  audit ⟨accountId, "oauth.token_issued", "mcp_token", toString accessId⟩
  return issue

/-- `load_authorization_code`. -/
def loadAuthorizationCode (d : Deployment) (clientId : Option String) (authorizationCode : String) :
    P (Option StoredAuthorizationCode) :=
  if clientId = none ∨ startsWith authorizationCode "fmcp_ac_" = false then return none
  else withSession do
    let found ← authorizationCodes.select fun r =>
      r.codeHash = d.hashToken authorizationCode ∧ r.consumedAt = none
    match found.head? with
    | none => return none
    | some record => do
      match ← getClient record.clientId with
      | none => return none
      | some clientRecord =>
        if some clientRecord.clientId ≠ clientId then return none
        else return some ⟨authorizationCode, record.scopes, clientRecord.clientId,
          record.codeChallenge, record.redirectUri, record.redirectUriProvidedExplicitly,
          record.resource, record.id, record.clientId, record.userId⟩

/-- `exchange_authorization_code`. -/
def exchangeAuthorizationCode (d : Deployment) (clientId : Option String)
    (authorizationCode : StoredAuthorizationCode) : P OAuthToken :=
  withSession do
    let found ← authorizationCodes.selectForUpdate fun r => r.id = authorizationCode.recordId
    let now ← now
    let record ← Prog.require found (invalidGrant "authorization code is invalid")
    Prog.rejectIf (record.consumedAt ≠ none ∨ record.expiresAt ≤ now ∨
      record.clientId ≠ authorizationCode.clientRecordId)
      (invalidGrant "authorization code is invalid")
    let clientRecord ← Prog.require (← getClient record.clientId)
      (invalidGrant "authorization code is invalid")
    Prog.rejectIf (some clientRecord.clientId ≠ clientId)
      (invalidGrant "authorization code is invalid")
    Prog.rejectIf (record.resource ≠ d.oauthResourceUrl)
      (invalidGrant "authorization code audience is invalid")
    authorizationCodes.updateKey record.id ⟨fun r => { r with consumedAt := now }, fun _ => rfl⟩
    let refreshExpiresAt := record.refreshExpiresAt.getD (now + days d.oauthRefreshTokenTtlDays)
    let familyId ← fresh
    tokenFamilies.insert [⟨familyId, none⟩] .integrityError
    let issue ← issueTokenPair d clientRecord record.userId record.scopes record.resource familyId
      refreshExpiresAt record.toolNames
    commit (.issued record.id issue)
    return issue.token d

/-! ### Refresh -/

/-- `load_refresh_token`. -/
def loadRefreshToken (d : Deployment) (clientId : Option String) (refreshToken : String) :
    P (Option StoredRefreshToken) :=
  if clientId = none ∨ startsWith refreshToken "fmcp_rt_" = false then return none
  else withSession do
    let found ← refreshTokens.select fun r => r.tokenHash = d.hashToken refreshToken
    match found.head? with
    | none => return none
    | some record => do
      match ← tokenFamilies.find record.familyId with
      | none => return none
      | some family =>
        if family.revokedAt ≠ none then return none
        else do
          match ← getClient record.clientId with
          | none => return none
          | some clientRecord =>
            if some clientRecord.clientId ≠ clientId then return none
            else return some ⟨refreshToken, clientRecord.clientId, record.scopes,
              timestamp record.expiresAt, record.id, record.clientId, record.familyId,
              record.userId, record.mcpTokenId⟩

/-- `_revoke_mcp_token`. -/
def revokeMcpToken (tokenId : Uuid) (now : Time) : P Unit := do
  let _ ← mcpTokens.update (fun r => r.id = tokenId ∧ r.revokedAt = none)
    ⟨fun r => { r with enabled := false, revokedAt := some now }, fun _ => rfl⟩
  let _ ← accessTokens.update (fun r => r.mcpTokenId = tokenId)
    ⟨fun r => { r with revokedAt := some now }, fun _ => rfl⟩

/-- The branch of `_exchange_refresh_token_locked` for a duplicate within the grace period. -/
def graceReplay (record : OAuthRefreshToken) (now : Time) (recovery : ℕ) : P OAuthToken := do
  requireAuthorizableUser record.userId
  let cached ← access fun _ m => some (m.cached recovery now, m)
  match cached with
  | some token => do
    audit ⟨none, "oauth.concurrent_refresh_recovered", "oauth_client", toString record.clientId⟩
    commit (.recovered record.id token)
    return token
  | none => do
    audit ⟨none, "oauth.concurrent_refresh_rejected", "oauth_client", toString record.clientId⟩
    commit (.rejected record.id)
    throw (invalidGrant "concurrent refresh recovery is unavailable")

/-- The branch of `_exchange_refresh_token_locked` for a rotated token after the grace period. -/
def lateReplay (record : OAuthRefreshToken) (now : Time) : P OAuthToken := do
  let tokens ← revokeOauthFamily record.familyId now
  commit (.reused record.id record.familyId tokens)
  throw (invalidGrant "refresh token reuse was detected")

/-- The names granted to the previous access token, with the number of commits before they were
read. -/
def grantedToolNames (mcpTokenId : Option Uuid) : P (ℕ × List String) :=
  match mcpTokenId with
  | some tokenId => query fun n db =>
      (n, (db.mcpTokenToolGrants.select fun r => r.mcpTokenId = tokenId).map (·.toolName))
  | none => query fun n _ => (n, [])

/-- `if record.mcp_token_id is not None: await self._revoke_mcp_token(…)`. -/
def revokePrevious (mcpTokenId : Option Uuid) (now : Time) : P Unit :=
  match mcpTokenId with
  | some tokenId => revokeMcpToken tokenId now
  | none => return ()

/-- The branch of `_exchange_refresh_token_locked` that rotates the token. -/
def rotate (d : Deployment) (clientRecord : OAuthClient) (record : OAuthRefreshToken)
    (scopes : List String) (now : Time) (recovery : ℕ) : P OAuthToken := do
  let (readAt, selectedToolNames) ← grantedToolNames record.mcpTokenId
  refreshTokens.updateKey record.id ⟨fun r => { r with rotatedAt := some now }, fun _ => rfl⟩
  revokePrevious record.mcpTokenId now
  let issue ← issueTokenPair d clientRecord record.userId scopes record.resource record.familyId
    record.expiresAt selectedToolNames
  commit (.rotated record.id record.mcpTokenId readAt now issue)
  access fun _ m => some ((), m.store recovery (issue.token d)
    (now + seconds d.oauthRefreshTokenReuseGraceSeconds))
  return issue.token d

/-- `_exchange_refresh_token_locked`. -/
def exchangeRefreshTokenLocked (d : Deployment) (clientId : Option String)
    (refreshToken : StoredRefreshToken) (scopes : List String) (recovery : ℕ) : P OAuthToken :=
  withSession do
    let family ← lockOauthFamily refreshToken.familyId
    Prog.rejectIf (family.all fun f => f.revokedAt ≠ none)
      (invalidGrant "refresh token is invalid")
    let found ← refreshTokens.selectForUpdate fun r => r.id = refreshToken.recordId
    let now ← now
    let record ← Prog.require found (invalidGrant "refresh token is invalid")
    Prog.rejectIf (record.familyId ≠ refreshToken.familyId ∨ record.expiresAt ≤ now)
      (invalidGrant "refresh token is invalid")
    Prog.rejectIf (record.revokedAt ≠ none) (invalidGrant "refresh token is invalid")
    Prog.rejectIf (record.resource ≠ d.oauthResourceUrl ∨ ¬ scopes ⊆ record.scopes)
      (.tokenError "invalid_scope" "refresh token scope or audience is invalid")
    let clientRecord ← Prog.require (← getClient record.clientId)
      (invalidGrant "refresh token is invalid")
    Prog.rejectIf (some clientRecord.clientId ≠ clientId) (invalidGrant "refresh token is invalid")
    match record.rotatedAt with
    | some rotatedAt =>
      if 0 < d.oauthRefreshTokenReuseGraceSeconds ∧
          now - rotatedAt ≤ seconds d.oauthRefreshTokenReuseGraceSeconds then
        graceReplay record now recovery
      else lateReplay record now
    | none => rotate d clientRecord record scopes now recovery

/-- `exchange_refresh_token`: the calls that share an entry of the recovery cache run one after
the other. -/
def exchangeRefreshToken (d : Deployment) (clientId : Option String)
    (refreshToken : StoredRefreshToken) (scopes : List String) : P OAuthToken := do
  let time ← now
  let recovery ← access fun _ m => some (m.refreshRecoveryEntry refreshToken.recordId time)
  access fun t m => m.acquire recovery t
  (exchangeRefreshTokenLocked d clientId refreshToken scopes recovery).ensuring
    (access fun _ m => some ((), m.release recovery))

/-! ### Access tokens and revocation -/

/-- `load_access_token`. -/
def loadAccessToken (d : Deployment) (token : String) : P (Option StoredAccessToken) :=
  if startsWith token "fmcp_" = false then return none
  else withSession do
    let found ← mcpTokens.select fun r => r.tokenHash = d.hashToken token
    let now ← now
    match found.head? with
    | none => return none
    | some record =>
      match record.expiresAt with
      | none => return none
      | some expiresAt =>
        if record.enabled = false ∨ record.revokedAt ≠ none ∨ expiresAt ≤ now then return none
        else do
          match ← accessTokens.find record.id with
          | none => return none
          | some link =>
            if link.revokedAt ≠ none ∨ link.resource ≠ d.oauthResourceUrl then return none
            else do
              let refresh ← refreshTokens.find link.refreshTokenId
              let client ← getClient link.clientId
              match refresh with
              | none => return none
              | some refresh => do
                let family ← tokenFamilies.find refresh.familyId
                match client with
                | none => return none
                | some client =>
                  if refresh.revokedAt ≠ none ∨ (family.all fun f => f.revokedAt ≠ none) then
                    return none
                  else return some ⟨client.clientId, refresh.scopes, timestamp expiresAt,
                    link.resource, record.userId, record.id, client.id, refresh.id,
                    refresh.familyId⟩

/-- `revoke_token`, of a loaded access or refresh token. -/
def revokeToken (familyId clientRecordId : Uuid) : P Unit := do
  let now ← now
  withSession do
    let tokens ← revokeOauthFamily familyId now
    audit ⟨none, "oauth.token_family_revoked", "oauth_client", toString clientRecordId⟩
    commit (.revoked familyId tokens)

end ForgejoMcp.OAuth
