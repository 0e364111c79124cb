import ForgejoMcp.Deployment
import ForgejoMcp.Transactions.Sql

/-!
# The database of the OAuth service

The tables the OAuth service, the Dashboard services and the bearer check work on, the row locks
they take, the in-process recovery cache, and the labels under which transactions commit.  A label
records what the transaction did, for the statements about histories; no program reads it.
-/

namespace ForgejoMcp.OAuth

open Transactions

/-- The tables of the OAuth system. -/
structure Db where
  users : Table Uuid User User.id
  accounts : Table Uuid Account Account.id
  forgejoCredentials : Table Uuid ForgejoCredential ForgejoCredential.id
  oauthClients : Table Uuid OAuthClient OAuthClient.id
  authorizationRequests : Table Uuid OAuthAuthorizationRequest OAuthAuthorizationRequest.id
  authorizationCodes : Table Uuid OAuthAuthorizationCode OAuthAuthorizationCode.id
  tokenFamilies : Table Uuid OAuthTokenFamily OAuthTokenFamily.id
  refreshTokens : Table Uuid OAuthRefreshToken OAuthRefreshToken.id
  accessTokens : Table Uuid OAuthAccessToken OAuthAccessToken.mcpTokenId
  mcpTokens : Table Uuid McpToken McpToken.id
  toolSettings : Table String ToolSetting ToolSetting.toolName
  userToolAllowances : Table (Uuid × String) UserToolAllowance fun r => (r.userId, r.toolName)
  mcpTokenToolGrants : Table (Uuid × String) McpTokenToolGrant fun r => (r.mcpTokenId, r.toolName)
  managementAuditEvents : List ManagementAuditEvent

/-- What a row lock is taken on. -/
inductive Key
  | request (id : Uuid)
  | code (id : Uuid)
  | family (id : Uuid)
  | refreshToken (id : Uuid)
  | accessToken (mcpTokenId : Uuid)
  | mcpToken (id : Uuid)
  | toolSetting (name : String)
  | allowance (row : Uuid × String)
  | grant (row : Uuid × String)
  deriving DecidableEq

/-- The token response of the SDK. -/
structure OAuthToken where
  accessToken : String
  tokenType : String
  expiresIn : ℤ
  scope : String
  refreshToken : String
  deriving DecidableEq, Repr

/-! ### Issued pairs -/

/-- The arguments of one `_issue_token_pair`, the tools it grants, the time it reads and the
numbers it draws. -/
structure Issue where
  clientRecord : OAuthClient
  userId : Uuid
  scopes : List String
  resource : String
  familyId : Uuid
  refreshExpiresAt : Time
  toolNames : List String
  now : Time
  accessSecret : ℕ
  refreshSecret : ℕ
  accessId : Uuid
  refreshId : Uuid
  deriving DecidableEq

/-- `_safe_client_label`. -/
def safeClientLabel (d : Deployment) (clientId : String) : String :=
  (d.httpsHostname clientId).getD "dynamically registered client"

/-- `_client_name`, once `_client_info` has accepted the stored metadata. -/
def clientName (d : Deployment) (record : OAuthClient) : String :=
  match record.clientName with
  | some name => slice (if name = "" then safeClientLabel d record.clientId else name) 100
  | none => slice (safeClientLabel d record.clientId) 100

namespace Issue

variable (d : Deployment) (i : Issue)

/-- When the access token expires. -/
def accessExpiresAt : Time := min (i.now + seconds d.oauthAccessTokenTtlSeconds) i.refreshExpiresAt

/-- `int(….total_seconds())` truncates towards zero. -/
def expiresIn : ℤ := (i.accessExpiresAt d - i.now).tdiv 1000000

/-- The row of the MCP token. -/
def accessRecord : McpToken where
  id := i.accessId
  userId := i.userId
  name := slice ("OAuth: " ++ clientName d i.clientRecord) 120
  description := some "OAuth 2.1 access token"
  tokenPrefix := mcpTokenPrefix (d.newMcpToken i.accessSecret)
  tokenHash := d.hashToken (d.newMcpToken i.accessSecret)
  kind := .oauth
  enabled := true
  expiresAt := some (i.accessExpiresAt d)
  revokedAt := none
  lastUsedAt := none

/-- The rows of its grants. -/
def grantRecords : List McpTokenToolGrant := (sorted i.toolNames).map fun name => ⟨i.accessId, name⟩

/-- The row of the refresh token. -/
def refreshRecord : OAuthRefreshToken where
  id := i.refreshId
  tokenHash := d.hashToken (d.newOauthRefreshToken i.refreshSecret)
  tokenPrefix := slice (d.newOauthRefreshToken i.refreshSecret) 16
  familyId := i.familyId
  clientId := i.clientRecord.id
  userId := i.userId
  scopes := i.scopes
  resource := i.resource
  mcpTokenId := some i.accessId
  expiresAt := i.refreshExpiresAt
  rotatedAt := none
  revokedAt := none

/-- The row that links the MCP token to the refresh token. -/
def accessLink : OAuthAccessToken where
  mcpTokenId := i.accessId
  clientId := i.clientRecord.id
  refreshTokenId := i.refreshId
  resource := i.resource
  revokedAt := none

/-- The pair the caller gets. -/
def token : OAuthToken where
  accessToken := d.newMcpToken i.accessSecret
  tokenType := "Bearer"
  expiresIn := i.expiresIn d
  scope := String.intercalate " " i.scopes
  refreshToken := d.newOauthRefreshToken i.refreshSecret

end Issue

/-! ### The recovery cache -/

/-- `_RefreshRecoveryEntry`, with the refresh token it was created for; `holder` is the thread
that holds its lock. -/
structure RecoveryEntry where
  refreshTokenId : Uuid
  holder : Option ℕ := none
  token : Option OAuthToken := none
  expiresAt : Option Time := none

/-- The cache: an ordered dictionary of references, least recently requested first, to the entry
objects. An entry that leaves the dictionary stays alive in the calls that use it. -/
structure Memory where
  entries : List (Uuid × ℕ)
  objects : List RecoveryEntry

/-- `_REFRESH_RECOVERY_CACHE_MAX_ENTRIES`. -/
def refreshRecoveryCacheMaxEntries : ℕ := 1024

namespace Memory

/-- `entry.lock.locked()`. -/
def locked (m : Memory) (ref : ℕ) : Bool :=
  match m.objects[ref]? with
  | some entry => entry.holder.isSome
  | none => false

/-- `entry.expires_at is not None and entry.expires_at < now`. -/
def expired (m : Memory) (ref : ℕ) (now : Time) : Bool :=
  match m.objects[ref]? with
  | some entry => entry.expiresAt.any fun time => decide (time < now)
  | none => false

/-- `_refresh_recovery_entry`: drop the expired entries that are not locked; return the stored
entry and move it to the end; otherwise make room at capacity and store a new entry, if there is
room. -/
def refreshRecoveryEntry (refreshTokenId : Uuid) (now : Time) (m : Memory) : ℕ × Memory :=
  let live := m.entries.filter fun e => !(m.expired e.2 now && !m.locked e.2)
  match live.find? fun e => e.1 = refreshTokenId with
  | some (_, ref) =>
      (ref, { m with
        entries := live.filter (fun e => e.1 ≠ refreshTokenId) ++ [(refreshTokenId, ref)] })
  | none =>
      let kept := if refreshRecoveryCacheMaxEntries ≤ live.length then
        live.eraseP fun e => !m.locked e.2 else live
      let created := m.objects.length
      let objects := m.objects ++ [{ refreshTokenId := refreshTokenId }]
      if kept.length < refreshRecoveryCacheMaxEntries then
        (created, ⟨kept ++ [(refreshTokenId, created)], objects⟩)
      else (created, ⟨kept, objects⟩)

/-- Change one entry object. -/
def modify (ref : ℕ) (f : RecoveryEntry → RecoveryEntry) (m : Memory) : Memory :=
  { m with objects := m.objects.modify ref f }

/-- `entry.lock.acquire()` by thread `t`, which waits while the lock is held. -/
def acquire (ref t : ℕ) (m : Memory) : Option (Unit × Memory) :=
  if m.locked ref then none else some ((), m.modify ref fun e => { e with holder := some t })

/-- `entry.lock.release()`. -/
def release (ref : ℕ) (m : Memory) : Memory := m.modify ref fun e => { e with holder := none }

/-- Release every lock thread `t` holds. -/
def releaseAll (t : ℕ) (m : Memory) : Memory :=
  { m with objects := m.objects.map fun e =>
    if e.holder = some t then { e with holder := none } else e }

/-- `recovery.token if recovery.expires_at is not None and recovery.expires_at >= now`. -/
def cached (ref : ℕ) (now : Time) (m : Memory) : Option OAuthToken :=
  match m.objects[ref]? with
  | some entry => if entry.expiresAt.any fun time => decide (now ≤ time) then entry.token else none
  | none => none

/-- Store a pair in an entry object. -/
def store (ref : ℕ) (token : OAuthToken) (expiresAt : Time) (m : Memory) : Memory :=
  m.modify ref fun e => { e with token := some token, expiresAt := some expiresAt }

/-- Drop the entry of a token from the dictionary. -/
def evict (refreshTokenId : Uuid) (m : Memory) : Memory :=
  { m with entries := m.entries.filter fun e => e.1 ≠ refreshTokenId }

end Memory

/-! ### Commits -/

/-- What a committed transaction did. -/
inductive Label
  | denied (request : Uuid)
  | approved (request code : Uuid) (secret : ℕ) (tools : List String)
  | issued (code : Uuid) (issue : Issue)
  | rotated (parent : Uuid) (oldToken : Option Uuid) (readAt : ℕ) (now : Time) (issue : Issue)
  | recovered (refreshToken : Uuid) (token : OAuthToken)
  | rejected (refreshToken : Uuid)
  | reused (refreshToken family : Uuid) (tokens : List Uuid)
  | revoked (family : Uuid) (tokens : List Uuid)
  | dashboard (token : Uuid) (family : Option (Uuid × List Uuid))
  | allowances (user : Uuid) (tools : List String) (prunedAt : ℕ)
  | grants (token : Uuid) (tools : List String) (ownedAt : ℕ)
  | setting (tool : String) (enabled : Bool)
  | created (token : Uuid) (secret : ℕ)
  | used (token : Uuid)
  | environment

/-- The types of the OAuth system. It asks no outside service. -/
abbrev sorts : Sorts where
  DB := Db
  Key := Key
  Mem := Memory
  Label := Label
  Query := Unit
  Answer := Unit

/-- Programs of the OAuth system. -/
abbrev P (α : Type) : Type 1 := Prog (Act sorts) Failure α

/-! ### Tables -/

namespace Rows

/-- `oauth_authorization_requests`. -/
def authorizationRequests : Rel sorts Uuid OAuthAuthorizationRequest OAuthAuthorizationRequest.id :=
  ⟨Db.authorizationRequests, fun t db => { db with authorizationRequests := t }, .request⟩

/-- `oauth_authorization_codes`. -/
def authorizationCodes : Rel sorts Uuid OAuthAuthorizationCode OAuthAuthorizationCode.id :=
  ⟨Db.authorizationCodes, fun t db => { db with authorizationCodes := t }, .code⟩

/-- `oauth_token_families`. -/
def tokenFamilies : Rel sorts Uuid OAuthTokenFamily OAuthTokenFamily.id :=
  ⟨Db.tokenFamilies, fun t db => { db with tokenFamilies := t }, .family⟩

/-- `oauth_refresh_tokens`. -/
def refreshTokens : Rel sorts Uuid OAuthRefreshToken OAuthRefreshToken.id :=
  ⟨Db.refreshTokens, fun t db => { db with refreshTokens := t }, .refreshToken⟩

/-- `oauth_access_tokens`. -/
def accessTokens : Rel sorts Uuid OAuthAccessToken OAuthAccessToken.mcpTokenId :=
  ⟨Db.accessTokens, fun t db => { db with accessTokens := t }, .accessToken⟩

/-- `mcp_tokens`. -/
def mcpTokens : Rel sorts Uuid McpToken McpToken.id :=
  ⟨Db.mcpTokens, fun t db => { db with mcpTokens := t }, .mcpToken⟩

/-- `tool_settings`. -/
def toolSettings : Rel sorts String ToolSetting ToolSetting.toolName :=
  ⟨Db.toolSettings, fun t db => { db with toolSettings := t }, .toolSetting⟩

/-- `user_tool_allowances`. -/
def userToolAllowances :
    Rel sorts (Uuid × String) UserToolAllowance fun r => (r.userId, r.toolName) :=
  ⟨Db.userToolAllowances, fun t db => { db with userToolAllowances := t }, .allowance⟩

/-- `mcp_token_tool_grants`. -/
def mcpTokenToolGrants :
    Rel sorts (Uuid × String) McpTokenToolGrant fun r => (r.mcpTokenId, r.toolName) :=
  ⟨Db.mcpTokenToolGrants, fun t db => { db with mcpTokenToolGrants := t }, .grant⟩

end Rows

/-- Append an audit event. -/
def Db.audited (event : ManagementAuditEvent) (db : Db) : Db :=
  { db with managementAuditEvents := db.managementAuditEvents ++ [event] }

/-- `session.add(ManagementAuditEvent(…))`. -/
def audit (event : ManagementAuditEvent) : P Unit := exec [] fun _ => ((), [Db.audited event])

end ForgejoMcp.OAuth
