import ForgejoMcp.OAuth.System

/-!
# The serial model of the OAuth system

What each committed transaction finds and what it leaves, as if the transactions ran one after the
other.  A transaction that read something earlier than its commit (the grants carried forward by a
rotation, the grants pruned with a user's allowances, the tools a user may use) is described by the
states of the history it read them from.
-/

namespace ForgejoMcp.OAuth

open Transactions

namespace Db

variable (db : Db)

/-! ### What the transactions read -/

/-- The refresh tokens of a family, in the order in which they were minted. -/
def lineage (familyId : Uuid) : List OAuthRefreshToken :=
  db.refreshTokens.select fun r => r.familyId = familyId

/-- The access tokens linked to the refresh tokens of a family. -/
def memberTokens (familyId : Uuid) : List Uuid := (db.lineage familyId).filterMap (·.mcpTokenId)

/-- The token has a grant for the tool. -/
def Granted (tokenId : Uuid) (tool : String) : Prop := ⟨tokenId, tool⟩ ∈ db.mcpTokenToolGrants

/-- The user may use the tool. -/
def Allowed (userId : Uuid) (tool : String) : Prop := ⟨userId, tool⟩ ∈ db.userToolAllowances

/-- The owner of a token. -/
def owner (tokenId : Uuid) : Option Uuid := (db.mcpTokens.get tokenId).map (·.userId)

/-! ### What they write -/

/-- The audit log is replaced. -/
def withLog (log : List ManagementAuditEvent) : Db := { db with managementAuditEvents := log }

/-- The authorization request is resolved. -/
def resolveRequest (requestId : Uuid) (now : Time) : Db :=
  { db with
    authorizationRequests := db.authorizationRequests.update
      (fun r => decide (r.id = requestId)) ⟨fun r => { r with resolvedAt := some now },
      fun _ => rfl⟩ }

/-- An authorization code is added. -/
def addCode (code : OAuthAuthorizationCode) : Db :=
  { db with authorizationCodes := db.authorizationCodes.insert code }

/-- The authorization code is consumed. -/
def consumeCode (codeId : Uuid) (now : Time) : Db :=
  { db with
    authorizationCodes := db.authorizationCodes.update
      (fun r => decide (r.id = codeId)) ⟨fun r => { r with consumedAt := some now }, fun _ => rfl⟩ }

/-- A token family is added. -/
def openFamily (familyId : Uuid) : Db :=
  { db with tokenFamilies := db.tokenFamilies.insert ⟨familyId, none⟩ }

/-- The rows of an issued pair. -/
def issue (d : Deployment) (i : Issue) : Db :=
  { db with
    mcpTokens := db.mcpTokens.insert (i.accessRecord d)
    mcpTokenToolGrants := db.mcpTokenToolGrants.insertAll i.grantRecords
    refreshTokens := db.refreshTokens.insert (i.refreshRecord d)
    accessTokens := db.accessTokens.insert i.accessLink }

/-- The refresh token is marked as rotated. -/
def markRotated (refreshTokenId : Uuid) (now : Time) : Db :=
  { db with
    refreshTokens := db.refreshTokens.update
      (fun r => decide (r.id = refreshTokenId))
      ⟨fun r => { r with rotatedAt := some now }, Assign.keeps_key OAuthRefreshToken.id⟩ }

/-- The updates of `_revoke_mcp_token`. -/
def revokeToken (tokenId : Uuid) (now : Time) : Db :=
  { db with
    mcpTokens := db.mcpTokens.update (fun r => decide (r.id = tokenId ∧ r.revokedAt = none))
      ⟨fun r => { r with enabled := false, revokedAt := some now }, Assign.keeps_key McpToken.id⟩
    accessTokens := db.accessTokens.update (fun r => decide (r.mcpTokenId = tokenId))
      ⟨fun r => { r with revokedAt := some now }, Assign.keeps_key OAuthAccessToken.mcpTokenId⟩ }

/-- The updates of `revoke_oauth_family`. -/
def revokeFamily (familyId : Uuid) (tokenIds : List Uuid) (revokedAt : Time) : Db :=
  { db with
    tokenFamilies := db.tokenFamilies.update (fun r => decide (r.id = familyId))
      ⟨fun r => { r with revokedAt := some revokedAt }, Assign.keeps_key OAuthTokenFamily.id⟩
    refreshTokens := db.refreshTokens.update (fun r => decide (r.familyId = familyId))
      ⟨fun r => { r with revokedAt := some revokedAt }, Assign.keeps_key OAuthRefreshToken.id⟩
    mcpTokens := db.mcpTokens.update (fun r => decide (r.id ∈ tokenIds))
      ⟨fun r => { r with enabled := false, revokedAt := some revokedAt }, Assign.keeps_key McpToken.id⟩
    accessTokens := db.accessTokens.update (fun r => decide (r.mcpTokenId ∈ tokenIds))
      ⟨fun r => { r with revokedAt := some revokedAt }, Assign.keeps_key OAuthAccessToken.mcpTokenId⟩ }

/-- The flush at the end of `McpTokenService._revoke`. -/
def disableToken (tokenId : Uuid) (now : Time) : Db :=
  { db with
    mcpTokens := db.mcpTokens.update (fun r => decide (r.id = tokenId))
      ⟨fun r => { r with enabled := false, revokedAt := some now }, Assign.keeps_key McpToken.id⟩ }

/-- An MCP token is added. -/
def addToken (token : McpToken) : Db := { db with mcpTokens := db.mcpTokens.insert token }

/-- The use of a token that is still accepted is noted. -/
def useToken (tokenId : Uuid) (now : Time) : Db :=
  { db with
    mcpTokens := db.mcpTokens.update
      (fun r => decide (r.id = tokenId ∧ r.enabled = true ∧ r.revokedAt = none))
      ⟨fun r => { r with lastUsedAt := some now }, Assign.keeps_key McpToken.id⟩ }

/-- The tool settings are replaced. -/
def withSettings (settings : Table String ToolSetting ToolSetting.toolName) : Db :=
  { db with toolSettings := settings }

/-- Delete the grants `pruned` and replace the allowances of a user. -/
def replaceAllowances (userId : Uuid) (toolNames : List String) (pruned : List (Uuid × String)) :
    Db :=
  { db with
    mcpTokenToolGrants := db.mcpTokenToolGrants.delete fun r =>
      decide ((r.mcpTokenId, r.toolName) ∈ pruned)
    userToolAllowances := (db.userToolAllowances.delete fun r =>
      decide (r.userId = userId)).insertAll ((sorted toolNames).map fun name => ⟨userId, name⟩) }

/-- The grants of a token are replaced. -/
def replaceGrants (tokenId : Uuid) (toolNames : List String) : Db :=
  { db with
    mcpTokenToolGrants := (db.mcpTokenToolGrants.delete fun r =>
      decide (r.mcpTokenId = tokenId)).insertAll
        ((sorted toolNames).map fun name => ⟨tokenId, name⟩) }

end Db

/-! ### Footprints and numbers -/

variable (d : Deployment)

/-- The rows of the tool registry, which every change of permissions locks. -/
def registryKeys : List Key := d.registry.map fun spec => .toolSetting spec.name

/-- One of them: the row of the first tool. -/
def registryKey : Key := .toolSetting (d.registry.head d.registry_ne_nil).name

theorem registryKey_mem : registryKey d ∈ registryKeys d :=
  List.mem_map_of_mem (List.head_mem d.registry_ne_nil)

/-- The locked rows a commit may change. -/
def footprint : Label → List Key
  | .denied request => [.request request]
  | .approved request code _ _ => [.request request, .code code]
  | .issued code i => [.code code, .family i.familyId, .mcpToken i.accessId]
  | .rotated parent oldToken _ _ i =>
      [.family i.familyId, .refreshToken parent, .mcpToken i.accessId] ++
        oldToken.toList.map .mcpToken
  | .recovered _ _ | .rejected _ | .used _ | .environment => []
  | .reused _ family tokens | .revoked family tokens => .family family :: tokens.map .mcpToken
  | .dashboard token family => .mcpToken token ::
      match family with
      | some (family, tokens) => .family family :: tokens.map .mcpToken
      | none => []
  | .allowances _ _ _ | .grants _ _ _ | .setting _ _ => registryKeys d
  | .created token _ => [.mcpToken token]

/-- The drawn numbers a commit puts into the database. -/
def ids : Label → List ℕ
  | .approved _ code secret _ => [code, secret]
  | .issued _ i => [i.familyId, i.accessSecret, i.refreshSecret, i.accessId, i.refreshId]
  | .rotated _ _ _ _ i => [i.accessSecret, i.refreshSecret, i.accessId, i.refreshId]
  | .created token secret => [token, secret]
  | _ => []

/-- A number that no row uses yet. -/
def Fresh (base : Db) (h : List (Entry sorts)) (n : ℕ) : Prop :=
  ¬ Uses d base n ∧ ∀ e ∈ h, n ∉ ids e.label

/-! ### Steps -/

variable (base : Db) (h : List (Entry sorts)) (e : Entry sorts)

/-- A client that was stored at some time. -/
def Registered (client : OAuthClient) : Prop :=
  ∃ n ≤ h.length, (after base (h.take n)).oauthClients.get client.id = some client

/-- What holds of every issued pair: its numbers are fresh, its client was registered, and its tools,
taken from a selection, could be used by the user in a state since the transaction began. -/
structure Issues (i : Issue) (selected : List String) : Prop where
  accessId : Fresh d base h i.accessId
  refreshId : Fresh d base h i.refreshId
  accessSecret : Fresh d base h i.accessSecret
  refreshSecret : Fresh d base h i.refreshSecret
  registered : Registered base h i.clientRecord
  subset_selected : i.toolNames ⊆ selected
  effective : ∃ n, e.began ≤ n ∧ n ≤ h.length ∧
    i.toolNames ⊆ (after base (h.take n)).effectiveToolNames i.userId
  toolNames : i.toolNames ≠ []
  expiresIn : 0 < i.expiresIn d

/-- A code exchange. -/
structure ExchangesCode (codeId : Uuid) (i : Issue) (code : OAuthAuthorizationCode) : Prop where
  found : (after base h).authorizationCodes.get codeId = some code
  unconsumed : code.consumedAt = none
  userId : i.userId = code.userId
  client : i.clientRecord.id = code.clientId
  resource : i.resource = d.oauthResourceUrl
  scopes : i.scopes = code.scopes
  expires : ∀ time, code.refreshExpiresAt = some time → i.refreshExpiresAt = time
  familyId : Fresh d base h i.familyId
  issues : Issues d base h e i code.toolNames

/-- A refresh that found the token in its family, unexpired and not revoked. -/
structure Presents (refreshTokenId : Uuid) (r : OAuthRefreshToken) : Prop where
  record : (after base h).refreshTokens.get refreshTokenId = some r
  unrevoked : r.revokedAt = none
  family : ∃ family, (after base h).tokenFamilies.get r.familyId = some family ∧
    family.revokedAt = none

/-- A rotation. -/
structure Rotates (parent : Uuid) (oldToken : Option Uuid) (readAt : ℕ) (now : Time) (i : Issue)
    (r : OAuthRefreshToken) : Prop where
  presents : Presents base h parent r
  unrotated : r.rotatedAt = none
  oldToken_eq : r.mcpTokenId = oldToken
  unexpired : now < r.expiresAt
  familyId : i.familyId = r.familyId
  userId : i.userId = r.userId
  client : i.clientRecord.id = r.clientId
  resource : i.resource = r.resource
  scopes : i.scopes ⊆ r.scopes
  expires : i.refreshExpiresAt = r.expiresAt
  began_le : e.began ≤ readAt
  readAt_le : readAt ≤ h.length
  locked : ∀ e' ∈ h.drop readAt, Key.family i.familyId ∉ footprint d e'.label
  issues : ∃ selected, Issues d base h e i selected ∧
    ∀ tool ∈ selected, ∃ m, oldToken = some m ∧ (after base (h.take readAt)).Granted m tool

/-- The pruning of a user's grants: what is deleted was found in a snapshot after which nobody
changed the permissions. -/
structure Prunes (userId : Uuid) (toolNames : List String) (prunedAt : ℕ)
    (pruned : List (Uuid × String)) : Prop where
  began_le : e.began ≤ prunedAt
  prunedAt_le : prunedAt ≤ h.length
  locked : ∀ e' ∈ h.drop prunedAt, registryKey d ∉ footprint d e'.label
  mem_pruned : ∀ m tool, (m, tool) ∈ pruned ↔ (after base (h.take prunedAt)).Granted m tool ∧
    (after base (h.take prunedAt)).owner m = some userId ∧ tool ∉ toolNames

/-- A replacement of the grants of a token. -/
structure Regrants (tokenId : Uuid) (toolNames : List String) (ownedAt : ℕ) (userId : Uuid) :
    Prop where
  began_le : e.began ≤ ownedAt
  ownedAt_le : ownedAt ≤ h.length
  owned : ∃ token, (after base (h.take ownedAt)).mcpTokens.get tokenId = some token ∧
    token.userId = userId ∧ token.revokedAt = none
  allowed : ∀ tool ∈ toolNames, (after base h).Allowed userId tool

/-- A committed rotation of `parent` minted the pair `token`. -/
def Minted (parent : Uuid) (token : OAuthToken) : Prop :=
  ∃ e ∈ h, ∃ oldToken readAt now i, e.label = .rotated parent oldToken readAt now i ∧
    i.token d = token

/-- The steps of the serial model, by label. -/
def Step : Prop :=
  let db := after base h
  match e.label with
  | .denied request => ∃ now log, e.db = (db.resolveRequest request now).withLog log ∧
      ∃ r, db.authorizationRequests.get request = some r ∧ r.resolvedAt = none
  | .approved request codeId secret tools => ∃ code now log,
      e.db = ((db.resolveRequest request now).addCode code).withLog log ∧
      (∃ r, db.authorizationRequests.get request = some r ∧ r.resolvedAt = none) ∧
      code.id = codeId ∧ code.toolNames = sorted tools ∧ code.consumedAt = none ∧
      (∃ ttl ∈ d.oauthGrantTtlOptionsDays, code.refreshExpiresAt = some (now + days ttl)) ∧
      Fresh d base h codeId ∧ Fresh d base h secret
  | .issued codeId i => ∃ code now log,
      e.db = (((db.consumeCode codeId now).openFamily i.familyId).issue d i).withLog log ∧
      ExchangesCode d base h e codeId i code
  | .rotated parent oldToken readAt now i => ∃ r m log, oldToken = some m ∧
      e.db = (((db.markRotated parent now).revokeToken m now).issue d i).withLog log ∧
      Rotates d base h e parent oldToken readAt now i r
  | .recovered refreshToken token => ∃ r log, e.db = db.withLog log ∧
      Presents base h refreshToken r ∧ r.rotatedAt ≠ none ∧ Minted d h refreshToken token
  | .rejected refreshToken => ∃ r log, e.db = db.withLog log ∧ Presents base h refreshToken r ∧
      r.rotatedAt ≠ none
  | .reused refreshToken family tokens => ∃ r time log,
      e.db = (db.revokeFamily family tokens time).withLog log ∧
      Presents base h refreshToken r ∧ r.rotatedAt ≠ none ∧ r.familyId = family ∧
      tokens = db.memberTokens family
  | .revoked family tokens => ∃ time log, e.db = (db.revokeFamily family tokens time).withLog log ∧
      db.tokenFamilies.get family ≠ none ∧ tokens = db.memberTokens family
  | .dashboard token none => ∃ now log row, e.db = (db.disableToken token now).withLog log ∧
      db.mcpTokens.get token = some row ∧ row.kind ≠ .oauth
  | .dashboard token (some (family, tokens)) => ∃ now time log,
      e.db = ((db.revokeFamily family tokens time).disableToken token now).withLog log ∧
      db.tokenFamilies.get family ≠ none ∧ tokens = db.memberTokens family ∧ token ∈ tokens
  | .allowances userId toolNames prunedAt => ∃ pruned settings log,
      e.db = ((db.replaceAllowances userId toolNames pruned).withSettings settings).withLog log ∧
      Prunes d base h e userId toolNames prunedAt pruned
  | .grants tokenId toolNames ownedAt => ∃ userId settings log,
      e.db = ((db.replaceGrants tokenId toolNames).withSettings settings).withLog log ∧
      Regrants base h e tokenId toolNames ownedAt userId
  | .setting _ _ => ∃ settings log, e.db = (db.withSettings settings).withLog log
  | .created id secret => ∃ token log, e.db = (db.addToken token).withLog log ∧
      token.id = id ∧ token.kind = .static ∧
      token.tokenHash = d.hashToken (d.newMcpToken secret) ∧ token.enabled = true ∧
      token.revokedAt = none ∧ Fresh d base h id ∧ Fresh d base h secret
  | .used tokenId => ∃ now log row, e.db = (db.useToken tokenId now).withLog log ∧
      db.mcpTokens.get tokenId = some row ∧ row.enabled = true ∧ row.revokedAt = none
  | .environment => ∃ change, e.db = envDb change db

end ForgejoMcp.OAuth
