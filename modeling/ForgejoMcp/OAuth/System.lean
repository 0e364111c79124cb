import ForgejoMcp.OAuth.Bearer
import ForgejoMcp.OAuth.McpTokens
import ForgejoMcp.OAuth.ToolPermissions

/-!
# The OAuth system

Every service call as a thread of one system, together with what the rest of the server may do at
any moment: change users, accounts and credentials, register clients, store authorization requests
and evict entries of the recovery cache.
-/

namespace ForgejoMcp.OAuth

open Transactions

/-- The service calls. -/
inductive Call
  | resolveConsent (interaction : String) (accountId : Uuid) (approve : Bool)
      (grantTtlDays : Option ℕ) (toolNames : List String)
  | loadAuthorizationCode (clientId : Option String) (authorizationCode : String)
  | exchangeAuthorizationCode (clientId : Option String)
      (authorizationCode : StoredAuthorizationCode)
  | loadRefreshToken (clientId : Option String) (refreshToken : String)
  | exchangeRefreshToken (clientId : Option String) (refreshToken : StoredRefreshToken)
      (scopes : List String)
  | loadAccessToken (token : String)
  | revokeToken (familyId clientRecordId : Uuid)
  | authenticate (plaintext : String) (oauthResourceUrl oauthIssuerUrl : Option String)
  | createMcpToken (actorAccountId userId : Uuid) (name : String) (description : Option String)
      (expiresAt : Option Time)
  | revokeForUser (actorAccountId userId tokenId : Uuid)
  | revokeAsAdmin (actorAccountId tokenId : Uuid)
  | setGlobalEnabled (actorAccountId : Uuid) (toolName : String) (enabled : Bool)
  | replaceUserAllowances (actorAccountId userId : Uuid) (toolNames : List String)
  | replaceTokenGrants (actorAccountId userId tokenId : Uuid) (toolNames : List String)
  deriving DecidableEq

/-- The results of the service calls. -/
inductive Result
  | redirect (redirect : Redirect)
  | authorizationCode (code : Option StoredAuthorizationCode)
  | token (token : OAuthToken)
  | refreshToken (token : Option StoredRefreshToken)
  | accessToken (token : Option StoredAccessToken)
  | authenticated (token : Option AuthenticatedMcpToken)
  | created (record : McpToken) (plaintext : String)
  | names (toolNames : List String)
  | done
  deriving DecidableEq

/-- Changes of tables that the OAuth service only reads. -/
inductive EnvDb
  | directory (users : Table Uuid User User.id) (accounts : Table Uuid Account Account.id)
      (credentials : Table Uuid ForgejoCredential ForgejoCredential.id)
  | register (client : OAuthClient)
  | authorize (request : OAuthAuthorizationRequest)

/-- `register_client` and `_store_cimd_client` keep the `client_id` of a stored client;
`authorize` stores a pending request. -/
def envDb : EnvDb → Db → Db
  | .directory users accounts credentials, db =>
      { db with users := users, accounts := accounts, forgejoCredentials := credentials }
  | .register client, db =>
      { db with oauthClients :=
        (db.oauthClients.update (fun r => decide (r.id = client.id)) ⟨fun r =>
          { r with metadataClientId := client.metadataClientId, clientName := client.clientName },
          fun _ => rfl⟩).insert client }
  | .authorize request, db =>
      { db with authorizationRequests :=
        db.authorizationRequests.insert { request with resolvedAt := none } }

variable (d : Deployment)

/-- The program of a call. -/
def body : Call → P Result
  | .resolveConsent interaction accountId approve grantTtlDays toolNames =>
      return .redirect (← resolveConsent d interaction accountId approve grantTtlDays toolNames)
  | .loadAuthorizationCode clientId code =>
      return .authorizationCode (← loadAuthorizationCode d clientId code)
  | .exchangeAuthorizationCode clientId code =>
      return .token (← exchangeAuthorizationCode d clientId code)
  | .loadRefreshToken clientId token => return .refreshToken (← loadRefreshToken d clientId token)
  | .exchangeRefreshToken clientId token scopes =>
      return .token (← exchangeRefreshToken d clientId token scopes)
  | .loadAccessToken token => return .accessToken (← loadAccessToken d token)
  | .revokeToken familyId clientRecordId => do revokeToken familyId clientRecordId; return .done
  | .authenticate plaintext resource issuer =>
      return .authenticated (← authenticate d plaintext resource issuer)
  | .createMcpToken actor userId name description expiresAt => do
      let (record, plaintext) ← createMcpToken d actor userId name description expiresAt
      return .created record plaintext
  | .revokeForUser actor userId tokenId => do revokeForUser actor userId tokenId; return .done
  | .revokeAsAdmin actor tokenId => do revokeAsAdmin actor tokenId; return .done
  | .setGlobalEnabled actor toolName enabled => do
      setGlobalEnabled d actor toolName enabled; return .done
  | .replaceUserAllowances actor userId toolNames =>
      return .names (← replaceUserAllowances d actor userId toolNames)
  | .replaceTokenGrants actor userId tokenId toolNames =>
      return .names (← replaceTokenGrants d actor userId tokenId toolNames)

/-- The OAuth system of a deployment. -/
def system : System sorts Call Failure Result where
  body := body d
  release := Memory.releaseAll
  EnvDb := EnvDb
  envDb := envDb
  envLabel := fun _ => .environment
  EnvMem := Uuid
  envMem := Memory.evict

/-- The owner of a token may use the tools granted to the token. -/
def Db.GrantsAllowed (db : Db) : Prop :=
  ∀ grant ∈ db.mcpTokenToolGrants, ∀ token, db.mcpTokens.get grant.mcpTokenId = some token →
    db.userToolAllowances.get (token.userId, grant.toolName) ≠ none

/-- A database before the first consent: no OAuth rows, only static tokens, and grants within the
allowances of their owners. -/
structure Start (db : Db) : Prop where
  authorizationCodes : db.authorizationCodes = .empty
  tokenFamilies : db.tokenFamilies = .empty
  refreshTokens : db.refreshTokens = .empty
  accessTokens : db.accessTokens = .empty
  static : ∀ token ∈ db.mcpTokens, token.kind = .static
  owned : ∀ grant ∈ db.mcpTokenToolGrants, db.mcpTokens.get grant.mcpTokenId ≠ none
  allowed : db.GrantsAllowed

/-- The numbers that occur in a database before the first consent. -/
def Uses (db : Db) (n : ℕ) : Prop :=
  ∃ token ∈ db.mcpTokens, token.id = n ∨ token.tokenHash = d.hashToken (d.newMcpToken n)

/-- The initial shared states: such a database, no commits, an empty recovery cache, and drawn
numbers that cover those in the database. -/
structure Init (g : Shared sorts) : Prop where
  start : Start g.base
  history : g.history = []
  readings : g.readings = []
  asks : g.asks = []
  drawn : ∀ x ∈ g.drawn, x = none
  uses : ∀ n, Uses d g.base n → n < g.drawn.length
  mem : g.mem = ⟨[], []⟩

/-- A reachable state of the OAuth system. -/
abbrev Reachable (c : Config sorts Call Failure Result) : Prop := (system d).Reachable (Init d) c

/-! ### A sample -/

/-- An interaction token. -/
def sampleInteraction : String := "fmcp_oi_interaction-of-the-sample-request"

/-- One ready user with an account, a client and a pending request. -/
def sampleDb : Db where
  users := Table.empty.insert ⟨0, "kim", "kim", .active, none⟩
  accounts := Table.empty.insert ⟨0, some 0, .user, false, .active⟩
  forgejoCredentials := Table.empty.insert ⟨0, 0, .active, none⟩
  oauthClients := Table.empty.insert ⟨0, "client", "client", none⟩
  authorizationRequests := Table.empty.insert ⟨0, sampleInteraction, 0, "https://client.example/cb",
    true, none, "challenge", ["mcp"], "https://mcp.example/mcp", seconds 600, none⟩
  authorizationCodes := .empty
  tokenFamilies := .empty
  refreshTokens := .empty
  accessTokens := .empty
  mcpTokens := .empty
  toolSettings := (Table.empty.insert ⟨"read", true, 1⟩).insert ⟨"write", true, 1⟩
  userToolAllowances := (Table.empty.insert ⟨0, "read"⟩).insert ⟨0, "write"⟩
  mcpTokenToolGrants := .empty
  managementAuditEvents := []

/-- The sample before the first commit. -/
def sampleShared : Shared sorts where
  base := sampleDb
  history := []
  clock := 0
  readings := []
  drawn := []
  asks := []
  mem := ⟨[], []⟩

theorem sample_init : Init d sampleShared where
  start := ⟨rfl, rfl, rfl, rfl, fun _ h => absurd h (Table.not_mem_empty _),
    fun _ h => absurd h (Table.not_mem_empty _), fun _ h => absurd h (Table.not_mem_empty _)⟩
  history := rfl
  readings := rfl
  asks := rfl
  drawn := fun _ h => absurd h List.not_mem_nil
  uses := fun _ ⟨_, h, _⟩ => absurd h (Table.not_mem_empty _)
  mem := rfl

/-- A script line: a call that runs by itself. -/
def alone (call : Call) : Cue sorts Call := .call call (List.replicate 60 ())

/-- The state after a script on the sample. -/
def sampleRun (script : List (Cue sorts Call)) : Config sorts Call Failure Result :=
  (system .sample).play script sampleShared

theorem sampleRun_reachable (script : List (Cue sorts Call)) :
    Reachable .sample (sampleRun script) :=
  System.reachable_play (sample_init .sample) script

/-- A script: the consent of the sample user to some tools, and the exchange of the code. -/
def sampleIssue (toolNames : List String) : List (Cue sorts Call) :=
  [alone (.resolveConsent sampleInteraction 0 true none toolNames),
    alone (.exchangeAuthorizationCode (some "client") ⟨"", [], "client", "", "", true, "", 1, 0, 0⟩)]

/-- A refresh call of the sample client, which presents a refresh token of the sample family. -/
def refreshOf (recordId : Uuid) : Call :=
  .exchangeRefreshToken (some "client") ⟨"", "client", ["mcp"], 0, recordId, 0, 2, 0, none⟩ ["mcp"]

/-- A script line: such a call, by itself. -/
def sampleRefresh (recordId : Uuid) : Cue sorts Call := alone (refreshOf recordId)

end ForgejoMcp.OAuth
