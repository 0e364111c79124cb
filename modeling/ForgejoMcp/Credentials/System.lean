import ForgejoMcp.Credentials.Administration
import ForgejoMcp.Credentials.Linking
import ForgejoMcp.Transactions.Completion

/-!
# The credential system

The routes and services around Forgejo credentials as threads of one system, together with what the
rest of the server may do at any moment: register users, accept their invitations, change passwords,
and open and close sessions of the Dashboard.
-/

namespace ForgejoMcp.Credentials

open Transactions

/-- The calls. Those of an administrator are given without the session they are made in. -/
inductive Call
  | startOauth (sessionToken : String)
  | completeOauth (state code : String) (error browserToken dashboard : Option String)
  | accessToken (userId : Uuid)
  | connection (userId : Uuid)
  | saveCredential (sessionToken token : String)
  | testCredential (sessionToken token : String)
  | revokeCredential (sessionToken : String)
  | adminRevoke (userId : Uuid)
  | updateUser (userId : Uuid) (displayName forgejoUsername : String)
  | disableUser (userId : Uuid)
  | enableUser (userId : Uuid)
  | configureInstance (displayName baseUrl : String) (verifyTls : Bool)
  | saveConfiguration (request : Forgejo.SaveRequest)
  deriving DecidableEq

/-- The results of the calls. -/
inductive Result
  | authorization (authorization : Authorization)
  | outcome (outcome : Outcome)
  | connection (inst : ForgejoInstance) (token : AccessToken)
  | credential (credential : ForgejoCredential)
  | principal (principal : VerifiedForgejoPrincipal)
  | done
  deriving DecidableEq

/-- Changes of tables that the modelled services do not make themselves. -/
inductive EnvDb
  | createUser (user : User) (accountId : Uuid)
  | accept (accountId : Uuid)
  | changePassword (accountId : Uuid)
  | sessions (sessions : Table Uuid Users.Session Users.Session.id)

/-- The user that `create_user` adds. -/
def newUser (user : User) : User := { user with status := .pending, disabledAt := none }

/-- `create_user`, `accept` of an invitation, `change_password`, and any change of the sessions. -/
def envDb : EnvDb → Db → Db
  | .createUser user accountId, db =>
      if db.users.get user.id = none ∧ db.accounts.get accountId = none ∧
          db.accounts.rows.all fun a => a.userId ≠ some user.id then
        { db with
          users := db.users.insert (newUser user)
          accounts := db.accounts.insert ⟨accountId, some user.id, .user, true, .pending⟩ }
      else db
  | .accept accountId, db =>
      match (db.accounts.get accountId).bind (·.userId) with
      | none => db
      | some userId => { db with
          users := db.users.assign userId
            ⟨fun u => { u with status := .active, disabledAt := none }, fun _ => rfl⟩
          accounts := db.accounts.assign accountId
            ⟨fun a => { a with status := .active, mustChangePassword := false }, fun _ => rfl⟩ }
  | .changePassword accountId, db =>
      { db with
        accounts := db.accounts.assign accountId
          ⟨fun a => { a with mustChangePassword := false }, fun _ => rfl⟩ }
  | .sessions sessions, db => { db with sessions := sessions }

variable (server : Server)

/-- The program of a call. -/
def body : Call → P Result
  | .startOauth sessionToken => withSession do
      let (current, userId) ← userSession server sessionToken
      return .authorization (← start server current userId)
  | .completeOauth state code error browserToken dashboard => withSession do
      return .outcome (← completeForgejoOauth server state code error browserToken dashboard)
  | .accessToken userId => withSession do
      let (inst, token) ← accessToken server userId
      return .connection inst token
  | .connection userId => withSession do
      let (inst, token) ← connection server userId
      return .connection inst token
  | .saveCredential sessionToken token => withSession do
      let (current, userId) ← userSession server sessionToken
      return .credential (← save server current.user none userId token none)
  | .testCredential sessionToken token => withSession do
      let (current, userId) ← userSession server sessionToken
      return .principal (← verify server current.user none userId token false)
  | .revokeCredential sessionToken => withSession do
      let (current, userId) ← userSession server sessionToken
      revoke current.user userId
      return .done
  | .adminRevoke userId => withSession do
      revoke none userId
      return .done
  | .updateUser userId displayName forgejoUsername => withSession do
      updateUser server userId displayName forgejoUsername
      return .done
  | .disableUser userId => withSession do
      disableUser userId
      return .done
  | .enableUser userId => withSession do
      enableUser userId
      return .done
  | .configureInstance displayName baseUrl verifyTls => withSession do
      configure server displayName baseUrl verifyTls
      return .done
  | .saveConfiguration request => withSession do
      saveConfiguration server request
      return .done

/-- The credential system of a server. -/
def system : System sorts Call Raised Result where
  body := body server
  release := fun _ m => m
  EnvDb := EnvDb
  envDb := envDb
  envLabel := fun _ => .environment
  EnvMem := Unit
  envMem := fun _ m => m

/-- A database before the first credential is saved and the first link is started. -/
structure Start (db : Db) : Prop where
  forgejoCredentials : db.forgejoCredentials = .empty
  forgejoOauthRequests : db.forgejoOauthRequests = .empty

/-- The initial shared states: such a database, and nothing committed, asked or drawn yet. -/
structure Init (g : Shared sorts) : Prop where
  start : Start g.base
  history : g.history = []
  readings : g.readings = []
  asks : g.asks = []
  drawn : g.drawn = []

/-- A reachable state of the credential system. -/
abbrev Reachable (c : Config sorts Call Raised Result) : Prop :=
  (system server).Reachable Init c

/-! ### A sample -/

/-- A text of 43 characters for every number with at most that many digits. -/
def sampleToken (n : ℕ) : String :=
  let digits := Nat.toDigits 10 n
  String.ofList (List.replicate (43 - digits.length) '0' ++ digits)

/-- A server with an OAuth client in its environment. -/
def sampleServer : Server where
  lib := Forgejo.sampleLibrary
  users := ⟨id, id, fun _ password => password, fun hash password => hash = password, id⟩
  settings := { Forgejo.sampleSettings with
    forgejoOauthClientId := "client"
    forgejoOauthRedirectUrl := "https://mcp.example/api/me/credential/oauth/callback"
    clientId_ne_empty := by decide
    redirect := by decide
    secretFile := by decide }
  tokenUrlsafe := sampleToken
  nonce n := [n]
  normalizeBaseUrl := .ok

/-- One active user, who is signed in, and an instance. -/
def sampleDb : Db where
  users := Table.empty.insert ⟨0, "kim", "kim", .active, none⟩
  accounts := Table.empty.insert ⟨0, some 0, .user, false, .active⟩
  sessions := Table.empty.insert ⟨0, 0, "session", seconds 7200, none⟩
  forgejoInstances := Table.empty.insert ⟨0, "https://forgejo.example", true⟩
  forgejoOauthConfigurations := .empty
  forgejoCredentials := .empty
  forgejoOauthRequests := .empty

/-- The sample before the first commit. -/
def sampleShared : Shared sorts where
  base := sampleDb
  history := []
  clock := 0
  readings := []
  drawn := []
  asks := []
  mem := ()

theorem sample_init : Init sampleShared where
  start := ⟨rfl, rfl⟩
  history := rfl
  readings := rfl
  asks := rfl
  drawn := rfl

/-- The state after a script on the sample. -/
def sampleRun (script : List (Cue sorts Call)) : Config sorts Call Raised Result :=
  (system sampleServer).play script sampleShared

theorem sampleRun_reachable (script : List (Cue sorts Call)) :
    Reachable sampleServer (sampleRun script) :=
  System.reachable_play sample_init script

/-- Actions of a thread that asks nothing. -/
def quietly (n : ℕ) : List Answer := List.replicate n .failed

/-- A script line: a call that runs by itself, and asks nothing. -/
def alone (call : Call) : Cue sorts Call := .call call (quietly 30)

/-- A pair that is valid for 100 seconds. -/
def samplePair (name : String) : Answer :=
  .tokens ⟨"access-" ++ name, "refresh-" ++ name, "bearer", 100⟩

/-- The callback of the link that the sample user starts first, with the answers from the exchange
of its code on. -/
def sampleCallback (answers : List Answer) : Cue sorts Call :=
  .call (.completeOauth (sampleToken 0) "code" none (some (sampleToken 1)) none)
    (quietly 17 ++ answers)

/-- The sample user links an account, and the access token expires. -/
def sampleLink : List (Cue sorts Call) :=
  [alone (.startOauth "session"),
    sampleCallback (samplePair "1" :: quietly 6 ++ .user 7 "kim" :: quietly 30),
    .tick (seconds 200)]

/-- An access token of the sample user, with the answers from the refresh on. -/
def sampleRefresh (answers : List Answer) : Cue sorts Call :=
  .call (.accessToken 0) (quietly 9 ++ answers)

/-- The request of the sample user for the refresh of the first pair. -/
def sampleRefreshQuery : Query :=
  ⟨"https://forgejo.example", true, .token (.refreshToken "refresh-1")
    ⟨"client", "https://mcp.example/api/me/credential/oauth/callback", none, "environment"⟩,
    .refreshes 7⟩

end ForgejoMcp.Credentials
