import ForgejoMcp.Credentials.System

/-!
# The serial model of the credential system

What each committed transaction finds and what it leaves, as if the transactions ran one after the
other.  What a transaction read earlier (the user that a token is saved for, the active credential
of a user that is disabled, the configuration that a link is started with) is described by the
states of the history it was read from.
-/

namespace ForgejoMcp.Credentials

open Transactions
open Forgejo (Bytes EncryptedCredential ForgejoOAuthClientConfiguration)

namespace Db

variable (db : Db)

/-! ### What the transactions write -/

/-- The credential is revoked. -/
def revokeCredential (id : Uuid) (now : Time) : Db :=
  { db with
    forgejoCredentials := db.forgejoCredentials.update (fun r => decide (r.id = id))
      (ForgejoCredential.revokeSecret now) }

/-- The credential that was found active is revoked, if there is one. -/
def revokeFound (found : Option Uuid) (now : Time) : Db :=
  match found with
  | none => db
  | some id => db.revokeCredential id now

/-- A credential is added. -/
def addCredential (row : ForgejoCredential) : Db :=
  { db with forgejoCredentials := db.forgejoCredentials.insert row }

/-- The credential gets a new pair. -/
def storeTokens (id : Uuid) (access refresh : EncryptedCredential) (expiresAt : Time) : Db :=
  { db with
    forgejoCredentials := db.forgejoCredentials.update (fun r => decide (r.id = id))
      (ForgejoCredential.storeTokens access refresh expiresAt) }

/-- The changes between two values of a user are written. -/
def updateUser (loaded value : User) : Db :=
  { db with
    users := db.users.update (fun u => decide (u.id = loaded.id)) (User.flush loaded value) }

/-- A request is added, and those of the deleted ones that still match are gone. -/
def startRequest (request : ForgejoOAuthRequest) (deleted : List Uuid)
    (p : ForgejoOAuthRequest → Bool) : Db :=
  { db with
    forgejoOauthRequests := (db.forgejoOauthRequests.delete fun r =>
      decide (r.id ∈ deleted) && p r).insert request }

/-- The request is consumed. -/
def consumeRequest (id : Uuid) (now : Time) : Db :=
  { db with
    forgejoOauthRequests := db.forgejoOauthRequests.update (fun r => decide (r.id = id))
      (ForgejoOAuthRequest.consume now) }

/-! ### What the transactions find -/

/-- An active credential of the user is the one that was found. -/
def OnlyActive (userId : Uuid) (found : Option Uuid) : Prop :=
  ∀ r ∈ db.forgejoCredentials, r.userId = userId → r.status = .active → found = some r.id

/-- The accounts have kept their users and whether their passwords must be changed. -/
def KeepsAccounts (db' : Db) : Prop :=
  ∀ id, (db'.accounts.get id).map (fun a => (a.userId, a.mustChangePassword)) =
    (db.accounts.get id).map fun a => (a.userId, a.mustChangePassword)

end Db

/-! ### Footprints and numbers -/

/-- The locked rows a commit may change. -/
def footprint : Label → List Key
  | .requestStarted request deleted => .request request.id :: deleted.map .request
  | .requestConsumed request _ => [.request request.id]
  | .credentialSaved row replaced _ _ =>
      [.credential row.id, .activeCredential row.userId] ++ replaced.toList.map .credential
  | .credentialRefreshed id _ | .credentialRevoked id => [.credential id]
  | .userUpdated _ _ revoked _ | .userDisabled _ revoked _ => revoked.toList.map .credential
  | .instanceConfigured => [.forgejoInstance]
  | .configurationSaved _ => [.configuration]
  | .verificationFailed _ | .tokenRead | .userEnabled _ _ _ | .environment => []

/-- The drawn numbers a commit puts into the database. -/
def ids : Label → List ℕ
  | .requestStarted request _ => [request.id]
  | .credentialSaved row _ _ _ => [row.id]
  | _ => []

/-! ### Secrets -/

/-- A ciphertext of the text. -/
def Seals (server : Server) (ciphertext nonce : Option Bytes) (text : String) : Prop :=
  ∃ key n data, ciphertext = some (server.lib.aead.encrypt key n text data) ∧ nonce = some n

/-- The secrets of the credential are the pair. -/
structure HoldsPair (server : Server) (r : ForgejoCredential) (pair : ForgejoOAuthTokens) :
    Prop where
  access : Seals server r.encryptedToken r.nonce pair.accessToken
  refresh : Seals server r.encryptedRefreshToken r.refreshNonce pair.refreshToken

/-- The credential has no secret. -/
structure Erased (r : ForgejoCredential) : Prop where
  encryptedToken : r.encryptedToken = none
  nonce : r.nonce = none
  encryptedRefreshToken : r.encryptedRefreshToken = none
  refreshNonce : r.refreshNonce = none

/-! ### Steps -/

variable (server : Server) (base : Db) (h : List (Entry sorts)) (e : Entry sorts)

/-- A number that no row uses yet. -/
def Fresh (n : ℕ) : Prop := ∀ e ∈ h, n ∉ ids e.label

/-- A committed state since the transaction began. -/
def Seen (P : Db → Prop) : Prop := ∃ n, e.began ≤ n ∧ n ≤ h.length ∧ P (after base (h.take n))

/-- The OAuth configuration in effect. -/
def Db.configured (server : Server) (configuration : ForgejoOAuthClientConfiguration) (db : Db) :
    Prop :=
  Forgejo.resolve server.lib server.settings (db.forgejoOauthConfigurations.get ()) =
    .ok (some configuration)

/-- A linking request belongs to the instance and the configuration that its transaction read, and
to a session that could link an account. -/
structure Binds (request : ForgejoOAuthRequest) : Prop where
  linkable : ∃ now, Seen base h e (Db.linkable request.sessionId now · = true)
  inst : Seen base h e fun db => ∃ inst, db.forgejoInstances.get () = some inst ∧
    request.instanceId = inst.id ∧ request.baseUrl = inst.baseUrl
  configuration : Seen base h e fun db => ∃ configuration, db.configured server configuration ∧
    request.clientId = configuration.clientId ∧ request.redirectUrl = configuration.redirectUrl ∧
    request.configRevision = configuration.revision

/-- The active credential of a user, as it was found after `readAt` commits. -/
structure FoundActive (userId : Uuid) (found : Option Uuid) (readAt : ℕ) : Prop where
  readAt_le : readAt ≤ h.length
  only : (after base (h.take readAt)).OnlyActive userId found

/-- A saved credential is that of a user who was active and had its name after `readAt` commits; it
is the only active one; and it stores the pair it was saved with. -/
structure Saves (row : ForgejoCredential) (replaced : Option Uuid)
    (pair : Option ForgejoOAuthTokens) (readAt : ℕ) : Prop where
  fresh : Fresh h row.id
  active : row.status = .active
  readAt_le : readAt ≤ h.length
  user : ∃ user, (after base (h.take readAt)).users.get row.userId = some user ∧
    user.status = .active ∧ user.normalizedForgejoUsername = row.normalizedForgejoUsername
  only : (after base h).OnlyActive row.userId replaced
  kind : row.kind = .oauth ↔ pair.isSome = true
  holds : ∀ p, pair = some p → HoldsPair server row p

/-- The steps of the serial model, by label. -/
def Step : Prop :=
  let db := after base h
  match e.label with
  | .requestStarted request deleted => ∃ p created, e.db = db.startRequest request deleted p ∧
      Fresh h request.id ∧ request.consumedAt = none ∧
      request.expiresAt = created + seconds 600 ∧ Binds server base h e request
  | .requestConsumed request time => ∃ now, e.db = db.consumeRequest request.id now ∧
      db.forgejoOauthRequests.get request.id = some request ∧ request.consumedAt = none ∧
      time < request.expiresAt ∧ Binds server base h e request
  | .verificationFailed _ | .tokenRead => e.db = db
  | .credentialSaved row replaced pair readAt => ∃ now,
      e.db = (db.revokeFound replaced now).addCredential row ∧
      Saves server base h row replaced pair readAt
  | .credentialRefreshed id pair => ∃ row access refresh expiresAt,
      e.db = db.storeTokens id access refresh expiresAt ∧
      db.forgejoCredentials.get id = some row ∧ row.status = .active ∧
      Seals server (some access.ciphertext) (some access.nonce) pair.accessToken ∧
      Seals server (some refresh.ciphertext) (some refresh.nonce) pair.refreshToken
  | .credentialRevoked id => ∃ now, e.db = db.revokeCredential id now
  | .userUpdated id renamed revoked readAt => ∃ loaded value now,
      e.db = (db.updateUser loaded value).revokeFound revoked now ∧ loaded.id = id ∧
      value.status = loaded.status ∧
      if renamed then FoundActive base h id revoked readAt
      else value.normalizedForgejoUsername = loaded.normalizedForgejoUsername
  | .userDisabled id revoked readAt => ∃ loaded value now accounts sessions,
      e.db = { ((db.updateUser loaded value).revokeFound revoked now) with
        accounts := accounts, sessions := sessions } ∧ db.KeepsAccounts e.db ∧ loaded.id = id ∧
      value.status = .disabled ∧
      value.normalizedForgejoUsername = loaded.normalizedForgejoUsername ∧
      FoundActive base h id revoked readAt
  | .userEnabled id status readAt => ∃ loaded value accounts,
      e.db = { db.updateUser loaded value with accounts := accounts } ∧ db.KeepsAccounts e.db ∧
      loaded.id = id ∧ value.status = status ∧
      value.normalizedForgejoUsername = loaded.normalizedForgejoUsername ∧ readAt ≤ h.length ∧
      ∃ account ∈ (after base (h.take readAt)).accounts, account.userId = some id ∧
        status = if account.mustChangePassword then .pending else .active
  | .instanceConfigured => ∃ instances, e.db = { db with forgejoInstances := instances }
  | .configurationSaved first => ∃ configurations,
      e.db = { db with forgejoOauthConfigurations := configurations } ∧
      configurations.get () ≠ none ∧
      (db.forgejoOauthConfigurations.get () = none ↔ first = true)
  | .environment => ∃ change, e.db = envDb change db

end ForgejoMcp.Credentials
