import ForgejoMcp.Credentials.Service

/-!
# What administrators change

`update_user`, `disable_user` and `enable_user` of `UserService`, `ForgejoInstanceService.configure`
and `ForgejoOAuthConfigService.save`.
-/

namespace ForgejoMcp.Credentials

open Transactions Rows
open Forgejo (strip)
open Users (flushed)

variable (server : Server)

/-! ### Users -/

/-- `User.account`, with the number of commits before it was read. -/
def accountOf (userId : Uuid) : P (ℕ × Option Account) :=
  query fun n db => (n, db.accounts.rows.find? fun a => a.userId = some userId)

/-- The attributes of a user that were set to another value than the loaded one. -/
def User.flush (loaded value : User) : Assign User.id where
  apply u := { u with
    expectedForgejoUsername := flushed loaded.expectedForgejoUsername
      value.expectedForgejoUsername u.expectedForgejoUsername
    normalizedForgejoUsername := flushed loaded.normalizedForgejoUsername
      value.normalizedForgejoUsername u.normalizedForgejoUsername
    status := flushed loaded.status value.status u.status
    disabledAt := flushed loaded.disabledAt value.disabledAt u.disabledAt }
  keeps _ := rfl

/-- The `UPDATE` of a user, if an attribute was changed. It is false if the name that was set is the
name of another user. -/
def flushUser (loaded value : User) : P Bool :=
  if value = loaded then return true
  else
    let renamed := value.normalizedForgejoUsername ≠ loaded.normalizedForgejoUsername
    exec (users.exclusive loaded.id ::
        if renamed then [⟨.forgejoUsername value.normalizedForgejoUsername, true⟩] else []) fun db =>
      (decide (renamed → ∀ u ∈ db.users.rows, u.id ≠ loaded.id →
          u.normalizedForgejoUsername ≠ value.normalizedForgejoUsername),
        [users.updatedKey loaded.id (User.flush loaded value)])

/-- The `UPDATE` of the status of an account, if it was changed. -/
def flushAccountStatus (loaded : Account) (status : RecordStatus) : P Unit :=
  if status = loaded.status then return ()
  else accounts.updateKey loaded.id ⟨fun a => { a with status := status }, fun _ => rfl⟩

/-- `update_user`. -/
def updateUser (userId : Uuid) (displayName forgejoUsername : String) : P Unit := do
  let user ← getUser none userId
  Prog.rejectIf (strip displayName = "" ∨ strip forgejoUsername = "")
    (validationFailed "user fields cannot be blank")
  let name := strip forgejoUsername
  let normalized := Users.normalizeUsername server.users name
  let value := { user.row with
    expectedForgejoUsername := name
    normalizedForgejoUsername := normalized }
  let time ← now
  if normalized ≠ user.row.normalizedForgejoUsername then do
    let (readAt, current) ← activeForUser user.row.id
    if ← flushUser user.row value then do
      flushRevoked current time
      commit (.userUpdated userId true (current.map (·.id)) readAt)
    else do
      rollback
      throw (conflict "Forgejo username already exists")
  else do
    let _ ← flushUser user.row value
    commit (.userUpdated userId false none user.readAt)

/-- `disable_user`. -/
def disableUser (userId : Uuid) : P Unit := do
  let user ← getUser none userId
  let (_, account) ← accountOf user.row.id
  let time ← now
  let _ ← flushUser user.row { user.row with status := .disabled, disabledAt := some time }
  match account with
  | none => pure ()
  | some account => do
    flushAccountStatus account .disabled
    let _ ← sessions.update (fun s => s.accountId = account.id ∧ s.revokedAt = none)
      (Users.Session.revoke time)
  let (readAt, current) ← activeForUser user.row.id
  flushRevoked current time
  commit (.userDisabled userId (current.map (·.id)) readAt)

/-- `enable_user`. -/
def enableUser (userId : Uuid) : P Unit := do
  let user ← getUser none userId
  let (readAt, found) ← accountOf user.row.id
  let account ← Prog.require found (conflict "user account is missing")
  let nextStatus := if account.mustChangePassword then RecordStatus.pending else .active
  let _ ← flushUser user.row { user.row with status := nextStatus, disabledAt := none }
  flushAccountStatus account nextStatus
  commit (.userEnabled userId nextStatus readAt)

/-! ### The instance -/

/-- `check`. -/
def check (baseUrl : String) (verifyTls : Bool) : P String := do
  let url ← match server.normalizeBaseUrl baseUrl with
    | .ok url => pure url
    | .error message => throw (validationFailed message)
  Prog.rejectIf (server.settings.permitsForgejoBaseUrl url = false)
    (validationFailed "Forgejo base URL is not permitted by deployment policy")
  Prog.rejectIf (verifyTls = false ∧ server.settings.allowUnverifiedForgejoTls = false)
    (validationFailed
      "unverified Forgejo TLS is disabled; enable it explicitly in deployment policy")
  Prog.rejectIf ((server.lib.urlsplit url).map (·.scheme) = some "http" ∧
      server.settings.allowInsecureForgejoHttp = false)
    (validationFailed
      "HTTP Forgejo URLs are disabled; use HTTPS or explicitly allow insecure HTTP")
  let _ ← getVersion url verifyTls
  return url

/-- `configure`. -/
def configure (displayName baseUrl : String) (verifyTls : Bool) : P Unit := do
  Prog.rejectIf (strip displayName = "") (validationFailed "display name cannot be blank")
  let url ← check server baseUrl verifyTls
  match ← primary none with
  | none => do
    let id ← fresh
    forgejoInstances.insert [⟨id, url, verifyTls⟩] .integrityError
    commit .instanceConfigured
  | some loaded => do
    forgejoInstances.updateKey () ⟨fun r => { r with
      baseUrl := flushed loaded.baseUrl url r.baseUrl
      verifyTls := flushed loaded.verifyTls verifyTls r.verifyTls }, fun _ => rfl⟩
    commit .instanceConfigured

/-! ### The OAuth configuration -/

/-- The end of `save` of the OAuth configuration, with the record that was found. -/
def writeConfiguration (found : Option Forgejo.ForgejoOAuthConfiguration)
    (saved : Forgejo.ForgejoOAuthConfiguration) : P Unit :=
  match found with
  | some _ => do
    forgejoOauthConfigurations.updateKey () ⟨fun _ => saved, fun _ => rfl⟩
    commit (.configurationSaved false)
  | none => do
    let added ← exec [forgejoOauthConfigurations.exclusive ()] fun db =>
      ((db.forgejoOauthConfigurations.get ()).isNone,
        [forgejoOauthConfigurations.inserted [saved]])
    if added then commit (.configurationSaved true)
    else do
      rollback
      throw (conflict "OAuth configuration changed concurrently; reload and try again")

/-- `save` of the OAuth configuration. -/
def saveConfiguration (request : Forgejo.SaveRequest) : P Unit := do
  let found ← forgejoOauthConfigurations.selectForUpdate fun _ => true
  let id ← fresh
  let revision ← fresh
  let n ← fresh
  let saved ← fallible (Forgejo.save server.lib server.settings ⟨id, revision, server.nonce n⟩ found
    request)
  writeConfiguration found saved

end ForgejoMcp.Credentials
