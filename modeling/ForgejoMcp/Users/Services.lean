import ForgejoMcp.Forgejo.Configuration

/-!
# Users, invitations and sessions

The operations of `UserService`, `InvitationService` and `AuthService` on the users of the
Dashboard, each as one transaction on the tables they share.  `InvitationService.accept` is given by
its reads, its checks and its writes, so that several of its calls can overlap.
-/

namespace ForgejoMcp.Users

open Transactions
open Forgejo (strip)

/-- An account, with the columns that a login reads. -/
structure DashboardAccount extends Account where
  normalizedUsername : String
  passwordHash : String
  deriving DecidableEq, Repr

/-- A row of `user_invitations`. -/
structure UserInvitation where
  id : Uuid
  userId : Uuid
  tokenHash : String
  purpose : String
  expiresAt : Time
  usedAt : Option Time
  revokedAt : Option Time
  deriving DecidableEq, Repr

/-- A row of `sessions`. -/
structure Session where
  id : Uuid
  accountId : Uuid
  sessionTokenHash : String
  expiresAt : Time
  revokedAt : Option Time
  deriving DecidableEq, Repr

/-- The tables, each with its rows in the order in which they were created. -/
structure Db where
  users : Table Uuid User User.id
  accounts : Table Uuid DashboardAccount fun a => a.id
  invitations : Table Uuid UserInvitation UserInvitation.id
  sessions : Table Uuid Session Session.id

/-- Failures of the services, with their messages. -/
inductive Failure
  | notFound (message : String)
  | conflict (message : String)
  | gone (message : String)
  | validationFailed (message : String)
  | authenticationFailed (message : String)
  | unauthorized (message : String)
  | valueError (message : String)
  | integrityError
  deriving DecidableEq, Repr

/-- `unicodedata`, the password hasher and SHA-256. -/
structure Library where
  nfkc : String → String
  casefold : String → String
  hash : ℕ → String → String
  verify : String → String → Bool
  hashToken : String → String

variable (lib : Library)

/-- `normalize_username`. -/
def normalizeUsername (username : String) : String := lib.casefold (strip (lib.nfkc username))

/-- `hash_password`, with the salt it draws. -/
def hashPassword (salt : ℕ) (password : String) : Except Failure String :=
  if password.length < 12 then
    .error (.valueError "password must contain at least 12 characters")
  else .ok (lib.hash salt password)

/-- An `INSERT` that violates no constraint, or the failure it raises. -/
def orFail {α : Type} (failure : Failure) : Option α → Except Failure α
  | none => .error failure
  | some a => .ok a

/-- `raise` under a condition. -/
def rejectIf (p : Prop) [Decidable p] (failure : Failure) : Except Failure Unit :=
  if p then .error failure else .ok ()

/-! ### Repositories -/

/-- `User.account`. -/
def Db.accountOf (db : Db) (userId : Uuid) : Option DashboardAccount :=
  db.accounts.rows.find? fun a => a.userId = some userId

/-- `AccountRepository.by_normalized_username`. -/
def Db.byNormalizedUsername (db : Db) (username : String) : Option DashboardAccount :=
  db.accounts.rows.find? fun a => a.normalizedUsername = username

/-- `InvitationRepository.by_token_hash`, without what it loads with the invitation. -/
def Db.byTokenHash (db : Db) (tokenHash : String) : Option UserInvitation :=
  db.invitations.rows.find? fun i => i.tokenHash = tokenHash

/-- `SessionRepository.by_token_hash`. -/
def Db.sessionByTokenHash (db : Db) (tokenHash : String) : Option Session :=
  db.sessions.rows.find? fun s => s.sessionTokenHash = tokenHash

/-- The invitation is revoked. -/
def UserInvitation.revoke (revokedAt : Time) : Assign UserInvitation.id :=
  ⟨fun i => { i with revokedAt := some revokedAt }, fun _ => rfl⟩

/-- The session is revoked. -/
def Session.revoke (revokedAt : Time) : Assign Session.id :=
  ⟨fun s => { s with revokedAt := some revokedAt }, fun _ => rfl⟩

/-- `InvitationRepository.revoke_active`. -/
def Db.revokeActive (db : Db) (userId : Uuid) (purpose : String) (revokedAt : Time) : Db :=
  { db with invitations := db.invitations.update (fun i => i.userId = userId ∧
      i.purpose = purpose ∧ i.usedAt = none ∧ i.revokedAt = none) (UserInvitation.revoke revokedAt) }

/-- `InvitationRepository.revoke_all_active`. -/
def Db.revokeAllActive (db : Db) (userId : Uuid) (revokedAt : Time) : Db :=
  { db with invitations := db.invitations.update (fun i => i.userId = userId ∧
      i.usedAt = none ∧ i.revokedAt = none) (UserInvitation.revoke revokedAt) }

/-- `SessionRepository.revoke_for_account`. -/
def Db.revokeForAccount (db : Db) (accountId : Uuid) (revokedAt : Time) (exceptId : Option Uuid) :
    Db :=
  { db with sessions := db.sessions.update (fun s => s.accountId = accountId ∧
      s.revokedAt = none ∧ exceptId ≠ some s.id) (Session.revoke revokedAt) }

/-- The attributes of a user that are set, when its transaction flushes. -/
def Db.setUser (db : Db) (id : Uuid) (status : RecordStatus) (disabledAt : Option Time) : Db :=
  { db with
    users := db.users.assign id
      ⟨fun u => { u with status := status, disabledAt := disabledAt }, fun _ => rfl⟩ }

/-- The account gets the status. -/
def Db.setAccountStatus (db : Db) (id : Uuid) (status : RecordStatus) : Db :=
  { db with accounts := db.accounts.assign id ⟨fun a => { a with status := status }, fun _ => rfl⟩ }

/-! ### `UserService` -/

/-- `create_user`, with the identifiers, the salt and the token it draws. -/
def createUser (db : Db) (userId accountId : Uuid) (salt : ℕ)
    (token displayName username forgejoUsername : String) : Except Failure Db := do
  rejectIf (strip displayName = "" ∨ strip username = "" ∨ strip forgejoUsername = "")
    (.validationFailed "user fields cannot be blank")
  let passwordHash ← hashPassword lib salt token
  let user : User :=
    { id := userId, expectedForgejoUsername := strip forgejoUsername,
      normalizedForgejoUsername := normalizeUsername lib (strip forgejoUsername),
      status := .pending, disabledAt := none }
  let account : DashboardAccount :=
    { id := accountId, userId := some userId, role := .user, mustChangePassword := true,
      status := .pending, normalizedUsername := normalizeUsername lib (strip username),
      passwordHash := passwordHash }
  let duplicate := Failure.conflict "dashboard or Forgejo username already exists"
  let users ← orFail duplicate (db.users.insertUnique
    (fun u => u.normalizedForgejoUsername = user.normalizedForgejoUsername) user)
  let accounts ← orFail duplicate (db.accounts.insertUnique
    (fun a => a.normalizedUsername = account.normalizedUsername ∨ a.userId = account.userId)
    account)
  return { db with users := users, accounts := accounts }

/-- `disable_user`, at `now`; credentials are not among the tables. -/
def disableUser (db : Db) (userId : Uuid) (now : Time) : Except Failure Db := do
  let user ← orFail (.notFound "user not found") (db.users.get userId)
  let db' := db.setUser user.id .disabled (some now)
  match db.accountOf user.id with
  | none => return db'.revokeAllActive user.id now
  | some account =>
    return ((db'.setAccountStatus account.id .disabled).revokeForAccount account.id now
      none).revokeAllActive user.id now

/-- `enable_user`. -/
def enableUser (db : Db) (userId : Uuid) : Except Failure Db := do
  let user ← orFail (.notFound "user not found") (db.users.get userId)
  let account ← orFail (.conflict "user account is missing") (db.accountOf user.id)
  let nextStatus := if account.mustChangePassword then RecordStatus.pending else .active
  return (db.setUser user.id nextStatus none).setAccountStatus account.id nextStatus

/-- `create_invitation`, at `now`, with the identifier and the token it draws. -/
def createInvitation (db : Db) (userId : Uuid) (now : Time) (id : Uuid) (rawToken : String) :
    Except Failure Db := do
  let user ← orFail (.notFound "user not found") (db.users.get userId)
  rejectIf (user.status = .disabled) (.conflict "disabled user cannot be invited")
  let db' := db.revokeActive user.id "activation" now
  let invitation : UserInvitation :=
    { id := id, userId := user.id, tokenHash := lib.hashToken rawToken, purpose := "activation",
      expiresAt := now + seconds (30 * 60), usedAt := none, revokedAt := none }
  let invitations ← orFail .integrityError (db'.invitations.insertUnique
    (fun i => i.tokenHash = invitation.tokenHash) invitation)
  return { db' with invitations := invitations }

/-- `revoke_invitation`, at `now`. -/
def revokeInvitation (db : Db) (userId invitationId : Uuid) (now : Time) : Except Failure Db := do
  let invitation ← orFail (.notFound "invitation not found")
    (db.invitations.rows.find? fun i => i.id = invitationId ∧ i.userId = userId)
  return { db with invitations := db.invitations.assign invitation.id (UserInvitation.revoke now) }

/-! ### `AuthService` -/

/-- `login`, at `now`, with the identifier and the token it draws; `dummyHash` is the hash that
stands for an unknown account. -/
def login (dummyHash : String) (db : Db) (username password : String) (now : Time) (ttlHours : ℕ)
    (id : Uuid) (sessionToken : String) : Except Failure Db := do
  let account := db.byNormalizedUsername (normalizeUsername lib username)
  let passwordHash := (account.map (·.passwordHash)).getD dummyHash
  let failed := Failure.authenticationFailed "invalid username or password"
  match account with
  | none => throw failed
  | some account =>
    rejectIf (¬ lib.verify passwordHash password ∨ account.status ≠ .active) failed
    let record : Session :=
      { id := id, accountId := account.id, sessionTokenHash := lib.hashToken sessionToken,
        expiresAt := now + seconds (3600 * ttlHours), revokedAt := none }
    let sessions ← orFail .integrityError (db.sessions.insertUnique
      (fun s => s.sessionTokenHash = record.sessionTokenHash) record)
    return { db with sessions := sessions }

/-- `get_current_session`, at `now`, with the account it loads (there is one: a foreign key). -/
def getCurrentSession (db : Db) (sessionToken : String) (now : Time) :
    Except Failure (Session × DashboardAccount) := do
  let required := Failure.unauthorized "authentication required"
  let record ← orFail required (db.sessionByTokenHash (lib.hashToken sessionToken))
  rejectIf (record.revokedAt ≠ none ∨ record.expiresAt ≤ now) required
  let account ← orFail required (db.accounts.get record.accountId)
  rejectIf (account.status ≠ .active ∨
    ∃ user ∈ account.userId.bind db.users.get, user.status ≠ .active) required
  return (record, account)

/-- `change_password` in the session of a token: the session is checked at `checkedAt`, the others
are revoked at `now`. -/
def changePassword (db : Db) (sessionToken : String) (checkedAt now : Time) (salt : ℕ)
    (currentPassword newPassword : String) : Except Failure Db := do
  let (current, account) ← getCurrentSession lib db sessionToken checkedAt
  rejectIf (¬ lib.verify account.passwordHash currentPassword)
    (.validationFailed "current password is incorrect")
  rejectIf (newPassword.length < 12)
    (.validationFailed "password must contain at least 12 characters")
  rejectIf (lib.verify account.passwordHash newPassword)
    (.validationFailed "new password must be different")
  let passwordHash ← hashPassword lib salt newPassword
  let accounts := db.accounts.assign account.id
    ⟨fun a => { a with passwordHash := passwordHash, mustChangePassword := false }, fun _ => rfl⟩
  return { db with accounts := accounts }.revokeForAccount account.id now (some current.id)

/-! ### `InvitationService.accept` -/

/-- The rows that one `accept` has read: the invitation, its user, and the account of the user. -/
structure Loaded where
  invitation : UserInvitation
  user : User
  account : Option DashboardAccount

/-- The checks of `_load_valid`, at `now`, on an invitation and its user. -/
def checkValid (invitation : UserInvitation) (user : User) (now : Time) : Except Failure Unit := do
  rejectIf (invitation.usedAt ≠ none) (.gone "invitation has already been used")
  rejectIf (invitation.revokedAt ≠ none ∨ invitation.expiresAt ≤ now)
    (.gone "invitation is invalid or expired")
  rejectIf (user.status = .disabled) (.gone "invitation is invalid or expired")

/-- An attribute that a flush writes if it is not the value that was loaded. -/
def flushed {α : Type} [DecidableEq α] (loaded value stored : α) : α :=
  if loaded = value then stored else value

/-- The writes of `accept`, at `now`: attributes that already had their value are not written. -/
def acceptWrites (db : Db) (invitation : UserInvitation) (user : User) (account : DashboardAccount)
    (passwordHash : String) (now : Time) : Db :=
  { db with
    accounts := db.accounts.assign account.id
      ⟨fun a => { a with
        passwordHash := flushed account.passwordHash passwordHash a.passwordHash
        mustChangePassword := flushed account.mustChangePassword false a.mustChangePassword
        status := flushed account.status .active a.status }, fun _ => rfl⟩
    users := db.users.assign user.id
      ⟨fun u => { u with
        status := flushed user.status .active u.status
        disabledAt := flushed user.disabledAt none u.disabledAt }, fun _ => rfl⟩
    invitations := db.invitations.assign invitation.id
      ⟨fun i => { i with usedAt := some now }, fun _ => rfl⟩
  }.revokeForAccount account.id now none

/-- `accept` after its reads: the checks at `checkedAt`, and the writes at `now` to the database as
it then is. -/
def acceptLoaded (loaded : Loaded) (checkedAt now : Time) (salt : ℕ) (password : String) (db : Db) :
    Except Failure Db := do
  checkValid loaded.invitation loaded.user checkedAt
  let account ← orFail (.conflict "invitation account is unavailable") loaded.account
  let passwordHash ← hashPassword lib salt password
  return acceptWrites db loaded.invitation loaded.user account passwordHash now

end ForgejoMcp.Users
