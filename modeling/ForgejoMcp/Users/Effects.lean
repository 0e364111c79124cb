import ForgejoMcp.Users.Services

/-!
# What the operations change

An operation that succeeds has one of the effects listed here, with what it has checked; every
invariant is derived from this list.
-/

namespace ForgejoMcp.Users

open Transactions

variable {lib : Library} {db db' : Db}

/-- A call of one of the operations that run as one transaction, with what it reads from the clock
and what it draws. -/
inductive Op
  | createUser (userId accountId : Uuid) (salt : ℕ)
      (token displayName username forgejoUsername : String)
  | createInvitation (userId : Uuid) (now : Time) (id : Uuid) (rawToken : String)
  | revokeInvitation (userId invitationId : Uuid) (now : Time)
  | login (username password : String) (now : Time) (ttlHours : ℕ) (id : Uuid)
      (sessionToken : String)
  | changePassword (sessionToken : String) (checkedAt now : Time) (salt : ℕ)
      (currentPassword newPassword : String)
  | disableUser (userId : Uuid) (now : Time)
  | enableUser (userId : Uuid)

/-- The transaction of a call. -/
def Op.run (lib : Library) (dummyHash : String) (db : Db) : Op → Except Failure Db
  | .createUser userId accountId salt token displayName username forgejoUsername =>
    Users.createUser lib db userId accountId salt token displayName username forgejoUsername
  | .createInvitation userId now id rawToken =>
    Users.createInvitation lib db userId now id rawToken
  | .revokeInvitation userId invitationId now => Users.revokeInvitation db userId invitationId now
  | .login username password now ttlHours id sessionToken =>
    Users.login lib dummyHash db username password now ttlHours id sessionToken
  | .changePassword sessionToken checkedAt now salt currentPassword newPassword =>
    Users.changePassword lib db sessionToken checkedAt now salt currentPassword newPassword
  | .disableUser userId now => Users.disableUser db userId now
  | .enableUser userId => Users.enableUser db userId

/-- The user that a call works on. -/
def Op.user (lib : Library) (db : Db) : Op → Option Uuid
  | .createUser userId .. => some userId
  | .createInvitation userId .. => some userId
  | .revokeInvitation userId .. => some userId
  | .login username .. =>
    (db.byNormalizedUsername (normalizeUsername lib username)).bind (·.userId)
  | .changePassword sessionToken .. => do
    let session ← db.sessionByTokenHash (lib.hashToken sessionToken)
    let account ← db.accounts.get session.accountId
    account.userId
  | .disableUser userId _ => some userId
  | .enableUser userId => some userId

/-- The invitation can still be accepted, until it expires. -/
def UserInvitation.Open (i : UserInvitation) : Prop := i.usedAt = none ∧ i.revokedAt = none

theorem setPassword_keeps (passwordHash : String) (a : DashboardAccount) :
    { a with passwordHash := passwordHash, mustChangePassword := false : DashboardAccount }.id =
      a.id := rfl

/-- The attributes of an account that `change_password` sets. -/
def setPassword (passwordHash : String) : Assign fun a : DashboardAccount => a.id :=
  ⟨fun a => { a with passwordHash := passwordHash, mustChangePassword := false },
    setPassword_keeps passwordHash⟩

/-- The effects of the operations. -/
inductive Effect (lib : Library) (db : Db) : Op → Db → Prop
  | createUser {userId accountId : Uuid} {salt : ℕ}
      {token displayName username forgejoUsername : String} {user : User}
      {account : DashboardAccount} (huser : db.users.get user.id = none)
      (haccount : db.accounts.get account.id = none)
      (hfree : ∀ a ∈ db.accounts, a.userId ≠ some userId)
      (hid : user.id = userId) (howner : account.userId = some userId)
      (hpending : user.status = .pending ∧ account.status = .pending)
      (hmust : account.mustChangePassword = true) :
      Effect lib db (.createUser userId accountId salt token displayName username forgejoUsername)
        { db with users := db.users.insert user, accounts := db.accounts.insert account }
  | createInvitation {userId : Uuid} {now : Time} {id : Uuid} {rawToken : String} {user : User}
      {invitation : UserInvitation} (huser : db.users.get userId = some user)
      (hstatus : user.status ≠ .disabled) (hnew : db.invitations.get invitation.id = none)
      (hhash : ∀ i ∈ db.invitations, i.tokenHash ≠ invitation.tokenHash)
      (howner : invitation.userId = userId) (hpurpose : invitation.purpose = "activation") :
      Effect lib db (.createInvitation userId now id rawToken)
        { db with invitations :=
            (db.revokeActive userId "activation" now).invitations.insert invitation }
  | revokeInvitation {userId : Uuid} {now : Time} {invitation : UserInvitation}
      (hinvitation : invitation ∈ db.invitations) (howner : invitation.userId = userId) :
      Effect lib db (.revokeInvitation userId invitation.id now)
        { db with invitations :=
            db.invitations.assign invitation.id (UserInvitation.revoke now) }
  | login {username password : String} {now : Time} {ttlHours : ℕ} {id : Uuid}
      {sessionToken : String} {account : DashboardAccount} {session : Session}
      (haccount : account ∈ db.accounts) (hactive : account.status = .active)
      (hnew : db.sessions.get session.id = none)
      (hhash : ∀ s ∈ db.sessions, s.sessionTokenHash ≠ session.sessionTokenHash)
      (howner : session.accountId = account.id) :
      Effect lib db (.login username password now ttlHours id sessionToken)
        { db with sessions := db.sessions.insert session }
  | changePassword {sessionToken : String} {checkedAt now : Time} {salt : ℕ}
      {currentPassword newPassword : String} {session : Session} {account : DashboardAccount}
      {passwordHash : String}
      (hsession : db.sessionByTokenHash (lib.hashToken sessionToken) = some session)
      (haccount : db.accounts.get session.accountId = some account) (hactive : account.status = .active) :
      Effect lib db (.changePassword sessionToken checkedAt now salt currentPassword newPassword)
        (Db.revokeForAccount { db with
          accounts := db.accounts.assign account.id (setPassword passwordHash) }
          account.id now (some session.id))
  | disableUser {userId : Uuid} {now : Time} {user : User} {account : DashboardAccount}
      (huser : db.users.get userId = some user) (haccount : db.accountOf userId = some account) :
      Effect lib db (.disableUser userId now)
        ((((db.setUser userId .disabled (some now)).setAccountStatus account.id
          .disabled).revokeForAccount account.id now none).revokeAllActive userId now)
  | disableUserAlone {userId : Uuid} {now : Time} {user : User}
      (huser : db.users.get userId = some user) (haccount : db.accountOf userId = none) :
      Effect lib db (.disableUser userId now)
        ((db.setUser userId .disabled (some now)).revokeAllActive userId now)
  | enableUser {userId : Uuid} {user : User} {account : DashboardAccount} {status : RecordStatus}
      (huser : db.users.get userId = some user) (haccount : db.accountOf userId = some account)
      (hstatus : status = if account.mustChangePassword then .pending else .active) :
      Effect lib db (.enableUser userId) ((db.setUser userId status none).setAccountStatus account.id
        status)

/-! ### One operation at a time -/

theorem orFail_eq_ok {α : Type} {failure : Failure} {x : Option α} {a : α} :
    orFail failure x = .ok a ↔ x = some a := by
  cases x <;> simp [orFail]

theorem rejectIf_eq_ok {p : Prop} [Decidable p] {failure : Failure} {u : Unit} :
    rejectIf p failure = .ok u ↔ ¬ p := by
  unfold rejectIf
  split <;> simp_all

theorem accountOf_mem {userId : Uuid} {account : DashboardAccount}
    (h : db.accountOf userId = some account) :
    account ∈ db.accounts ∧ account.userId = some userId :=
  ⟨List.mem_of_find?_eq_some h, by simpa using List.find?_some h⟩

theorem createUser_effect {userId accountId : Uuid} {salt : ℕ}
    {token displayName username forgejoUsername : String}
    (h : createUser lib db userId accountId salt token displayName username forgejoUsername =
      .ok db') :
    Effect lib db (.createUser userId accountId salt token displayName username forgejoUsername)
      db' := by
  unfold createUser at h
  simp only [bind_eq_ok, orFail_eq_ok, Table.insertUnique_eq_some] at h
  obtain ⟨-, -, passwordHash, -, -, ⟨huser, -, rfl⟩, -, ⟨haccount, hclash, rfl⟩, h⟩ := h
  obtain rfl := Except.ok.inj h
  refine .createUser huser haccount (fun a ha howner => ?_) rfl rfl ⟨rfl, rfl⟩ rfl
  simpa [howner] using hclash a ha

theorem createInvitation_effect {userId : Uuid} {now : Time} {id : Uuid} {rawToken : String}
    (h : createInvitation lib db userId now id rawToken = .ok db') :
    Effect lib db (.createInvitation userId now id rawToken) db' := by
  unfold createInvitation at h
  simp only [bind_eq_ok, orFail_eq_ok, rejectIf_eq_ok, Table.insertUnique_eq_some] at h
  obtain ⟨user, huser, -, hstatus, -, ⟨hnew, hclash, rfl⟩, h⟩ := h
  obtain rfl := Except.ok.inj h
  obtain rfl : user.id = userId := Table.key_of_get huser
  -- `revoke_active` keeps the identifiers and the hashes of the invitations.
  refine .createInvitation huser hstatus ?_ (fun i hi heq => ?_) rfl rfl
  · simpa [Db.revokeActive, Table.get_update] using hnew
  · have hkept := hclash _ (Table.mem_update.2 ⟨i, hi, rfl⟩)
    simp [apply_ite UserInvitation.tokenHash, UserInvitation.revoke, heq] at hkept

theorem revokeInvitation_effect {userId invitationId : Uuid} {now : Time}
    (h : revokeInvitation db userId invitationId now = .ok db') :
    Effect lib db (.revokeInvitation userId invitationId now) db' := by
  unfold revokeInvitation at h
  simp only [bind_eq_ok, orFail_eq_ok] at h
  obtain ⟨invitation, hfind, h⟩ := h
  obtain rfl := Except.ok.inj h
  have hmem : invitation ∈ db.invitations := List.mem_of_find?_eq_some hfind
  obtain ⟨rfl, howner⟩ : invitation.id = invitationId ∧ invitation.userId = userId := by
    simpa using List.find?_some hfind
  exact .revokeInvitation hmem howner

theorem login_effect {dummyHash username password : String} {now : Time} {ttlHours : ℕ} {id : Uuid}
    {sessionToken : String}
    (h : login lib dummyHash db username password now ttlHours id sessionToken = .ok db') :
    Effect lib db (.login username password now ttlHours id sessionToken) db' := by
  unfold login at h
  dsimp only at h
  split at h
  · cases h
  · next account hfind =>
    simp only [bind_eq_ok, orFail_eq_ok, rejectIf_eq_ok, Table.insertUnique_eq_some] at h
    obtain ⟨-, hchecks, -, ⟨hnew, hclash, rfl⟩, h⟩ := h
    obtain rfl := Except.ok.inj h
    have hactive : account.status = .active := by simpa using (not_or.1 hchecks).2
    exact .login (List.mem_of_find?_eq_some hfind) hactive hnew
      (fun s hs heq => by simpa [heq] using hclash s hs) rfl

/-- The session of a token that is accepted, with an account that is ACTIVE. -/
theorem getCurrentSession_eq_ok {sessionToken : String} {now : Time} {session : Session}
    {account : DashboardAccount}
    (h : getCurrentSession lib db sessionToken now = .ok (session, account)) :
    db.sessionByTokenHash (lib.hashToken sessionToken) = some session ∧
      session.revokedAt = none ∧ db.accounts.get session.accountId = some account ∧
      account.status = .active := by
  unfold getCurrentSession at h
  simp only [bind_eq_ok, orFail_eq_ok, rejectIf_eq_ok] at h
  obtain ⟨record, hrecord, -, hlive, account', haccount, -, hactive, h⟩ := h
  obtain ⟨rfl, rfl⟩ := Prod.mk.inj (Except.ok.inj h)
  exact ⟨hrecord, by simpa using (not_or.1 hlive).1, haccount,
    by simpa using (not_or.1 hactive).1⟩

theorem changePassword_effect {sessionToken : String} {checkedAt now : Time} {salt : ℕ}
    {currentPassword newPassword : String}
    (h : changePassword lib db sessionToken checkedAt now salt currentPassword newPassword =
      .ok db') :
    Effect lib db (.changePassword sessionToken checkedAt now salt currentPassword newPassword)
      db' := by
  unfold changePassword at h
  simp only [bind_eq_ok, rejectIf_eq_ok] at h
  obtain ⟨⟨current, account⟩, hcurrent, -, -, -, -, -, -, passwordHash, -, h⟩ := h
  obtain rfl := Except.ok.inj h
  obtain ⟨hsession, -, haccount, hactive⟩ := getCurrentSession_eq_ok hcurrent
  exact .changePassword hsession haccount hactive

theorem disableUser_effect {userId : Uuid} {now : Time}
    (h : disableUser db userId now = .ok db') : Effect lib db (.disableUser userId now) db' := by
  unfold disableUser at h
  simp only [bind_eq_ok, orFail_eq_ok] at h
  obtain ⟨user, huser, h⟩ := h
  obtain rfl : user.id = userId := Table.key_of_get huser
  split at h
  · next haccount =>
    obtain rfl := Except.ok.inj h
    exact .disableUserAlone huser haccount
  · next account haccount =>
    obtain rfl := Except.ok.inj h
    exact .disableUser huser haccount

theorem enableUser_effect {userId : Uuid} (h : enableUser db userId = .ok db') :
    Effect lib db (.enableUser userId) db' := by
  unfold enableUser at h
  simp only [bind_eq_ok, orFail_eq_ok] at h
  obtain ⟨user, huser, account, haccount, h⟩ := h
  obtain rfl : user.id = userId := Table.key_of_get huser
  obtain rfl := Except.ok.inj h
  exact .enableUser huser haccount rfl

/-- A transaction that commits has one of the effects. -/
theorem Op.effect {dummyHash : String} {op : Op} (h : op.run lib dummyHash db = .ok db') :
    Effect lib db op db' := by
  cases op with
  | createUser => exact createUser_effect h
  | createInvitation => exact createInvitation_effect h
  | revokeInvitation => exact revokeInvitation_effect h
  | login => exact login_effect h
  | changePassword => exact changePassword_effect h
  | disableUser => exact disableUser_effect h
  | enableUser => exact enableUser_effect h

end ForgejoMcp.Users
