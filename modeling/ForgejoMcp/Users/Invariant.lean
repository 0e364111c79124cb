import ForgejoMcp.Users.Effects

/-!
# The invariant of the tables

A user has one account, of the same status, which must change its password exactly while it is
PENDING; of the invitations of a user at most the newest is open.
-/

namespace ForgejoMcp.Users

open Transactions

variable {lib : Library} {db db' : Db}

/-! ### Rows that age -/

/-- A later state of an invitation: used and revoked for ever. -/
structure UserInvitation.Aged (i j : UserInvitation) : Prop where
  userId : j.userId = i.userId
  tokenHash : j.tokenHash = i.tokenHash
  purpose : j.purpose = i.purpose
  expiresAt : j.expiresAt = i.expiresAt
  used : i.usedAt ≠ none → j.usedAt ≠ none
  revoked : i.revokedAt ≠ none → j.revokedAt ≠ none

theorem UserInvitation.Aged.refl (i : UserInvitation) : i.Aged i :=
  ⟨rfl, rfl, rfl, rfl, fun h => h, fun h => h⟩

theorem UserInvitation.Aged.trans {i j k : UserInvitation} (hij : i.Aged j) (hjk : j.Aged k) :
    i.Aged k :=
  ⟨hjk.userId.trans hij.userId, hjk.tokenHash.trans hij.tokenHash, hjk.purpose.trans hij.purpose,
    hjk.expiresAt.trans hij.expiresAt, hjk.used ∘ hij.used, hjk.revoked ∘ hij.revoked⟩

/-- An invitation that is closed stays closed. -/
theorem UserInvitation.Aged.isOpen {i j : UserInvitation} (h : i.Aged j) (hj : j.Open) : i.Open :=
  ⟨by_contra fun hi => h.used hi hj.1, by_contra fun hi => h.revoked hi hj.2⟩

theorem UserInvitation.aged_revoke (now : Time) (i : UserInvitation) :
    i.Aged ((UserInvitation.revoke now).apply i) :=
  ⟨rfl, rfl, rfl, rfl, fun h => h, fun _ => Option.some_ne_none now⟩

/-- A later state of a session: revoked for ever. -/
structure Session.Aged (s r : Session) : Prop where
  accountId : r.accountId = s.accountId
  sessionTokenHash : r.sessionTokenHash = s.sessionTokenHash
  revoked : s.revokedAt ≠ none → r.revokedAt ≠ none

theorem Session.Aged.refl (s : Session) : s.Aged s := ⟨rfl, rfl, fun h => h⟩

theorem Session.Aged.trans {s r q : Session} (hsr : s.Aged r) (hrq : r.Aged q) : s.Aged q :=
  ⟨hrq.accountId.trans hsr.accountId, hrq.sessionTokenHash.trans hsr.sessionTokenHash,
    hrq.revoked ∘ hsr.revoked⟩

theorem Session.aged_revoke (now : Time) (s : Session) : s.Aged ((Session.revoke now).apply s) :=
  ⟨rfl, rfl, fun _ => Option.some_ne_none now⟩

/-- No invitation and no session is lost or reopened. -/
structure Db.Aged (db db' : Db) : Prop where
  invitations : Table.Grows UserInvitation.Aged db.invitations db'.invitations
  sessions : Table.Grows Session.Aged db.sessions db'.sessions

theorem Db.Aged.refl (db : Db) : db.Aged db :=
  ⟨.refl UserInvitation.Aged.refl _, .refl Session.Aged.refl _⟩

theorem Db.Aged.trans {a b c : Db} (hab : a.Aged b) (hbc : b.Aged c) : a.Aged c :=
  ⟨hab.invitations.trans (fun _ _ _ => .trans) hbc.invitations,
    hab.sessions.trans (fun _ _ _ => .trans) hbc.sessions⟩

/-! ### The invariant -/

/-- What the status of a user says of its account. -/
structure Agrees (u : User) (a : DashboardAccount) : Prop where
  status : a.status = u.status
  active : u.status = .active → a.mustChangePassword = false
  pending : u.status = .pending → a.mustChangePassword = true

/-- Every user has exactly one account, and the two agree. -/
structure Paired (users : Table Uuid User User.id)
    (accounts : Table Uuid DashboardAccount fun a => a.id) : Prop where
  account : ∀ u ∈ users, ∃ a ∈ accounts, a.userId = some u.id ∧ Agrees u a
  single : accounts.Unique fun a => a.userId

/-- Among the invitations of a user only the newest can be open. -/
structure Orderly (invitations : Table Uuid UserInvitation UserInvitation.id) : Prop where
  purpose : ∀ i ∈ invitations, i.purpose = "activation"
  newest : invitations.rows.Pairwise fun i j => i.userId = j.userId → ¬ i.Open
  tokenHash : invitations.Unique fun i => some i.tokenHash

/-- What the transactions keep of the tables. -/
structure Consistent (db : Db) : Prop where
  paired : Paired db.users db.accounts
  invitations : Orderly db.invitations
  sessions : db.sessions.Unique fun s => some s.sessionTokenHash

/-- The account of a user is found by the identifier of the user. -/
theorem accountOf_eq_some (h : Paired db.users db.accounts) {userId : Uuid}
    {account : DashboardAccount} (hmem : account ∈ db.accounts)
    (howner : account.userId = some userId) : db.accountOf userId = some account := by
  cases hfind : db.accountOf userId with
  | none => exact absurd howner (by simpa using List.find?_eq_none.1 hfind account hmem)
  | some a =>
    obtain ⟨ha, howner'⟩ := accountOf_mem hfind
    rw [h.single a ha account hmem userId howner' howner]

theorem Paired.accountOf (h : Paired db.users db.accounts) {u : User} (hu : u ∈ db.users) :
    ∃ a, db.accountOf u.id = some a ∧ Agrees u a := by
  obtain ⟨a, ha, howner, hagrees⟩ := h.account u hu
  exact ⟨a, accountOf_eq_some h ha howner, hagrees⟩

/-- Writing one account, and its user, keeps the pairs of the other users. -/
theorem Paired.assign {users users' : Table Uuid User User.id}
    {accounts : Table Uuid DashboardAccount fun a => a.id} (h : Paired users accounts)
    {account : DashboardAccount} (haccount : account ∈ accounts)
    {g : Assign fun a : DashboardAccount => a.id} (hg : ∀ a, (g.apply a).userId = a.userId)
    (husers : ∀ u ∈ users', (account.userId = some u.id ∧ Agrees u (g.apply account)) ∨
      (u ∈ users ∧ account.userId ≠ some u.id)) :
    Paired users' (accounts.assign account.id g) := by
  refine ⟨fun u hu => ?_, h.single.update hg⟩
  rcases husers u hu with ⟨howner, hagrees⟩ | ⟨hu, hother⟩
  · exact ⟨g.apply account, Table.mem_assign.2 (.inr ⟨account, haccount, rfl, rfl⟩),
      (hg account).trans howner, hagrees⟩
  · obtain ⟨a, ha, howner, hagrees⟩ := h.account u hu
    have hne : a.id ≠ account.id := by
      intro heq
      rw [Table.eq_of_key_eq ha haccount heq] at howner
      exact hother howner
    exact ⟨a, Table.mem_assign.2 (.inl ⟨ha, hne⟩), howner, hagrees⟩

/-- The status of a user and of its account are written together. -/
theorem Paired.setStatus {users : Table Uuid User User.id}
    {accounts : Table Uuid DashboardAccount fun a => a.id} (h : Paired users accounts)
    {account : DashboardAccount} (haccount : account ∈ accounts) {userId : Uuid}
    (howner : account.userId = some userId) {f : Assign User.id}
    {g : Assign fun a : DashboardAccount => a.id} (hg : ∀ a, (g.apply a).userId = a.userId)
    (hagrees : ∀ u ∈ users, u.id = userId → Agrees (f.apply u) (g.apply account)) :
    Paired (users.assign userId f) (accounts.assign account.id g) := by
  refine h.assign haccount hg fun u hu => ?_
  rcases Table.mem_assign.1 hu with ⟨hu, hne⟩ | ⟨r, hr, hid, rfl⟩
  · exact .inr ⟨hu, fun heq => hne (Option.some.inj (heq.symm.trans howner))⟩
  · exact .inl ⟨by rw [howner, f.keeps, hid], hagrees r hr hid⟩

theorem Orderly.update {t : Table Uuid UserInvitation UserInvitation.id} (h : Orderly t)
    {p : UserInvitation → Bool} {f : Assign UserInvitation.id} (hf : ∀ i : UserInvitation, i.Aged (f.apply i)) :
    Orderly (t.update p f) := by
  have haged : ∀ i : UserInvitation, i.Aged (if p i then f.apply i else i) := by
    intro i
    split
    · exact hf i
    · exact .refl i
  refine ⟨fun j hj => ?_, ?_, h.tokenHash.update fun i => congrArg some (hf i).tokenHash⟩
  · obtain ⟨i, hi, rfl⟩ := Table.mem_update.1 hj
    exact (haged i).purpose.trans (h.purpose i hi)
  · rw [Table.rows_update, List.pairwise_map]
    refine h.newest.imp fun {i j} hij howner hopen => ?_
    exact hij ((haged i).userId.symm.trans (howner.trans (haged j).userId))
      ((haged i).isOpen hopen)

/-- `create_invitation`: the open invitations of the user are revoked first. -/
theorem Orderly.invite {t : Table Uuid UserInvitation UserInvitation.id} (h : Orderly t)
    {invitation : UserInvitation} (hnew : t.get invitation.id = none)
    (hpurpose : invitation.purpose = "activation")
    (hhash : ∀ i ∈ t, i.tokenHash ≠ invitation.tokenHash)
    (hclosed : ∀ i ∈ t, i.userId = invitation.userId → ¬ i.Open) :
    Orderly (t.insert invitation) := by
  refine ⟨fun i hi => ?_, ?_, h.tokenHash.insert fun i hi v hv heq =>
    hhash i hi (Option.some.inj (hv.trans heq.symm))⟩
  · rcases Table.mem_or_eq_of_mem_insert hi with hi | rfl
    · exact h.purpose i hi
    · exact hpurpose
  · rw [Table.rows_insert hnew, List.pairwise_append]
    refine ⟨h.newest, List.pairwise_singleton _ _, fun i hi j hj howner => ?_⟩
    obtain rfl := List.mem_singleton.1 hj
    exact hclosed i hi howner

/-! ### The operations -/

theorem Agrees.disabled (u : User) (a : DashboardAccount) (disabledAt : Option Time) :
    Agrees { u with status := .disabled, disabledAt := disabledAt }
      { a with status := .disabled } :=
  ⟨rfl, fun h => (nomatch h), fun h => (nomatch h)⟩

/-- `enable_user` gives the status that the flag of the account calls for. -/
theorem Agrees.enabled (u : User) (a : DashboardAccount) :
    Agrees
      { u with
        status := if a.mustChangePassword then .pending else .active, disabledAt := none }
      { a with status := if a.mustChangePassword then .pending else .active } := by
  refine ⟨rfl, fun h => ?_, fun h => ?_⟩ <;> cases hmust : a.mustChangePassword <;> simp_all

/-- `revoke_active` leaves no invitation of the user open. -/
theorem Orderly.revokeActive (h : Orderly db.invitations) {userId : Uuid} {now : Time} :
    ∀ i ∈ (db.revokeActive userId "activation" now).invitations, i.userId = userId →
      ¬ i.Open := by
  intro j hj howner hopen
  obtain ⟨i, hi, rfl⟩ := Table.mem_update.1 hj
  by_cases hp : i.userId = userId ∧ i.purpose = "activation" ∧ i.usedAt = none ∧ i.revokedAt = none
  · rw [if_pos (decide_eq_true hp)] at hopen
    exact absurd hopen.2 (Option.some_ne_none now)
  · rw [if_neg (by simpa using hp)] at howner hopen
    exact hp ⟨howner, h.purpose i hi, hopen.1, hopen.2⟩

theorem Effect.consistent {op : Op} (he : Effect lib db op db') (h : Consistent db) :
    Consistent db' := by
  have hrevoked : ∀ {p : Session → Bool} {now : Time},
      (db.sessions.update p (Session.revoke now)).Unique fun s => some s.sessionTokenHash :=
    h.sessions.update fun _ => rfl
  cases he with
  | @createUser userId _ _ _ _ _ _ user account huser haccount hfree hid howner hpending hmust =>
    refine ⟨⟨fun u hu => ?_, h.paired.single.insert fun a ha v hv => ?_⟩, h.invitations,
      h.sessions⟩
    · rcases Table.mem_or_eq_of_mem_insert hu with hu | rfl
      · obtain ⟨a, ha, howner, hagrees⟩ := h.paired.account u hu
        exact ⟨a, Table.mem_insert_of_mem ha, howner, hagrees⟩
      · refine ⟨account, (Table.mem_insert haccount).2 (.inr rfl), hid ▸ howner, ?_⟩
        exact ⟨hpending.2.trans hpending.1.symm, fun hactive => by simp [hpending.1] at hactive,
          fun _ => hmust⟩
    · intro heq
      exact hfree a ha (hv.trans (heq.symm.trans howner))
  | @createInvitation userId now _ _ user invitation huser hstatus hnew hhash howner hpurpose =>
    refine ⟨h.paired, ?_, h.sessions⟩
    have hupdated : Orderly (db.revokeActive userId "activation" now).invitations :=
      h.invitations.update (UserInvitation.aged_revoke now)
    refine hupdated.invite ?_ hpurpose (fun i hi => ?_) fun i hi heq =>
      h.invitations.revokeActive i hi (heq.trans howner)
    · simp [Db.revokeActive, Table.get_update, hnew]
    · obtain ⟨r, hr, rfl⟩ := Table.mem_update.1 hi
      rw [apply_ite UserInvitation.tokenHash, UserInvitation.revoke, ite_self]
      exact hhash r hr
  | revokeInvitation =>
    exact ⟨h.paired, h.invitations.update (UserInvitation.aged_revoke _), h.sessions⟩
  | login haccount hactive hnew hhash howner =>
    exact ⟨h.paired, h.invitations, h.sessions.insert fun s hs v hv heq =>
      hhash s hs (Option.some.inj (hv.trans heq.symm))⟩
  | @changePassword _ _ _ _ _ _ _ account _ hsession haccount hactive =>
    refine ⟨h.paired.assign (Table.mem_of_get haccount) (fun _ => rfl) fun u hu => ?_,
      h.invitations, hrevoked⟩
    by_cases howner : account.userId = some u.id
    · obtain ⟨a, ha, howner', hagrees⟩ := h.paired.account u hu
      obtain rfl := h.paired.single a ha account (Table.mem_of_get haccount) _ howner' howner
      have hstatus : u.status = .active := hagrees.status.symm.trans hactive
      exact .inl ⟨howner, hagrees.status, fun _ => rfl, fun hp => by simp [hstatus] at hp⟩
    · exact .inr ⟨hu, howner⟩
  | disableUser huser haccount =>
    obtain ⟨hmem, howner⟩ := accountOf_mem haccount
    exact ⟨h.paired.setStatus hmem howner (fun _ => rfl) fun u _ _ => .disabled u _ _,
      h.invitations.update (UserInvitation.aged_revoke _), hrevoked⟩
  | disableUserAlone huser haccount =>
    obtain ⟨a, ha, -⟩ := h.paired.accountOf (Table.mem_of_get huser)
    rw [Table.key_of_get huser, haccount] at ha
    cases ha
  | enableUser huser haccount hstatus =>
    obtain ⟨hmem, howner⟩ := accountOf_mem haccount
    subst hstatus
    exact ⟨h.paired.setStatus hmem howner (fun _ => rfl) fun u _ _ => .enabled u _,
      h.invitations, h.sessions⟩

/-- No operation reopens an invitation or a session. -/
theorem Effect.aged {op : Op} (he : Effect lib db op db') : db.Aged db' := by
  have hinvitations : ∀ {p : UserInvitation → Bool} {now : Time}, Table.Grows UserInvitation.Aged
      db.invitations (db.invitations.update p (UserInvitation.revoke now)) :=
    .update UserInvitation.Aged.refl fun i _ _ => i.aged_revoke _
  have hsessions : ∀ {p : Session → Bool} {now : Time}, Table.Grows Session.Aged db.sessions
      (db.sessions.update p (Session.revoke now)) :=
    .update Session.Aged.refl fun s _ _ => s.aged_revoke _
  cases he with
  | createUser => exact ⟨.refl UserInvitation.Aged.refl _, .refl Session.Aged.refl _⟩
  | createInvitation =>
    refine ⟨?_, .refl Session.Aged.refl _⟩
    exact hinvitations.trans (fun _ _ _ => .trans) (.insert UserInvitation.Aged.refl _)
  | revokeInvitation => exact ⟨hinvitations, .refl Session.Aged.refl _⟩
  | login => exact ⟨.refl UserInvitation.Aged.refl _, .insert Session.Aged.refl _⟩
  | changePassword => exact ⟨.refl UserInvitation.Aged.refl _, hsessions⟩
  | disableUser => exact ⟨hinvitations, hsessions⟩
  | disableUserAlone => exact ⟨hinvitations, .refl Session.Aged.refl _⟩
  | enableUser => exact ⟨.refl UserInvitation.Aged.refl _, .refl Session.Aged.refl _⟩

/-! ### Other users -/

/-- The rows of a user are as they were. -/
structure Untouched (userId : Uuid) (db db' : Db) : Prop where
  user : db'.users.get userId = db.users.get userId
  accounts : ∀ a : DashboardAccount, a.userId = some userId →
    (a ∈ db'.accounts ↔ a ∈ db.accounts)
  invitations : ∀ i : UserInvitation, i.userId = userId →
    (i ∈ db'.invitations ↔ i ∈ db.invitations)

theorem Untouched.accountOf {userId : Uuid} (h : Untouched userId db db')
    (hdb : Paired db.users db.accounts) (hdb' : Paired db'.users db'.accounts) :
    db'.accountOf userId = db.accountOf userId := by
  cases hbefore : db.accountOf userId with
  | some a =>
    obtain ⟨ha, howner⟩ := accountOf_mem hbefore
    exact accountOf_eq_some hdb' ((h.accounts a howner).2 ha) howner
  | none =>
    cases hafter : db'.accountOf userId with
    | none => rfl
    | some a =>
      obtain ⟨ha, howner⟩ := accountOf_mem hafter
      rw [accountOf_eq_some hdb ((h.accounts a howner).1 ha) howner] at hbefore
      cases hbefore

theorem get_setUser {userId userId' : Uuid} (status : RecordStatus) (disabledAt : Option Time)
    (h : userId' ≠ userId) :
    (db.setUser userId status disabledAt).users.get userId' = db.users.get userId' := by
  rw [Db.setUser, Table.get_assign, if_neg h]

theorem mem_revoked {p : UserInvitation → Bool} {now : Time} {userId : Uuid}
    (hp : ∀ r, p r = true → r.userId = userId) {i : UserInvitation} (hi : i.userId ≠ userId) :
    i ∈ db.invitations.update p (UserInvitation.revoke now) ↔ i ∈ db.invitations := by
  refine Table.mem_update_iff (by_contra fun h => hi (hp i (by simpa using h))) ?_
  rintro r hr rfl
  exact hi (hp r hr)

/-- An operation leaves the rows of every user but its own as they were. -/
theorem Effect.untouched {op : Op} (he : Effect lib db op db') {userId : Uuid}
    (hother : op.user lib db ≠ some userId) : Untouched userId db db' := by
  cases he with
  | @createUser _ _ _ _ _ _ _ user account huser haccount hfree hid howner hpending hmust =>
    have hne : user.id ≠ userId := fun h => hother (congrArg some (hid.symm.trans h))
    refine ⟨Table.get_insert_of_ne hne, fun a ha => ?_, fun _ _ => Iff.rfl⟩
    refine (Table.mem_insert haccount).trans (or_iff_left fun heq => ?_)
    exact hother (howner.symm.trans (heq ▸ ha))
  | @createInvitation userId' now _ _ user invitation huser hstatus hnew hhash howner hpurpose =>
    have hne : userId ≠ userId' := fun h => hother (congrArg some h.symm)
    refine ⟨rfl, fun _ _ => Iff.rfl, fun i hi => ?_⟩
    have hget : (db.revokeActive userId' "activation" now).invitations.get invitation.id = none := by
      simp [Db.revokeActive, Table.get_update, hnew]
    refine (Table.mem_insert hget).trans ((or_iff_left fun heq => hne ?_).trans ?_)
    · exact hi.symm.trans (heq ▸ howner)
    · exact mem_revoked (fun r hr => (by simpa using hr : _ ∧ _).1) (hi ▸ hne)
  | @revokeInvitation userId' now invitation hinvitation howner =>
    have hne : userId ≠ userId' := fun h => hother (congrArg some h.symm)
    exact ⟨rfl, fun _ _ => Iff.rfl, fun i hi => Table.mem_assign_of_ne hinvitation (·.userId) rfl
      fun heq => hne (hi.symm.trans (heq.symm.trans howner))⟩
  | login => exact ⟨rfl, fun _ _ => Iff.rfl, fun _ _ => Iff.rfl⟩
  | @changePassword sessionToken _ _ _ _ _ session account _ hsession haccount hactive =>
    refine ⟨rfl, fun a ha => ?_, fun _ _ => Iff.rfl⟩
    refine Table.mem_assign_of_ne (Table.mem_of_get haccount) (·.userId) rfl ?_
    rw [ha]
    simpa [Op.user, hsession, haccount] using hother
  | @disableUser userId' now user account huser haccount =>
    have hne : userId ≠ userId' := fun h => hother (congrArg some h.symm)
    obtain ⟨hmem, howner⟩ := accountOf_mem haccount
    refine ⟨get_setUser _ _ hne, fun a ha => Table.mem_assign_of_ne hmem (·.userId) rfl ?_,
      fun i hi => mem_revoked (fun r hr => (by simpa using hr : _ ∧ _).1) (hi ▸ hne)⟩
    rw [howner, ha]
    exact hother
  | @disableUserAlone userId' now user huser haccount =>
    have hne : userId ≠ userId' := fun h => hother (congrArg some h.symm)
    exact ⟨get_setUser _ _ hne, fun _ _ => Iff.rfl,
      fun i hi => mem_revoked (fun r hr => (by simpa using hr : _ ∧ _).1) (hi ▸ hne)⟩
  | @enableUser userId' user account status huser haccount hstatus =>
    have hne : userId ≠ userId' := fun h => hother (congrArg some h.symm)
    obtain ⟨hmem, howner⟩ := accountOf_mem haccount
    refine ⟨get_setUser _ _ hne, fun a ha => Table.mem_assign_of_ne hmem (·.userId) rfl ?_,
      fun _ _ => Iff.rfl⟩
    rw [howner, ha]
    exact hother

end ForgejoMcp.Users
