import ForgejoMcp.Credentials.Serial

/-!
# Users

What the commits do to the users: an active user stays active under one name unless a commit lowers
the standing of that user.
-/

namespace ForgejoMcp.Credentials

open Transactions

variable {server : Server} {base : Db} {h : List (Entry sorts)} {e : Entry sorts}

/-- The user who may be inactive, or have another name, after a commit with the label. -/
def Label.lowers? : Label → Option Uuid
  | .userUpdated id true _ _ => some id
  | .userDisabled id _ _ => some id
  | .userEnabled id status _ => if status = .active then none else some id
  | _ => none

/-! ### What a commit changes -/

/-- What a commit does to the users: nothing; a flush of one user; or what the environment does. -/
inductive DirectoryChange (base : Db) (h : List (Entry sorts)) (e : Entry sorts) : Prop
  | same (users : e.db.users = (after base h).users)
  | flushed (loaded value : User)
      (users : e.db.users = ((after base h).updateUser loaded value).users)
      (kept : e.label.lowers? ≠ some loaded.id →
        value.normalizedForgejoUsername = loaded.normalizedForgejoUsername ∧
          (value.status = loaded.status ∨ value.status = .active))
  | environment (change : EnvDb) (db : e.db = envDb change (after base h))

theorem Db.KeepsAccounts.of_eq {a b : Db} (h : b.accounts = a.accounts) : a.KeepsAccounts b :=
  fun _ => by rw [h]

theorem Db.KeepsAccounts.trans {a b c : Db} (hab : a.KeepsAccounts b) (hbc : b.KeepsAccounts c) :
    a.KeepsAccounts c :=
  fun id => (hbc id).trans (hab id)

theorem users_revokeFound (db : Db) (found : Option Uuid) (now : Time) :
    (db.revokeFound found now).users = db.users := by
  cases found <;> rfl

theorem accounts_revokeFound (db : Db) (found : Option Uuid) (now : Time) :
    (db.revokeFound found now).accounts = db.accounts := by
  cases found <;> rfl

theorem Step.directoryChange (hs : Step server base h e) : DirectoryChange base h e := by
  unfold Step at hs
  cases hl : e.label <;> simp only [hl] at hs
  case requestStarted => obtain ⟨p, created, hdb, -⟩ := hs; exact .same (hdb ▸ rfl)
  case requestConsumed => obtain ⟨now, hdb, -⟩ := hs; exact .same (hdb ▸ rfl)
  case verificationFailed => exact .same (hs ▸ rfl)
  case tokenRead => exact .same (hs ▸ rfl)
  case credentialSaved => obtain ⟨now, hdb, -⟩ := hs; exact .same (hdb ▸ users_revokeFound _ _ _)
  case credentialRefreshed =>
    obtain ⟨row, access, refresh, expiresAt, hdb, -⟩ := hs
    exact .same (hdb ▸ rfl)
  case credentialRevoked => obtain ⟨now, hdb⟩ := hs; exact .same (hdb ▸ rfl)
  case userUpdated id renamed revoked readAt =>
    obtain ⟨loaded, value, now, hdb, hid, hstatus, hname⟩ := hs
    refine .flushed loaded value (hdb ▸ users_revokeFound _ _ _) fun hlow => ?_
    cases renamed with
    | true => exact absurd (by rw [hl, hid]; rfl) hlow
    | false => exact ⟨hname, .inl hstatus⟩
  case userDisabled id revoked readAt =>
    obtain ⟨loaded, value, now, accounts, sessions, hdb, -, hid, -⟩ := hs
    refine .flushed loaded value (hdb ▸ users_revokeFound _ _ _) fun hlow => ?_
    exact absurd (by rw [hl, hid]; rfl) hlow
  case userEnabled id status readAt =>
    obtain ⟨loaded, value, accounts, hdb, -, hid, hstatus, hname, -⟩ := hs
    refine .flushed loaded value (hdb ▸ rfl) fun hlow => ⟨hname, ?_⟩
    rw [hl, hid] at hlow
    by_cases hst : status = .active
    · exact .inr (hstatus.trans hst)
    · exact absurd (if_neg hst) hlow
  case instanceConfigured => obtain ⟨instances, hdb⟩ := hs; exact .same (hdb ▸ rfl)
  case configurationSaved => obtain ⟨configurations, hdb, -⟩ := hs; exact .same (hdb ▸ rfl)
  case environment => obtain ⟨change, hdb⟩ := hs; exact .environment change hdb

/-! ### The standing of a user -/

/-- An active user stays active, under the same name. -/
def KeepsUser (userId : Uuid) (a b : Db) : Prop :=
  ∀ user, a.users.get userId = some user → user.status = .active → ∃ user',
    b.users.get userId = some user' ∧ user'.status = .active ∧
      user'.normalizedForgejoUsername = user.normalizedForgejoUsername

theorem KeepsUser.refl (userId : Uuid) (a : Db) : KeepsUser userId a a :=
  fun user hget hst => ⟨user, hget, hst, rfl⟩

theorem KeepsUser.trans {userId : Uuid} {a b c : Db} (hab : KeepsUser userId a b)
    (hbc : KeepsUser userId b c) : KeepsUser userId a c := by
  intro user hget hst
  obtain ⟨user', hget', hst', hname'⟩ := hab user hget hst
  obtain ⟨user'', hget'', hst'', hname''⟩ := hbc user' hget' hst'
  exact ⟨user'', hget'', hst'', hname''.trans hname'⟩

theorem KeepsUser.of_eq {userId : Uuid} {a b : Db} (h : b.users = a.users) :
    KeepsUser userId a b :=
  fun user hget hst => ⟨user, by rw [h, hget], hst, rfl⟩

theorem envDb_keepsUser (change : EnvDb) (db : Db) (userId : Uuid) :
    KeepsUser userId db (envDb change db) := by
  intro user hget hst
  cases change with
  | createUser new accountId =>
    rw [envDb]
    split
    · exact ⟨user, Table.get_insert_of_get hget, hst, rfl⟩
    · exact ⟨user, hget, hst, rfl⟩
  | accept accountId =>
    rw [envDb]
    split
    · exact ⟨user, hget, hst, rfl⟩
    · simp only [Table.get_assign]
      split
      · next heq =>
        refine ⟨{ user with status := .active, disabledAt := none }, ?_, rfl, rfl⟩
        rw [← heq, hget, Option.map_some]
      · exact ⟨user, hget, hst, rfl⟩
  | _ => exact ⟨user, hget, hst, rfl⟩

theorem get_updateUser (db : Db) (loaded value : User) (userId : Uuid) :
    (db.updateUser loaded value).users.get userId = if userId = loaded.id then
      (db.users.get userId).map (User.flush loaded value).apply else db.users.get userId := by
  rw [Db.updateUser, Table.get_update]
  cases hget : db.users.get userId with
  | none => split <;> rfl
  | some user =>
    have hid : user.id = userId := Table.key_of_get hget
    split
    · next heq => simp [hid, heq]
    · next hne => simp [hid, hne]

theorem Step.keepsUser (hs : Step server base h e) {userId : Uuid}
    (hlow : e.label.lowers? ≠ some userId) : KeepsUser userId (after base h) e.db := by
  cases hs.directoryChange with
  | same husers => exact .of_eq husers
  | environment change hdb => rw [hdb]; exact envDb_keepsUser change _ userId
  | flushed loaded value husers kept =>
    intro user hget hst
    rw [husers, get_updateUser]
    split
    · next heq =>
      obtain ⟨hname, hstatus⟩ := kept (heq ▸ hlow)
      refine ⟨_, by rw [hget, Option.map_some], ?_, ?_⟩
      · simp only [User.flush, Users.flushed]
        split
        · exact hst
        · next hne => exact hstatus.resolve_left (Ne.symm hne)
      · simp only [User.flush, Users.flushed, if_pos hname.symm]
    · exact ⟨user, hget, hst, rfl⟩

end ForgejoMcp.Credentials
