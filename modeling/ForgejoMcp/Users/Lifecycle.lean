import ForgejoMcp.Users.System

/-!
# The lifecycle of a user

The status of a user over every run from a Dashboard without users, and what disabling a user ends
for ever.
-/

namespace ForgejoMcp.Users

open Transactions

variable {lib : Library} {dummyHash : String} {c c' : Config}

/-- A Dashboard without users: its accounts belong to administrators. -/
structure Initial (c : Config) : Prop where
  users : c.db.users = .empty
  accounts : ∀ a ∈ c.db.accounts, a.userId = none
  invitations : c.db.invitations = .empty
  sessions : c.db.sessions = .empty
  calls : ∀ k, c.calls k = none

theorem Initial.inv (h : Initial c) : Inv c where
  consistent := by
    refine ⟨⟨fun u hu => ?_, fun a ha b _ v hav => ?_⟩, ⟨fun i hi => ?_, ?_, fun i hi => ?_⟩,
      fun s hs => ?_⟩
    · rw [h.users] at hu
      exact absurd hu (Table.not_mem_empty u)
    · exact nomatch (h.accounts a ha).symm.trans hav
    · rw [h.invitations] at hi
      exact absurd hi (Table.not_mem_empty i)
    · rw [h.invitations]
      exact List.Pairwise.nil
    · rw [h.invitations] at hi
      exact absurd hi (Table.not_mem_empty i)
    · rw [h.sessions] at hs
      exact absurd hs (Table.not_mem_empty s)
  current k call hcall := by
    rw [h.calls] at hcall
    cases hcall
  apart k k' call call' i i' hcall := by
    rw [h.calls] at hcall
    cases hcall

/-! ### One step -/

/-- Nothing is reopened. -/
theorem Step.aged {e : Event} (h : Step lib dummyHash c e c') : c.db.Aged c'.db := by
  cases h with
  | commit hidle hrun => exact (Op.effect hrun).aged
  | accept hcall hphase hrun =>
    obtain ⟨account, passwordHash, -, rfl⟩ := acceptLoaded_eq_ok hrun
    exact acceptWrites_aged
  | fail => exact .refl _
  | start => exact .refl _
  | lock => exact .refl _
  | readUser => exact .refl _
  | readAccount => exact .refl _
  | abandon => exact .refl _

theorem Steps.aged {es : List Event} (h : Steps lib dummyHash c es c') : c.db.Aged c'.db := by
  induction h with
  | nil => exact .refl _
  | cons hstep _ ih => exact hstep.aged.trans ih

/-- Only `disable_user` and `enable_user` write the status of a user. -/
theorem Effect.user {db db' : Db} {op : Op} (he : Effect lib db op db') {u u' : User}
    (hu : u ∈ db.users) (hu' : u' ∈ db'.users) (hid : u'.id = u.id) :
    u' = u ∨ u'.status = .disabled ∨ op = .enableUser u.id := by
  have hsame : u' ∈ db.users → u' = u := fun h => Table.eq_of_key_eq h hu hid
  cases he with
  | createUser huser =>
    rcases Table.mem_or_eq_of_mem_insert hu' with hu' | rfl
    · exact .inl (hsame hu')
    · rw [hid, Table.get_of_mem hu] at huser
      cases huser
  | createInvitation => exact .inl (hsame hu')
  | revokeInvitation => exact .inl (hsame hu')
  | login => exact .inl (hsame hu')
  | changePassword => exact .inl (hsame hu')
  | disableUser =>
    rcases Table.mem_assign.1 hu' with ⟨hu', -⟩ | ⟨r, -, -, rfl⟩
    · exact .inl (hsame hu')
    · exact .inr (.inl rfl)
  | disableUserAlone =>
    rcases Table.mem_assign.1 hu' with ⟨hu', -⟩ | ⟨r, -, -, rfl⟩
    · exact .inl (hsame hu')
    · exact .inr (.inl rfl)
  | enableUser =>
    rcases Table.mem_assign.1 hu' with ⟨hu', -⟩ | ⟨r, -, rfl, rfl⟩
    · exact .inl (hsame hu')
    · exact .inr (.inr (congrArg Op.enableUser hid))

/-- A DISABLED user stays so, but for `enable_user`. -/
theorem Step.disabled {e : Event} (h : Step lib dummyHash c e c') (hinv : Inv c) {u u' : User}
    (hu : u ∈ c.db.users) (hdisabled : u.status = .disabled) (hu' : u' ∈ c'.db.users)
    (hid : u'.id = u.id) (hleft : u'.status ≠ .disabled) :
    e = .committed (.enableUser u.id) := by
  have hsame : u' ∉ c.db.users := fun h =>
    hleft (Table.eq_of_key_eq h hu hid ▸ hdisabled)
  cases h with
  | commit hidle hrun =>
    rcases (Op.effect hrun).user hu hu' hid with rfl | hstatus | rfl
    · exact absurd hdisabled hleft
    · exact absurd hstatus hleft
    · rfl
  | accept hcall hphase hrun =>
    obtain ⟨account, passwordHash, haccepts, rfl⟩ := acceptLoaded_eq_ok hrun
    have howner := (hinv.fresh hcall hphase haccepts).owner
    rcases Table.mem_assign.1 hu' with ⟨hu', -⟩ | ⟨r, hr, hrid, rfl⟩
    · exact absurd hu' hsame
    · obtain rfl := Table.eq_of_key_eq hr (Table.mem_of_get howner) hrid
      obtain rfl := Table.eq_of_key_eq hr hu hid
      exact absurd hdisabled haccepts.enabled
  | fail => exact absurd hu' hsame
  | start => exact absurd hu' hsame
  | lock => exact absurd hu' hsame
  | readUser => exact absurd hu' hsame
  | readAccount => exact absurd hu' hsame
  | abandon => exact absurd hu' hsame

/-! ### Acceptances -/

/-- The invitation that is accepted, as the step finds it. -/
structure Acceptable (db : Db) (i : UserInvitation) (checkedAt : Time) : Prop where
  mem : i ∈ db.invitations
  isOpen : i.Open
  unexpired : checkedAt < i.expiresAt
  newest : ∀ j, [i, j].Sublist db.invitations.rows → j.userId ≠ i.userId
  enabled : ∃ u, db.users.get i.userId = some u ∧ u.status ≠ .disabled

theorem Step.acceptable {invitationId : Uuid} {checkedAt : Time}
    (h : Step lib dummyHash c (.accepted invitationId checkedAt) c') (hinv : Inv c) :
    ∃ i, i.id = invitationId ∧ Acceptable c.db i checkedAt ∧
      ∃ i', c'.db.invitations.get invitationId = some i' ∧ i'.usedAt ≠ none := by
  cases h with
  | @accept k call loaded _ now salt db' hcall hphase hrun =>
    obtain ⟨account, passwordHash, haccepts, rfl⟩ := acceptLoaded_eq_ok hrun
    have hfresh := hinv.fresh hcall hphase haccepts
    have hnewest : ∀ j, [loaded.invitation, j].Sublist c.db.invitations.rows →
        j.userId ≠ loaded.invitation.userId := fun j hj howner =>
      hinv.consistent.invitations.newest.forall_sublist hj howner.symm haccepts.isOpen
    exact ⟨loaded.invitation, rfl, ⟨hfresh.mem, haccepts.isOpen, haccepts.unexpired, hnewest,
      loaded.user, hfresh.owner, haccepts.enabled⟩, _, acceptWrites_used hfresh,
      Option.some_ne_none now⟩

/-- The invitation is in the table and cannot be accepted any more. -/
def Closed (db : Db) (invitationId : Uuid) : Prop :=
  ∃ i, db.invitations.get invitationId = some i ∧ ¬ i.Open

theorem Closed.aged {db db' : Db} {invitationId : Uuid} (h : Closed db invitationId)
    (haged : db.Aged db') : Closed db' invitationId := by
  obtain ⟨i, hi, hclosed⟩ := h
  obtain ⟨j, hj, hij⟩ := haged.invitations _ i hi
  exact ⟨j, hj, fun hopen => hclosed (hij.isOpen hopen)⟩

/-- An invitation that is closed is never accepted. -/
theorem Steps.not_accepted {es : List Event} (h : Steps lib dummyHash c es c') (hinv : Inv c)
    {invitationId : Uuid} (hclosed : Closed c.db invitationId) (checkedAt : Time) :
    .accepted invitationId checkedAt ∉ es := by
  induction h with
  | nil => exact List.not_mem_nil
  | cons hstep _ ih =>
    rw [List.mem_cons, not_or]
    refine ⟨?_, ih (hinv.step hstep) (hclosed.aged hstep.aged)⟩
    rintro rfl
    obtain ⟨i, rfl, hi, -⟩ := hstep.acceptable hinv
    obtain ⟨j, hj, hnot⟩ := hclosed
    rw [Table.get_of_mem hi.mem, Option.some_inj] at hj
    exact hnot (hj ▸ hi.isOpen)

/-- The event is an acceptance of the invitation. -/
def Event.accepts (invitationId : Uuid) : Event → Bool
  | .accepted id _ => id = invitationId
  | _ => false

theorem Event.accepts_eq_true {invitationId : Uuid} {e : Event} :
    e.accepts invitationId = true ↔ ∃ checkedAt, e = .accepted invitationId checkedAt := by
  cases e <;> simp [Event.accepts]

theorem Steps.accepted_once {es : List Event} (h : Steps lib dummyHash c es c') (hinv : Inv c)
    (invitationId : Uuid) : es.countP (Event.accepts invitationId) ≤ 1 := by
  induction h with
  | nil => simp
  | @cons c₁ c₂ c₃ e es hstep hsteps ih =>
    rw [List.countP_cons]
    split
    · next haccepts =>
      obtain ⟨checkedAt, rfl⟩ := Event.accepts_eq_true.1 haccepts
      obtain ⟨-, -, -, i', hi', hused⟩ := hstep.acceptable hinv
      have hnone := hsteps.not_accepted (hinv.step hstep) ⟨i', hi', fun hopen => hused hopen.1⟩
      have hzero : es.countP (Event.accepts invitationId) = 0 := by
        rw [List.countP_eq_zero]
        intro x hx haccepts
        obtain ⟨t, rfl⟩ := Event.accepts_eq_true.1 haccepts
        exact hnone t hx
      omega
    · exact ih (hinv.step hstep)

/-! ### Disabling a user -/

/-- What `disable_user` leaves of the invitations and sessions of the user. -/
theorem Effect.disabled {db db' : Db} {userId : Uuid} {now : Time} (h : Consistent db)
    (he : Effect lib db (.disableUser userId now) db') :
    (∀ i ∈ db'.invitations, i.userId = userId → ¬ i.Open) ∧
      ∀ a ∈ db'.accounts, a.userId = some userId → ∀ s ∈ db'.sessions, s.accountId = a.id →
        s.revokedAt ≠ none := by
  have hclosed : ∀ i ∈ (db.revokeAllActive userId now).invitations, i.userId = userId →
      ¬ i.Open := by
    intro j hj howner hopen
    obtain ⟨i, hi, rfl⟩ := Table.mem_update.1 hj
    by_cases hp : i.userId = userId ∧ i.usedAt = none ∧ i.revokedAt = none
    · rw [if_pos (decide_eq_true hp)] at hopen
      exact absurd hopen.2 (Option.some_ne_none now)
    · rw [if_neg (by simpa using hp)] at howner hopen
      exact hp ⟨howner, hopen⟩
  have hafter := (he.consistent h).paired.single
  cases he with
  | @disableUser _ _ user account huser haccount =>
    refine ⟨hclosed, fun a ha howner s hs hsession hlive => ?_⟩
    obtain ⟨hmem, howner'⟩ := accountOf_mem haccount
    have hwritten : { account with status := .disabled } ∈
        ((((db.setUser userId .disabled (some now)).setAccountStatus account.id
          .disabled).revokeForAccount account.id now none).revokeAllActive userId now).accounts :=
      Table.mem_assign.2 (.inr ⟨account, hmem, rfl, rfl⟩)
    obtain rfl := hafter a ha _ hwritten userId howner howner'
    obtain ⟨r, hr, rfl⟩ := Table.mem_update.1 hs
    by_cases hp : r.accountId = account.id ∧ r.revokedAt = none
    · rw [if_pos (by simp [hp])] at hlive
      exact absurd hlive (Option.some_ne_none now)
    · rw [if_neg (by simpa using hp)] at hsession hlive
      exact hp ⟨hsession, hlive⟩
  | disableUserAlone huser haccount =>
    obtain ⟨a, ha, -⟩ := h.paired.accountOf (Table.mem_of_get huser)
    rw [Table.key_of_get huser, haccount] at ha
    cases ha

/-- An invitation that is closed is refused for ever. -/
theorem Closed.refused {db : Db} {i : UserInvitation} (h : Consistent db)
    (hget : ∃ j, db.invitations.get i.id = some j ∧ i.Aged j ∧ ¬ j.Open) {token : String}
    (htoken : lib.hashToken token = i.tokenHash) :
    ∃ j, db.byTokenHash (lib.hashToken token) = some j ∧
      ∀ u now, checkValid j u now ≠ .ok () := by
  obtain ⟨j, hj, hij, hclosed⟩ := hget
  refine ⟨j, ?_, fun u now hok => hclosed (checkValid_eq_ok hok).1⟩
  have hmem : j ∈ db.invitations := Table.mem_of_get hj
  have hhash : j.tokenHash = lib.hashToken token := hij.tokenHash.trans htoken.symm
  cases hfind : db.byTokenHash (lib.hashToken token) with
  | none => exact absurd hhash (by simpa using List.find?_eq_none.1 hfind j hmem)
  | some k =>
    have hk : k.tokenHash = lib.hashToken token := by simpa using List.find?_some hfind
    rw [h.invitations.tokenHash k (List.mem_of_find?_eq_some hfind) j hmem _
      (congrArg some hk) (congrArg some hhash)]

/-- A session that is revoked authenticates nobody, for ever. -/
theorem getCurrentSession_of_revoked {db : Db} {s : Session} (h : Consistent db)
    (hget : ∃ r, db.sessions.get s.id = some r ∧ s.Aged r ∧ r.revokedAt ≠ none) {token : String}
    (htoken : lib.hashToken token = s.sessionTokenHash) (now : Time)
    (result : Session × DashboardAccount) : getCurrentSession lib db token now ≠ .ok result := by
  intro hok
  obtain ⟨session, account⟩ := result
  obtain ⟨hfind, hlive, -⟩ := getCurrentSession_eq_ok hok
  obtain ⟨r, hr, hsr, hrevoked⟩ := hget
  have hfound : session.sessionTokenHash = lib.hashToken token := by
    simpa using List.find?_some hfind
  have hsame := h.sessions session (List.mem_of_find?_eq_some hfind) r (Table.mem_of_get hr) _
    (congrArg some hfound) (congrArg some (hsr.sessionTokenHash.trans htoken.symm))
  exact hrevoked (hsame ▸ hlive)

/-! ### The lifecycle -/

/-- Over every run from a Dashboard without users: a user and its one account have the same status,
an ACTIVE user need not change its password and a PENDING one must; only `enable_user` ends DISABLED;
an invitation is accepted at most once, while it is open, unexpired and the newest of its user; and
what existed of the invitations and sessions of a user when `disable_user` committed is refused from
then on. -/
theorem user_lifecycle {c₀ c : Config} (h₀ : Initial c₀) {es : List Event}
    (hsteps : Steps lib dummyHash c₀ es c) :
    (∀ u ∈ c.db.users, ∃ a, (∀ b, b ∈ c.db.accounts ∧ b.userId = some u.id ↔ b = a) ∧
      a.status = u.status ∧ (u.status = .active → a.mustChangePassword = false) ∧
      (u.status = .pending → a.mustChangePassword = true)) ∧
    (∀ e c', Step lib dummyHash c e c' → ∀ u ∈ c.db.users, u.status = .disabled →
      ∀ u' ∈ c'.db.users, u'.id = u.id → u'.status ≠ .disabled →
        e = .committed (.enableUser u.id)) ∧
    (∀ id, es.countP (Event.accepts id) ≤ 1) ∧
    (∀ id checkedAt c', Step lib dummyHash c (.accepted id checkedAt) c' →
      ∃ i, i.id = id ∧ Acceptable c.db i checkedAt) ∧
    ∀ userId now c₁ es' c₂, Step lib dummyHash c (.committed (.disableUser userId now)) c₁ →
      Steps lib dummyHash c₁ es' c₂ →
      (∀ i ∈ c₁.db.invitations, i.userId = userId →
        (∀ checkedAt, .accepted i.id checkedAt ∉ es') ∧
        ∀ token, lib.hashToken token = i.tokenHash →
          ∃ j, c₂.db.byTokenHash (lib.hashToken token) = some j ∧
            ∀ u checkedAt, checkValid j u checkedAt ≠ .ok ()) ∧
      ∀ a ∈ c₁.db.accounts, a.userId = some userId → ∀ s ∈ c₁.db.sessions, s.accountId = a.id →
        ∀ token, lib.hashToken token = s.sessionTokenHash →
          ∀ checkedAt result, getCurrentSession lib c₂.db token checkedAt ≠ .ok result := by
  have hinv : Inv c := h₀.inv.steps hsteps
  refine ⟨fun u hu => ?_, fun e c' hstep u hu hdisabled u' hu' hid =>
    hstep.disabled hinv hu hdisabled hu' hid, fun id => hsteps.accepted_once h₀.inv id,
    fun id checkedAt c' hstep => ?_, fun userId now c₁ es' c₂ hstep hsteps' => ?_⟩
  · obtain ⟨a, ha, howner, hagrees⟩ := hinv.consistent.paired.account u hu
    refine ⟨a, fun b => ⟨fun ⟨hb, hb'⟩ => ?_, fun h => h ▸ ⟨ha, howner⟩⟩, hagrees.status,
      hagrees.active, hagrees.pending⟩
    exact hinv.consistent.paired.single b hb a ha _ hb' howner
  · obtain ⟨i, hid, hi, -⟩ := hstep.acceptable hinv
    exact ⟨i, hid, hi⟩
  · have hinv₁ := hinv.step hstep
    have hinv₂ := hinv₁.steps hsteps'
    obtain ⟨hinvitations, hsessions⟩ : (∀ i ∈ c₁.db.invitations, i.userId = userId → ¬ i.Open) ∧
        ∀ a ∈ c₁.db.accounts, a.userId = some userId → ∀ s ∈ c₁.db.sessions,
          s.accountId = a.id → s.revokedAt ≠ none := by
      cases hstep with
      | commit hidle hrun => exact (Op.effect hrun).disabled hinv.consistent
    refine ⟨fun i hi howner => ?_, fun a ha howner s hs hsession token htoken checkedAt result => ?_⟩
    · have hclosed := hinvitations i hi howner
      refine ⟨fun checkedAt => hsteps'.not_accepted hinv₁ ⟨i, Table.get_of_mem hi, hclosed⟩
        checkedAt, fun token htoken => ?_⟩
      obtain ⟨j, hj, hij⟩ := hsteps'.aged.invitations _ i (Table.get_of_mem hi)
      exact Closed.refused hinv₂.consistent ⟨j, hj, hij, fun hopen => hclosed (hij.isOpen hopen)⟩
        htoken
    · obtain ⟨r, hr, hsr⟩ := hsteps'.aged.sessions _ s (Table.get_of_mem hs)
      exact getCurrentSession_of_revoked hinv₂.consistent
        ⟨r, hr, hsr, hsr.revoked (hsessions a ha howner s hs hsession)⟩ htoken checkedAt result

/-! A user is invited, accepts, logs in, is disabled and enabled again. -/

/-- A library whose functions change nothing. -/
def sampleLibrary : Library where
  nfkc := id
  casefold := id
  hash _ password := password
  verify passwordHash password := passwordHash == password
  hashToken := id

/-- Empty tables and no calls. -/
def sampleStart : Config := ⟨⟨.empty, .empty, .empty, .empty⟩, fun _ => none⟩

/-- The tables after a transaction. -/
def Db.after (db : Db) (op : Op) : Db := (op.run sampleLibrary "" db).toOption.getD db

theorem run_after {db : Db} {op : Op} (h : (op.run sampleLibrary "" db).toOption.isSome = true) :
    op.run sampleLibrary "" db = .ok (db.after op) := by
  unfold Db.after
  cases hrun : op.run sampleLibrary "" db with
  | error failure => simp [hrun, Except.toOption] at h
  | ok db' => rfl

/-- A user is created. -/
def sampleCreate : Op := .createUser 1 2 0 "a token of the server" "Ann" "ann" "ann"

/-- The user is invited. -/
def sampleInvite : Op := .createInvitation 1 0 3 "invitation"

/-- The user logs in. -/
def sampleLogin : Op := .login "ann" "a long password" 6000000 8 4 "session"

/-- The tables with the invited user. -/
def sampleInvited : Db := (sampleStart.db.after sampleCreate).after sampleInvite

/-- The invitation in them. -/
def sampleInvitation : UserInvitation :=
  ⟨3, 1, "invitation", "activation", 1800000000, none, none⟩

/-- The user in them. -/
def sampleUser : User := ⟨1, "ann", "ann", .pending, none⟩

/-- What a call of `accept` has read of them. -/
def sampleLoaded : Loaded := ⟨sampleInvitation, sampleUser, sampleInvited.accountOf 1⟩

/-- The tables after the invitation is accepted. -/
def sampleAccepted : Db :=
  (acceptLoaded sampleLibrary sampleLoaded 5000000 5000000 0 "a long password"
    sampleInvited).toOption.getD sampleInvited

/-- The tables after the user has logged in. -/
def sampleLoggedIn : Db := sampleAccepted.after sampleLogin

theorem idle_of_calls (h : ∀ k, c.calls k = none) (userId : Uuid) : c.Idle userId :=
  fun k _ _ hcall => nomatch (h k).symm.trans hcall

theorem sample_run : ∃ c es, Steps sampleLibrary "" sampleStart es c ∧ c.db = sampleLoggedIn ∧
    (∀ k, c.calls k = none) ∧ es.countP (Event.accepts 3) = 1 := by
  have haccepted : acceptLoaded sampleLibrary sampleLoaded 5000000 5000000 0 "a long password"
      sampleInvited = .ok sampleAccepted := by
    have hok : (acceptLoaded sampleLibrary sampleLoaded 5000000 5000000 0 "a long password"
        sampleInvited).toOption.isSome = true := by decide +kernel
    unfold sampleAccepted
    cases hrun : acceptLoaded sampleLibrary sampleLoaded 5000000 5000000 0 "a long password"
        sampleInvited with
    | error failure => simp [hrun, Except.toOption] at hok
    | ok db' => rfl
  have hcalls : ∀ (x y z w : AcceptCall) k, Function.update (Function.update (Function.update
      (Function.update (Function.update (fun _ => none : ℕ → Option AcceptCall) 0 (some x)) 0
      (some y)) 0 (some z)) 0 (some w)) 0 none k = none := by
    intro x y z w k
    by_cases hk : k = 0 <;> simp [Function.update, hk]
  refine ⟨_, _, .cons (.commit (fun u _ => idle_of_calls (fun _ => rfl) u)
    (@run_after _ sampleCreate (by decide +kernel))) <|
    .cons (.commit (fun u _ => idle_of_calls (fun _ => rfl) u)
      (@run_after _ sampleInvite (by decide +kernel))) <|
    .cons (@Step.start _ _ _ 0 "invitation" "a long password" rfl) <|
    .cons (@Step.lock _ _ _ _ _ sampleInvitation (Function.update_self 0 _ _) rfl
      (by decide +kernel) fun k call i hcall hi => ?_) <|
    .cons (@Step.readUser _ _ _ _ _ _ sampleUser (Function.update_self 0 _ _) rfl
      (by decide +kernel)) <|
    .cons (.readAccount (Function.update_self 0 _ _) rfl) <|
    .cons (.accept (Function.update_self 0 _ _) rfl haccepted) <|
    .cons (.commit (fun u _ => idle_of_calls (hcalls _ _ _ _) u)
      (@run_after _ sampleLogin (by decide +kernel))) (.nil _), rfl, hcalls _ _ _ _, rfl⟩
  -- The only call in progress has not locked an invitation.
  simp only [Function.update_apply] at hcall
  split at hcall
  · obtain rfl := Option.some.inj hcall
    cases hi
  · cases hcall

/-- The tables after the user is disabled. -/
def sampleDisabled : Db := sampleLoggedIn.after (.disableUser 1 7000000)

/-- The tables after the user is enabled again. -/
def sampleEnabled : Db := sampleDisabled.after (.enableUser 1)

/-- The user is ACTIVE again; its session and its invitation stay refused. -/
theorem user_lifecycle_sample :
    (sampleEnabled.users.get 1).map (·.status) = some .active ∧
      (∀ checkedAt result,
        getCurrentSession sampleLibrary sampleEnabled "session" checkedAt ≠ .ok result) ∧
      ∃ j, sampleEnabled.byTokenHash "invitation" = some j ∧
        ∀ u checkedAt, checkValid j u checkedAt ≠ .ok () := by
  obtain ⟨c, es, hsteps, hdb, hcalls, -⟩ := sample_run
  have hstart : Initial sampleStart :=
    ⟨rfl, fun a ha => absurd ha (Table.not_mem_empty a), rfl, rfl, fun _ => rfl⟩
  have hdisable : Step sampleLibrary "" c (.committed (.disableUser 1 7000000))
      ⟨sampleDisabled, c.calls⟩ :=
    .commit (fun u _ => idle_of_calls hcalls u) (by rw [hdb]; exact run_after (by decide +kernel))
  have henable : Step sampleLibrary "" ⟨sampleDisabled, c.calls⟩ (.committed (.enableUser 1))
      ⟨sampleEnabled, c.calls⟩ :=
    .commit (fun u _ => @idle_of_calls ⟨sampleDisabled, c.calls⟩ hcalls u)
      (@run_after sampleDisabled (.enableUser 1) (by decide +kernel))
  obtain ⟨-, -, -, -, hlast⟩ := user_lifecycle hstart hsteps
  obtain ⟨hinvitations, hsessions⟩ := hlast 1 7000000 _ _ _ hdisable (.cons henable (.nil _))
  have haccount : ∃ a, sampleDisabled.accounts.get 2 = some a ∧ a.userId = some 1 := by
    decide +kernel
  have hinvitation : ∃ i, sampleDisabled.invitations.get 3 = some i ∧ i.userId = 1 ∧
      i.tokenHash = "invitation" := by
    decide +kernel
  have hsession : ∃ s, sampleDisabled.sessions.get 4 = some s ∧ s.accountId = 2 ∧
      s.sessionTokenHash = "session" := by
    decide +kernel
  obtain ⟨a, ha, howner⟩ := haccount
  obtain ⟨i, hi, hi', hhash⟩ := hinvitation
  obtain ⟨s, hs, hs', hhash'⟩ := hsession
  exact ⟨by decide +kernel,
    hsessions a (Table.mem_of_get ha) howner s (Table.mem_of_get hs)
      (hs'.trans (Table.key_of_get ha).symm) "session" hhash'.symm,
    (hinvitations i (Table.mem_of_get hi) hi').2 "invitation" hhash.symm⟩

end ForgejoMcp.Users
