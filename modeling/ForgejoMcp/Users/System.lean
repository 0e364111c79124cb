import ForgejoMcp.Users.Invariant
import Mathlib.Data.List.Pairwise
import Mathlib.Logic.Function.Basic

/-!
# Overlapping acceptances

The operations run one after another, except `accept`: of its calls any number are in progress.  A
call locks its invitation, reads the user and the account, and commits; it can end without a trace at
any time.  No other operation runs on a user while a call holds one of its invitations.
-/

namespace ForgejoMcp.Users

open Transactions

variable {lib : Library} {dummyHash : String} {db db' : Db}

/-- How far a call of `accept` has come. -/
inductive Phase
  | started
  | locked (invitation : UserInvitation)
  | owned (invitation : UserInvitation) (user : User)
  | loaded (loaded : Loaded)

/-- The invitation whose row a call has locked, as it read it. -/
def Phase.invitation : Phase → Option UserInvitation
  | .started => none
  | .locked invitation => some invitation
  | .owned invitation _ => some invitation
  | .loaded rows => some rows.invitation

/-- A call of `accept` in progress. -/
structure AcceptCall where
  token : String
  password : String
  phase : Phase

/-- The tables and the calls of `accept` in progress. -/
structure Config where
  db : Db
  calls : ℕ → Option AcceptCall

/-- The call is in the phase. -/
def Config.setPhase (c : Config) (k : ℕ) (call : AcceptCall) (phase : Phase) : Config :=
  { c with calls := Function.update c.calls k (some { call with phase := phase }) }

/-- No call holds an invitation of the user. -/
def Config.Idle (c : Config) (userId : Uuid) : Prop :=
  ∀ k call i, c.calls k = some call → call.phase.invitation = some i → i.userId ≠ userId

/-- No call holds the invitation. -/
def Config.Unlocked (c : Config) (invitationId : Uuid) : Prop :=
  ∀ k call i, c.calls k = some call → call.phase.invitation = some i → i.id ≠ invitationId

/-- What a step was. -/
inductive Event
  | committed (op : Op)
  | failed (op : Op)
  | started
  | read
  | accepted (invitationId : Uuid) (checkedAt : Time)
  | ended

/-- One step of the system. -/
inductive Step (lib : Library) (dummyHash : String) (c : Config) : Event → Config → Prop
  | commit {op : Op} {db' : Db} (hidle : ∀ u, op.user lib c.db = some u → c.Idle u)
      (hrun : op.run lib dummyHash c.db = .ok db') :
      Step lib dummyHash c (.committed op) { c with db := db' }
  | fail {op : Op} {failure : Failure} (hrun : op.run lib dummyHash c.db = .error failure) :
      Step lib dummyHash c (.failed op) c
  | start {k : ℕ} {token password : String} (hfree : c.calls k = none) :
      Step lib dummyHash c .started
        { c with calls := Function.update c.calls k (some ⟨token, password, .started⟩) }
  | lock {k : ℕ} {call : AcceptCall} {invitation : UserInvitation} (hcall : c.calls k = some call)
      (hphase : call.phase = .started)
      (hfind : c.db.byTokenHash (lib.hashToken call.token) = some invitation)
      (hfree : c.Unlocked invitation.id) :
      Step lib dummyHash c .read (c.setPhase k call (.locked invitation))
  | readUser {k : ℕ} {call : AcceptCall} {invitation : UserInvitation} {user : User}
      (hcall : c.calls k = some call) (hphase : call.phase = .locked invitation)
      (huser : c.db.users.get invitation.userId = some user) :
      Step lib dummyHash c .read (c.setPhase k call (.owned invitation user))
  | readAccount {k : ℕ} {call : AcceptCall} {invitation : UserInvitation} {user : User}
      (hcall : c.calls k = some call) (hphase : call.phase = .owned invitation user) :
      Step lib dummyHash c .read
        (c.setPhase k call (.loaded ⟨invitation, user, c.db.accountOf user.id⟩))
  | accept {k : ℕ} {call : AcceptCall} {loaded : Loaded} {checkedAt now : Time} {salt : ℕ}
      {db' : Db} (hcall : c.calls k = some call) (hphase : call.phase = .loaded loaded)
      (hrun : acceptLoaded lib loaded checkedAt now salt call.password c.db = .ok db') :
      Step lib dummyHash c (.accepted loaded.invitation.id checkedAt)
        ⟨db', Function.update c.calls k none⟩
  | abandon {k : ℕ} :
      Step lib dummyHash c .ended { c with calls := Function.update c.calls k none }

/-- A run, with its events. -/
inductive Steps (lib : Library) (dummyHash : String) : Config → List Event → Config → Prop
  | nil (c : Config) : Steps lib dummyHash c [] c
  | cons {c c' c'' : Config} {e : Event} {es : List Event} (hstep : Step lib dummyHash c e c')
      (hsteps : Steps lib dummyHash c' es c'') : Steps lib dummyHash c (e :: es) c''

/-! ### What an acceptance has checked and does -/

/-- The rows that `accept` writes to are as it read them. -/
structure Fresh (db : Db) (invitation : UserInvitation) (user : User)
    (account : DashboardAccount) : Prop where
  mem : invitation ∈ db.invitations
  owner : db.users.get invitation.userId = some user
  account : db.accountOf user.id = some account

theorem Fresh.userId {i : UserInvitation} {u : User} {a : DashboardAccount} (h : Fresh db i u a) :
    u.id = i.userId :=
  Table.key_of_get h.owner

/-- What an acceptance that commits has checked. -/
structure Accepts (loaded : Loaded) (account : DashboardAccount) (checkedAt : Time) : Prop where
  account : loaded.account = some account
  isOpen : loaded.invitation.Open
  unexpired : checkedAt < loaded.invitation.expiresAt
  enabled : loaded.user.status ≠ .disabled

theorem checkValid_eq_ok {i : UserInvitation} {u : User} {now : Time} {x : Unit}
    (h : checkValid i u now = .ok x) :
    i.Open ∧ now < i.expiresAt ∧ u.status ≠ .disabled := by
  unfold checkValid at h
  simp only [bind_eq_ok, rejectIf_eq_ok] at h
  obtain ⟨-, hused, -, hlive, henabled⟩ := h
  rw [not_or, not_not, Int.not_le] at hlive
  exact ⟨⟨not_not.1 hused, hlive.1⟩, hlive.2, henabled⟩

theorem acceptLoaded_eq_ok {loaded : Loaded} {checkedAt now : Time} {salt : ℕ} {password : String}
    (h : acceptLoaded lib loaded checkedAt now salt password db = .ok db') :
    ∃ account passwordHash, Accepts loaded account checkedAt ∧
      db' = acceptWrites db loaded.invitation loaded.user account passwordHash now := by
  unfold acceptLoaded at h
  simp only [bind_eq_ok, orFail_eq_ok] at h
  obtain ⟨_, hvalid, account, haccount, passwordHash, -, h⟩ := h
  obtain ⟨hopen, hexpires, henabled⟩ := checkValid_eq_ok hvalid
  exact ⟨account, passwordHash, ⟨haccount, hopen, hexpires, henabled⟩, (Except.ok.inj h).symm⟩

@[simp] theorem flushed_self {α : Type} [DecidableEq α] (loaded value : α) :
    flushed loaded value loaded = value := by
  unfold flushed
  split
  · assumption
  · rfl

theorem UserInvitation.aged_use (now : Time) (i : UserInvitation) :
    i.Aged { i with usedAt := some now } :=
  ⟨rfl, rfl, rfl, rfl, fun _ => Option.some_ne_none now, fun h => h⟩

section Accepted

variable {i : UserInvitation} {u : User} {a : DashboardAccount} {passwordHash : String} {now : Time}

theorem acceptWrites_consistent (hdb : Consistent db) (h : Fresh db i u a) :
    Consistent (acceptWrites db i u a passwordHash now) := by
  obtain ⟨hmem, howner⟩ := accountOf_mem h.account
  refine ⟨hdb.paired.setStatus hmem howner (fun _ => rfl) fun r hr hid => ?_,
    hdb.invitations.update (UserInvitation.aged_use now), hdb.sessions.update fun _ => rfl⟩
  obtain rfl := Table.eq_of_key_eq hr (Table.mem_of_get h.owner) hid
  simp only [flushed_self]
  exact ⟨rfl, fun _ => rfl, fun hpending => (nomatch hpending)⟩

theorem acceptWrites_aged : db.Aged (acceptWrites db i u a passwordHash now) :=
  ⟨.update UserInvitation.Aged.refl fun i _ _ => i.aged_use now,
    .update Session.Aged.refl fun s _ _ => s.aged_revoke now⟩

/-- The invitation is used. -/
theorem acceptWrites_used (h : Fresh db i u a) :
    (acceptWrites db i u a passwordHash now).invitations.get i.id =
      some { i with usedAt := some now } := by
  change (db.invitations.assign i.id _).get i.id = _
  rw [Table.get_assign, if_pos rfl, Table.get_of_mem h.mem]
  rfl

theorem acceptWrites_untouched (h : Fresh db i u a) {userId : Uuid} (hne : userId ≠ i.userId) :
    Untouched userId db (acceptWrites db i u a passwordHash now) := by
  obtain ⟨hmem, howner⟩ := accountOf_mem h.account
  rw [h.userId] at howner
  refine ⟨?_, fun b hb => Table.mem_assign_of_ne hmem (·.userId) rfl ?_,
    fun j hj => Table.mem_assign_of_ne h.mem (·.userId) rfl fun heq => hne ?_⟩
  · change (db.users.assign u.id _).get userId = _
    rw [Table.get_assign, if_neg (h.userId.symm ▸ hne)]
  · rw [howner, hb]
    exact fun heq => hne (Option.some.inj heq).symm
  · exact hj.symm.trans heq.symm

/-- The other invitations of the user stay. -/
theorem mem_acceptWrites (h : Fresh db i u a) {j : UserInvitation} (hne : j.id ≠ i.id) :
    j ∈ (acceptWrites db i u a passwordHash now).invitations ↔ j ∈ db.invitations :=
  Table.mem_assign_of_ne h.mem (·.id) rfl hne.symm

end Accepted

/-! ### The invariant -/

/-- What a call has read of an open invitation is as it was. -/
def Phase.Current (db : Db) : Phase → Prop
  | .started => True
  | .locked i => i ∈ db.invitations
  | .owned i u => i ∈ db.invitations ∧ (i.Open → db.users.get i.userId = some u)
  | .loaded l => l.invitation ∈ db.invitations ∧ (l.invitation.Open →
      db.users.get l.invitation.userId = some l.user ∧ l.account = db.accountOf l.user.id)

theorem Phase.Current.mem {phase : Phase} (h : phase.Current db) {i : UserInvitation}
    (hi : phase.invitation = some i) : i ∈ db.invitations := by
  cases phase with
  | started => cases hi
  | locked => exact Option.some.inj hi ▸ h
  | owned => exact Option.some.inj hi ▸ h.1
  | loaded => exact Option.some.inj hi ▸ h.1

/-- What a call has read of an invitation that is closed does not matter. -/
theorem Phase.current_of_closed {phase : Phase} {i : UserInvitation}
    (hi : phase.invitation = some i) (hmem : i ∈ db.invitations) (hclosed : ¬ i.Open) :
    phase.Current db := by
  cases phase with
  | started => trivial
  | locked => exact Option.some.inj hi ▸ hmem
  | owned =>
    cases hi
    exact ⟨hmem, fun h => absurd h hclosed⟩
  | loaded =>
    cases hi
    exact ⟨hmem, fun h => absurd h hclosed⟩

/-- What a call has read stays current as long as the rows of its user are untouched. -/
theorem Phase.Current.untouched {phase : Phase} (h : phase.Current db)
    (hdb : Paired db.users db.accounts) (hdb' : Paired db'.users db'.accounts)
    (hother : ∀ i, phase.invitation = some i → Untouched i.userId db db') :
    phase.Current db' := by
  cases phase with
  | started => trivial
  | locked i => exact ((hother i rfl).invitations i rfl).2 h
  | owned i u =>
    have hrows := hother i rfl
    exact ⟨(hrows.invitations i rfl).2 h.1, fun hopen => hrows.user.trans (h.2 hopen)⟩
  | loaded l =>
    have hrows := hother l.invitation rfl
    refine ⟨(hrows.invitations _ rfl).2 h.1, fun hopen => ?_⟩
    obtain ⟨huser, haccount⟩ := h.2 hopen
    refine ⟨hrows.user.trans huser, haccount.trans ?_⟩
    rw [Table.key_of_get huser, hrows.accountOf hdb hdb']

/-- What every step keeps: the tables are consistent, what a call has read stays current, and no two
calls hold one invitation. -/
structure Inv (c : Config) : Prop where
  consistent : Consistent c.db
  current : ∀ k call, c.calls k = some call → call.phase.Current c.db
  apart : ∀ k k' call call' i i', c.calls k = some call → c.calls k' = some call' →
    call.phase.invitation = some i → call'.phase.invitation = some i' → i.id = i'.id → k = k'

/-- Of the invitations of a user at most one is open. -/
theorem Orderly.eq_of_open {t : Table Uuid UserInvitation UserInvitation.id} (h : Orderly t)
    {i j : UserInvitation} (hi : i ∈ t) (hj : j ∈ t) (howner : i.userId = j.userId)
    (hiopen : i.Open) (hjopen : j.Open) : i = j := by
  have hpairs : t.rows.Pairwise fun i j => i.userId = j.userId → i.Open → j.Open → i = j :=
    h.newest.imp fun hij howner hopen => absurd hopen (hij howner)
  have hflip : t.rows.Pairwise fun i j => j.userId = i.userId → j.Open → i.Open → j = i :=
    h.newest.imp fun hij howner _ hopen => absurd hopen (hij howner.symm)
  exact hpairs.forall_of_forall_of_flip (fun _ _ _ _ _ => rfl) hflip hi hj howner hiopen hjopen

namespace Inv

variable {c c' : Config}

/-- A call that ends leaves the others as they were. -/
theorem erase (h : Inv c) (k : ℕ) : Inv { c with calls := Function.update c.calls k none } := by
  have hkept : ∀ {k' call}, Function.update c.calls k none k' = some call →
      c.calls k' = some call := by
    intro k' call hcall
    by_cases hk : k' = k
    · rw [hk, Function.update_self] at hcall
      cases hcall
    · rwa [Function.update_of_ne hk] at hcall
  exact ⟨h.consistent, fun k' call hcall => h.current k' call (hkept hcall),
    fun k₁ k₂ call₁ call₂ i₁ i₂ h₁ h₂ => h.apart k₁ k₂ call₁ call₂ i₁ i₂ (hkept h₁) (hkept h₂)⟩

/-- A call enters a phase, on an invitation that no other call holds. -/
theorem setCall (h : Inv c) (k : ℕ) (call : AcceptCall) (hcurrent : call.phase.Current c.db)
    (hfree : ∀ i, call.phase.invitation = some i → ∀ k' call' i', k' ≠ k →
      c.calls k' = some call' → call'.phase.invitation = some i' → i'.id ≠ i.id) :
    Inv { c with calls := Function.update c.calls k (some call) } := by
  have hcalls : ∀ {k' call'}, Function.update c.calls k (some call) k' = some call' →
      (k' = k ∧ call' = call) ∨ (k' ≠ k ∧ c.calls k' = some call') := by
    intro k' call' hcall
    by_cases hk : k' = k
    · rw [hk, Function.update_self] at hcall
      exact .inl ⟨hk, (Option.some.inj hcall).symm⟩
    · exact .inr ⟨hk, by rwa [Function.update_of_ne hk] at hcall⟩
  refine ⟨h.consistent, fun k' call' hcall => ?_, fun k₁ k₂ call₁ call₂ i₁ i₂ h₁ h₂ hi₁ hi₂ heq => ?_⟩
  · rcases hcalls hcall with ⟨-, rfl⟩ | ⟨-, hcall⟩
    · exact hcurrent
    · exact h.current k' call' hcall
  · rcases hcalls h₁ with ⟨rfl, rfl⟩ | ⟨hk₁, hold₁⟩ <;>
      rcases hcalls h₂ with ⟨rfl, rfl⟩ | ⟨hk₂, hold₂⟩
    · rfl
    · exact absurd heq.symm (hfree i₁ hi₁ k₂ call₂ i₂ hk₂ hold₂ hi₂)
    · exact absurd heq (hfree i₂ hi₂ k₁ call₁ i₁ hk₁ hold₁ hi₁)
    · exact h.apart k₁ k₂ call₁ call₂ i₁ i₂ hold₁ hold₂ hi₁ hi₂ heq

/-- A call goes on with the invitation it holds. -/
theorem setPhase (h : Inv c) {k : ℕ} {call : AcceptCall} (hcall : c.calls k = some call)
    {phase : Phase} (hcurrent : phase.Current c.db)
    (hsame : phase.invitation = call.phase.invitation) : Inv (c.setPhase k call phase) := by
  refine h.setCall k _ hcurrent fun i hi k' call' i' hk hcall' hi' heq => ?_
  exact hk (h.apart k' k call' call i' i hcall' hcall hi' (hsame.symm.trans hi) heq)

/-- A call whose checks pass has read the rows that it writes to. -/
theorem fresh (h : Inv c) {k : ℕ} {call : AcceptCall} (hcall : c.calls k = some call)
    {loaded : Loaded} (hphase : call.phase = .loaded loaded) {account : DashboardAccount}
    {checkedAt : Time} (haccepts : Accepts loaded account checkedAt) :
    Fresh c.db loaded.invitation loaded.user account := by
  have hcurrent := h.current k call hcall
  rw [hphase] at hcurrent
  obtain ⟨huser, haccount⟩ := hcurrent.2 haccepts.isOpen
  exact ⟨hcurrent.1, huser, haccount.symm.trans haccepts.account⟩

/-- An acceptance closes nothing that another call has found open. -/
theorem accept (h : Inv c) {k : ℕ} {call : AcceptCall} (hcall : c.calls k = some call)
    {loaded : Loaded} (hphase : call.phase = .loaded loaded) {account : DashboardAccount}
    {checkedAt : Time} (haccepts : Accepts loaded account checkedAt) {passwordHash : String}
    {now : Time} :
    Inv ⟨acceptWrites c.db loaded.invitation loaded.user account passwordHash now,
      Function.update c.calls k none⟩ := by
  have hfresh := h.fresh hcall hphase haccepts
  have hconsistent : Consistent (acceptWrites c.db loaded.invitation loaded.user account
      passwordHash now) :=
    acceptWrites_consistent h.consistent hfresh
  have herased := h.erase k
  refine ⟨hconsistent, fun k' call' hcall' => ?_, herased.apart⟩
  have hcurrent := herased.current k' call' hcall'
  have hk : k' ≠ k := by
    rintro rfl
    simp at hcall'
  simp only [Function.update_of_ne hk] at hcall'
  by_cases hsame : ∃ i, call'.phase.invitation = some i ∧ i.userId = loaded.invitation.userId
  · obtain ⟨i, hi, howner⟩ := hsame
    have hid : i.id ≠ loaded.invitation.id := fun heq =>
      hk (h.apart k' k call' call i _ hcall' hcall hi (by rw [hphase]; rfl) heq)
    have hmem : i ∈ c.db.invitations := hcurrent.mem hi
    refine Phase.current_of_closed hi ((mem_acceptWrites hfresh hid).2 hmem) fun hopen => hid ?_
    rw [h.consistent.invitations.eq_of_open hmem hfresh.mem howner hopen haccepts.isOpen]
  · exact hcurrent.untouched h.consistent.paired hconsistent.paired fun i hi =>
      acceptWrites_untouched hfresh fun howner => hsame ⟨i, hi, howner⟩

theorem step (h : Inv c) {e : Event} (hstep : Step lib dummyHash c e c') : Inv c' := by
  cases hstep with
  | commit hidle hrun =>
    have heffect := Op.effect hrun
    have hconsistent := heffect.consistent h.consistent
    refine ⟨hconsistent, fun k call hcall => ?_, h.apart⟩
    refine (h.current k call hcall).untouched h.consistent.paired hconsistent.paired fun i hi => ?_
    exact heffect.untouched fun huser => hidle _ huser k call i hcall hi rfl
  | fail => exact h
  | start hfree => exact h.setCall _ _ trivial fun i hi => (nomatch hi)
  | @lock k call invitation hcall hphase hfind hfree =>
    refine h.setCall k _ (List.mem_of_find?_eq_some hfind) fun i hi k' call' i' _ hcall' hi' => ?_
    obtain rfl : invitation = i := Option.some.inj hi
    exact hfree k' call' i' hcall' hi'
  | @readUser k call invitation user hcall hphase huser =>
    have hmem : call.phase.Current c.db := h.current k call hcall
    rw [hphase] at hmem
    exact h.setPhase hcall ⟨hmem, fun _ => huser⟩ (by rw [hphase]; rfl)
  | @readAccount k call invitation user hcall hphase =>
    have hmem : call.phase.Current c.db := h.current k call hcall
    rw [hphase] at hmem
    exact h.setPhase hcall ⟨hmem.1, fun hopen => ⟨hmem.2 hopen, rfl⟩⟩ (by rw [hphase]; rfl)
  | @accept k call loaded checkedAt now salt db' hcall hphase hrun =>
    obtain ⟨account, passwordHash, haccepts, rfl⟩ := acceptLoaded_eq_ok hrun
    exact h.accept hcall hphase haccepts
  | abandon => exact h.erase _

theorem steps (h : Inv c) {es : List Event} (hsteps : Steps lib dummyHash c es c') : Inv c' := by
  induction hsteps with
  | nil => exact h
  | cons hstep _ ih => exact ih (h.step hstep)

end Inv

end ForgejoMcp.Users
