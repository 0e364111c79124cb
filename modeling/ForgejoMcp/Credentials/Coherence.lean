import ForgejoMcp.Credentials.Refinement.System

/-!
# Active credentials and their users

A credential is saved for a user that an earlier statement of its transaction has read, before the
token was verified over the network; and who disables or renames a user revokes the active credential
that an earlier statement has found.  So a user may lose its status or its name between the two.
Active credentials belong to active users of their name exactly in the runs in which the user of
every saved credential has kept both, and in which every commit that takes one of them away from a
user also revokes the active credential that the user has by then.
-/

namespace ForgejoMcp.Credentials

open Transactions

variable {server : Server} {base : Db} {h : List (Entry sorts)} {e : Entry sorts}
  {c : Config sorts Call Raised Result} {g : Shared sorts}

/-! ### Coherent states -/

/-- Every active credential belongs to an active user, and has the name of the user. -/
def Db.Owned (db : Db) : Prop :=
  ∀ r ∈ db.forgejoCredentials, r.status = .active → ∃ user,
    db.users.get r.userId = some user ∧ user.status = .active ∧
      user.normalizedForgejoUsername = r.normalizedForgejoUsername

/-- Credentials and users are consistent: every active credential belongs to an active user of its
name, a user has at most one, and a credential that is not active has no secret. -/
structure Db.Coherent (db : Db) : Prop where
  owned : db.Owned
  unique : ∀ r ∈ db.forgejoCredentials, ∀ r' ∈ db.forgejoCredentials, r.status = .active →
    r'.status = .active → r.userId = r'.userId → r = r'
  erased : ∀ r ∈ db.forgejoCredentials, r.status ≠ .active → Erased r

/-- The user that a commit may disable, rename or set back to pending, with the active credential
that it has found for that user, and revokes. -/
def Label.demotes? : Label → Option (Uuid × Option Uuid)
  | .userUpdated userId true found _ | .userDisabled userId found _ => some (userId, found)
  | .userEnabled userId _ _ => some (userId, none)
  | _ => none

/-- Commit `n` does not come too late: the user of a credential that it saves is still active, under
the name with which the user was read; and if it takes the status or the name from a user, the active
credential that it has found is the one that the user has by then. -/
structure Timely (g : Shared sorts) (n : ℕ) (e : Entry sorts) : Prop where
  saves : ∀ row replaced pair readAt, e.label = .credentialSaved row replaced pair readAt →
    KeepsUser row.userId (g.stateAt readAt) (g.stateAt n)
  demotes : ∀ userId found, e.label.demotes? = some (userId, found) →
    ¬ KeepsUser userId (g.stateAt n) e.db → (g.stateAt n).OnlyActive userId found

/-! ### What a commit does to the active credentials -/

theorem Label.demotes?_of_lowers? {l : Label} {userId : Uuid} (hl : l.lowers? = some userId) :
    ∃ found, l.demotes? = some (userId, found) := by
  cases l <;> try cases hl
  case userUpdated id renamed found readAt =>
    cases renamed
    · cases hl
    · cases hl
      exact ⟨found, rfl⟩
  case userDisabled found readAt => exact ⟨found, rfl⟩
  case userEnabled id status readAt =>
    rw [Label.lowers?] at hl
    split at hl
    · cases hl
    · cases hl
      exact ⟨none, rfl⟩

/-- The credentials after a commit that may take the status or the name from a user. -/
theorem Step.demoted (hs : Step server base h e) {userId : Uuid} {found : Option Uuid}
    (hd : e.label.demotes? = some (userId, found)) : ∃ now, e.db.forgejoCredentials =
      ((after base h).revokeFound found now).forgejoCredentials := by
  unfold Step at hs
  cases hl : e.label <;> rw [hl] at hd <;> try cases hd
  case userUpdated id renamed revoked readAt =>
    simp only [hl] at hs
    obtain ⟨loaded, value, now, hdb, -⟩ := hs
    cases renamed
    · cases hd
    · cases hd
      exact ⟨now, hdb ▸ by cases found <;> rfl⟩
  case userDisabled =>
    simp only [hl] at hs
    obtain ⟨loaded, value, now, accounts, sessions, hdb, -⟩ := hs
    exact ⟨now, hdb ▸ by cases found <;> rfl⟩
  case userEnabled =>
    simp only [hl] at hs
    obtain ⟨loaded, value, accounts, hdb, -⟩ := hs
    exact ⟨0, hdb ▸ rfl⟩

/-- An active credential after a commit was active before, or is the one that was saved. -/
theorem Step.active_cases (hs : Step server base h e) {r : ForgejoCredential}
    (hr : r ∈ e.db.forgejoCredentials) (hactive : r.status = .active) :
    (∃ r' ∈ (after base h).forgejoCredentials, r'.id = r.id ∧ r'.status = .active ∧
        r'.binding = r.binding) ∨
      ∃ replaced pair readAt, e.label = .credentialSaved r replaced pair readAt ∧
        Saves server base h r replaced pair readAt := by
  have before : ∀ {db : Db}, ActiveFrom r.userId (after base h) db → r ∈ db.forgejoCredentials →
      ∃ r' ∈ (after base h).forgejoCredentials, r'.id = r.id ∧ r'.status = .active ∧
        r'.binding = r.binding :=
    fun hfrom hr => hfrom r hr rfl hactive
  cases hs.credentialChange with
  | same hdb _ => exact .inl (before (.refl _ _) (hdb ▸ hr))
  | refreshed id pair row access refresh expiresAt _ hdb _ _ _ _ =>
    exact .inl (before (.storeTokens _ _ id access refresh expiresAt) (hdb ▸ hr))
  | revoked found now hdb _ _ => exact .inl (before (.revokeFound _ _ found now) (hdb ▸ hr))
  | saved row replaced pair readAt now hl hdb hsaves =>
    rw [hdb] at hr
    rcases Table.mem_or_eq_of_mem_insert hr with hr | rfl
    · exact .inl (before (.revokeFound _ _ replaced now) hr)
    · exact .inr ⟨replaced, pair, readAt, hl, hsaves⟩

/-- What a commit that saves a credential leaves: the users as they were, and the credential. -/
theorem Step.saved (hs : Step server base h e) {row : ForgejoCredential} {replaced : Option Uuid}
    {pair : Option ForgejoOAuthTokens} {readAt : ℕ}
    (hl : e.label = .credentialSaved row replaced pair readAt) :
    Saves server base h row replaced pair readAt ∧ e.db.users = (after base h).users ∧
      (Consistent server h (after base h) → row ∈ e.db.forgejoCredentials) := by
  unfold Step at hs
  simp only [hl] at hs
  obtain ⟨now, hdb, hsaves⟩ := hs
  refine ⟨hsaves, hdb ▸ users_revokeFound _ _ _, fun hc => ?_⟩
  rw [hdb]
  refine (Table.mem_insert (Table.get_eq_none.2 fun r hr hid => ?_)).2 (.inr rfl)
  obtain ⟨r', hr', rfl⟩ := mem_revokeFound.1 hr
  obtain ⟨e', he', hmem⟩ := hc.saved r' hr'
  refine hsaves.fresh e' he' ?_
  rwa [← hid, id_revokeIf]

/-! ### Steps and runs -/

section

variable {n : ℕ} (hi : (serial server).Inv g) (he : g.history[n]? = some e)

include hi he

/-- A timely commit leaves the active credentials to active users. -/
theorem Timely.owned (ht : Timely g n e) (ho : (g.stateAt n).Owned) : e.db.Owned := by
  intro r hr hactive
  have hs : Step server g.base (g.history.take n) e := hi.valid.step_at he
  rcases hs.active_cases hr hactive with ⟨r', hr', hid, hactive', hbind⟩ | ⟨replaced, pair, readAt, hl, hsaves⟩
  · -- a credential that was active before
    simp only [ForgejoCredential.binding, Prod.mk.injEq] at hbind
    obtain ⟨huserId, -, hname, -⟩ := hbind
    obtain ⟨user, hget, hst, huser⟩ := ho r' hr' hactive'
    have hkeeps : KeepsUser r.userId (g.stateAt n) e.db := by
      by_contra hno
      obtain ⟨found, hd⟩ : ∃ found, e.label.demotes? = some (r.userId, found) :=
        Label.demotes?_of_lowers? (by_contra fun hlow => hno (hs.keepsUser hlow))
      -- its user was demoted, so it was found and revoked
      obtain ⟨now, hdb⟩ := hs.demoted hd
      have hfound := ht.demotes r.userId found hd hno r' hr' huserId hactive'
      rw [hdb] at hr
      obtain ⟨r₀, -, rfl⟩ := mem_revokeFound.1 hr
      obtain ⟨hne, heq⟩ := active_revokeIf hactive
      rw [heq] at hid
      exact hne (hid ▸ hfound)
    obtain ⟨user', hget', hst', hname'⟩ := hkeeps user (huserId ▸ hget) hst
    exact ⟨user', hget', hst', hname'.trans (huser.trans hname)⟩
  · -- the credential that the commit saves
    obtain ⟨user, hget, hst, hname⟩ := hsaves.user
    rw [List.take_take, Nat.min_eq_left (hsaves.readAt_le.trans (List.length_take_le n _))] at hget
    obtain ⟨user', hget', hst', hname'⟩ := ht.saves r replaced pair readAt hl user hget hst
    rw [(hs.saved hl).2.1]
    exact ⟨user', hget', hst', hname'.trans hname⟩

/-- A commit that leaves them so is timely. -/
theorem timely_of_owned (ho : (g.stateAt n).Owned) (ho' : e.db.Owned) : Timely g n e := by
  have hs : Step server g.base (g.history.take n) e := hi.valid.step_at he
  constructor
  · intro row replaced pair readAt hl user hget hst
    obtain ⟨hsaves, husers, hmem⟩ := hs.saved hl
    obtain ⟨user₀, hget₀, -, hname₀⟩ := hsaves.user
    rw [List.take_take, Nat.min_eq_left (hsaves.readAt_le.trans (List.length_take_le n _))] at hget₀
    obtain rfl := Option.some.inj (hget₀.symm.trans hget)
    obtain ⟨user', hget', hst', hname'⟩ :=
      ho' row (hmem (hi.start.consistent_of_valid (hi.valid.take n))) hsaves.active
    exact ⟨user', husers ▸ hget', hst', hname'.trans hname₀.symm⟩
  · intro userId found hd hno r hr huserId hactive
    obtain ⟨now, hdb⟩ := hs.demoted hd
    by_contra hne
    -- a credential that is not found stays active, and so does its user
    have hmem : r ∈ e.db.forgejoCredentials := by
      rw [hdb]
      exact mem_revokeFound.2 ⟨r, hr, if_neg hne⟩
    subst huserId
    obtain ⟨user, hget, -, hname⟩ := ho r hr hactive
    obtain ⟨user', hget', hst', hname'⟩ := ho' r hmem hactive
    refine hno fun user₀ hget₀ _ => ⟨user', hget', hst', ?_⟩
    obtain rfl := Option.some.inj (hget.symm.trans hget₀)
    exact hname'.trans hname.symm

end

theorem stateAt_owned (hi : (serial server).Inv g)
    (ht : ∀ n e, g.history[n]? = some e → Timely g n e) (n : ℕ) : (g.stateAt n).Owned := by
  induction n with
  | zero =>
    intro r hr
    rw [Shared.stateAt, List.take_zero, after_nil, hi.start.forgejoCredentials] at hr
    exact absurd hr (Table.not_mem_empty r)
  | succ n ih =>
    cases he : g.history[n]? with
    | none => rwa [stateAt_of_getElem?_eq_none he]
    | some e =>
      rw [stateAt_of_getElem? he]
      exact (ht n e he).owned hi he ih

/-- Credentials and users are consistent in every state of a run exactly if no commit of the run
comes too late. -/
theorem credentials_coherent_iff (hc : Reachable server c) :
    (∀ n, (c.shared.stateAt n).Coherent) ↔
      ∀ n e, c.shared.history[n]? = some e → Timely c.shared n e := by
  have hi := reachable_inv hc
  constructor
  · intro hall n e he
    exact timely_of_owned hi he (hall n).owned (stateAt_of_getElem? he ▸ (hall (n + 1)).owned)
  · intro ht n
    have hcons := reachable_consistent hc n
    refine ⟨stateAt_owned hi ht n, fun r hr r' hr' hactive hactive' huser => ?_, hcons.erased⟩
    exact hcons.unique r hr r' hr' r.userId (ForgejoCredential.activeUser_eq_some.2 ⟨hactive, rfl⟩)
      (ForgejoCredential.activeUser_eq_some.2 ⟨hactive', huser.symm⟩)

/-! ### Samples -/

/-- The sample user saves a token. -/
def saveScript : List (Cue sorts Call) :=
  [.call (.saveCredential "session" "token") (quietly 6 ++ .user 7 "kim" :: quietly 30)]

theorem credentials_coherent_sample :
    (sampleRun saveScript).shared.current.forgejoCredentials.rows ≠ [] ∧
      ∀ n, ((sampleRun saveScript).shared.stateAt n).Coherent := by
  have hc : Reachable sampleServer (sampleRun saveScript) := sampleRun_reachable _
  refine ⟨by decide +kernel, (credentials_coherent_iff hc).2 fun n e he => ⟨?_, ?_⟩⟩
  · intro row replaced pair readAt hl
    have hn : n < (sampleRun saveScript).shared.history.length := (List.getElem?_eq_some_iff.1 he).1
    rw [show (sampleRun saveScript).shared.history.length = 1 by decide +kernel] at hn
    obtain ⟨hsaves, -⟩ := ((reachable_inv hc).valid.step_at he).saved hl
    obtain rfl : readAt = n := by
      have hle := hsaves.readAt_le.trans (List.length_take_le n _)
      omega
    exact .refl _ _
  · intro userId found hd
    have hnone : ∀ e ∈ (sampleRun saveScript).shared.history, e.label.demotes? = none := by
      decide +kernel
    rw [hnone e (List.mem_of_getElem? he)] at hd
    cases hd

/-- The token of the sample user is being verified when an administrator disables the user. -/
def lateSaveScript : List (Cue sorts Call) :=
  [.call (.saveCredential "session" "token") (quietly 6 ++ [.user 7 "kim"]),
    alone (.disableUser 0), .resume 0 (quietly 30)]

theorem credential_of_disabled_user : Reachable sampleServer (sampleRun lateSaveScript) ∧
    ¬ (sampleRun lateSaveScript).shared.current.Coherent := by
  refine ⟨sampleRun_reachable _, fun hc => ?_⟩
  have hactive : ∃ r ∈ (sampleRun lateSaveScript).shared.current.forgejoCredentials.rows,
      r.userId = 0 ∧ r.status = .active := by
    decide +kernel
  obtain ⟨r, hr, huserId, hst⟩ := hactive
  obtain ⟨user, hget, huser, -⟩ := hc.owned r hr hst
  rw [huserId] at hget
  have hdisabled : ∀ user ∈ (sampleRun lateSaveScript).shared.current.users.rows,
      user.status = .disabled := by
    decide +kernel
  rw [hdisabled user (Table.mem_of_get hget)] at huser
  cases huser

end ForgejoMcp.Credentials
