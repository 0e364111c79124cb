import ForgejoMcp.Credentials.Directory
import ForgejoMcp.Credentials.Provider

/-!
# Invariants of the credentials and of the linking requests

In every committed state a user has at most one active credential, a credential that is not active
has no secret, an active OAuth credential holds the pair that was stored for it last, and a linking
request that has not been consumed is as it was started.
-/

namespace ForgejoMcp.Credentials

open Transactions

variable {server : Server} {base : Db} {h : List (Entry sorts)} {e : Entry sorts}

/-! ### What a commit changes -/

/-- What a commit does to the credentials. -/
inductive CredentialChange (server : Server) (base : Db) (h : List (Entry sorts))
    (e : Entry sorts) : Prop
  | same (db : e.db.forgejoCredentials = (after base h).forgejoCredentials)
      (pair : e.label.pair? = none)
  | saved (row : ForgejoCredential) (replaced : Option Uuid) (pair : Option ForgejoOAuthTokens)
      (readAt : ℕ) (now : Time) (label : e.label = .credentialSaved row replaced pair readAt)
      (db : e.db.forgejoCredentials =
        ((after base h).revokeFound replaced now).forgejoCredentials.insert row)
      (saves : Saves server base h row replaced pair readAt)
  | refreshed (id : Uuid) (pair : ForgejoOAuthTokens) (row : ForgejoCredential)
      (access refresh : Forgejo.EncryptedCredential) (expiresAt : Time)
      (label : e.label = .credentialRefreshed id pair)
      (db : e.db.forgejoCredentials =
        ((after base h).storeTokens id access refresh expiresAt).forgejoCredentials)
      (found : (after base h).forgejoCredentials.get id = some row) (active : row.status = .active)
      (access_seals : Seals server (some access.ciphertext) (some access.nonce) pair.accessToken)
      (refresh_seals :
        Seals server (some refresh.ciphertext) (some refresh.nonce) pair.refreshToken)
  | revoked (found : Option Uuid) (now : Time)
      (db : e.db.forgejoCredentials =
        ((after base h).revokeFound found now).forgejoCredentials)
      (pair : e.label.pair? = none) (locked : ∀ c, found = some c → .credential c ∈ footprint e.label)

theorem forgejoCredentials_envDb (change : EnvDb) (db : Db) :
    (envDb change db).forgejoCredentials = db.forgejoCredentials := by
  cases change <;> rw [envDb] <;> split <;> rfl

theorem Step.credentialChange (hs : Step server base h e) : CredentialChange server base h e := by
  unfold Step at hs
  cases hl : e.label <;> simp only [hl] at hs
  case requestStarted =>
    obtain ⟨p, created, hdb, -⟩ := hs
    exact .same (hdb ▸ rfl) (by rw [hl]; rfl)
  case requestConsumed => obtain ⟨now, hdb, -⟩ := hs; exact .same (hdb ▸ rfl) (by rw [hl]; rfl)
  case verificationFailed => exact .same (hs ▸ rfl) (by rw [hl]; rfl)
  case tokenRead => exact .same (hs ▸ rfl) (by rw [hl]; rfl)
  case credentialSaved row replaced pair readAt =>
    obtain ⟨now, hdb, hsaves⟩ := hs
    exact .saved row replaced pair readAt now hl (hdb ▸ rfl) hsaves
  case credentialRefreshed id pair =>
    obtain ⟨row, access, refresh, expiresAt, hdb, hget, hactive, haccess, hrefresh⟩ := hs
    exact .refreshed id pair row access refresh expiresAt hl (hdb ▸ rfl) hget hactive haccess hrefresh
  case credentialRevoked id =>
    obtain ⟨now, hdb⟩ := hs
    refine .revoked (some id) now (hdb ▸ rfl) (by rw [hl]; rfl) fun c hc => ?_
    rw [hl, Option.some.inj hc]
    exact List.mem_singleton_self _
  case userUpdated id renamed revoked readAt =>
    obtain ⟨loaded, value, now, hdb, -⟩ := hs
    refine .revoked revoked now (hdb ▸ by cases revoked <;> rfl) (by rw [hl]; rfl) fun c hc => ?_
    rw [hl, hc]
    exact List.mem_singleton_self _
  case userDisabled id revoked readAt =>
    obtain ⟨loaded, value, now, accounts, sessions, hdb, -⟩ := hs
    refine .revoked revoked now (hdb ▸ by cases revoked <;> rfl) (by rw [hl]; rfl) fun c hc => ?_
    rw [hl, hc]
    exact List.mem_singleton_self _
  case userEnabled => obtain ⟨loaded, value, accounts, hdb, -⟩ := hs; exact .same (hdb ▸ rfl) (by rw [hl]; rfl)
  case instanceConfigured => obtain ⟨instances, hdb⟩ := hs; exact .same (hdb ▸ rfl) (by rw [hl]; rfl)
  case configurationSaved =>
    obtain ⟨configurations, hdb, -⟩ := hs
    exact .same (hdb ▸ rfl) (by rw [hl]; rfl)
  case environment =>
    obtain ⟨change, hdb⟩ := hs
    exact .same (hdb ▸ forgejoCredentials_envDb change _) (by rw [hl]; rfl)

/-- A commit with the label leaves the credentials alone. -/
def Label.keepsCredentials : Label → Bool
  | .credentialSaved _ _ _ _ | .credentialRefreshed _ _ | .credentialRevoked _
  | .userUpdated _ _ _ _ | .userDisabled _ _ _ => false
  | _ => true

/-- A credential after the one that was found is revoked. -/
def ForgejoCredential.revokeIf (found : Option Uuid) (now : Time) (r : ForgejoCredential) :
    ForgejoCredential :=
  if found = some r.id then (ForgejoCredential.revokeSecret now).apply r else r

theorem get_revokeFound (db : Db) (found : Option Uuid) (now : Time) (id : Uuid) :
    (db.revokeFound found now).forgejoCredentials.get id =
      (db.forgejoCredentials.get id).map (ForgejoCredential.revokeIf found now) := by
  cases found with
  | none =>
    rw [Db.revokeFound]
    cases db.forgejoCredentials.get id <;> rfl
  | some c =>
    rw [Db.revokeFound, Db.revokeCredential, Table.get_update]
    refine congrArg (fun f => Option.map f _) (funext fun r => ?_)
    by_cases hc : r.id = c
    · simp [ForgejoCredential.revokeIf, hc]
    · simp [ForgejoCredential.revokeIf, hc, Ne.symm hc]

theorem mem_revokeFound {db : Db} {found : Option Uuid} {now : Time} {r : ForgejoCredential} :
    r ∈ (db.revokeFound found now).forgejoCredentials ↔
      ∃ r' ∈ db.forgejoCredentials, ForgejoCredential.revokeIf found now r' = r := by
  constructor
  · intro hr
    have hget := Table.get_of_mem hr
    rw [get_revokeFound] at hget
    obtain ⟨r', hget', heq⟩ := Option.map_eq_some_iff.1 hget
    exact ⟨r', Table.mem_of_get hget', heq⟩
  · rintro ⟨r', hr', rfl⟩
    refine Table.mem_of_get (k := r'.id) ?_
    rw [get_revokeFound, Table.get_of_mem hr', Option.map_some]

/-- What a credential keeps as long as it exists. -/
def ForgejoCredential.binding (r : ForgejoCredential) :
    Uuid × ℤ × String × CredentialKind × Option String × Option String :=
  (r.userId, r.forgejoUserId, r.normalizedForgejoUsername, r.kind, r.oauthBaseUrl, r.oauthClientId)

theorem id_revokeIf (found : Option Uuid) (now : Time) (r : ForgejoCredential) :
    (r.revokeIf found now).id = r.id := by
  rw [ForgejoCredential.revokeIf]
  split <;> rfl

/-- A credential that is active after a revocation is not the one that was found. -/
theorem active_revokeIf {found : Option Uuid} {now : Time} {r : ForgejoCredential}
    (hactive : (r.revokeIf found now).status = .active) :
    found ≠ some r.id ∧ r.revokeIf found now = r := by
  rw [ForgejoCredential.revokeIf] at hactive ⊢
  split at hactive
  · cases hactive
  · next hne => exact ⟨hne, if_neg hne⟩

/-! ### Active credentials -/

/-- An active credential of the user comes from an active one of it, with the same binding. -/
def ActiveFrom (userId : Uuid) (a b : Db) : Prop :=
  ∀ r ∈ b.forgejoCredentials, r.userId = userId → r.status = .active →
    ∃ r' ∈ a.forgejoCredentials, r'.id = r.id ∧ r'.status = .active ∧ r'.binding = r.binding

theorem ActiveFrom.refl (userId : Uuid) (a : Db) : ActiveFrom userId a a :=
  fun r hr _ hactive => ⟨r, hr, rfl, hactive, rfl⟩

theorem ActiveFrom.trans {userId : Uuid} {a b c : Db} (hab : ActiveFrom userId a b)
    (hbc : ActiveFrom userId b c) : ActiveFrom userId a c := by
  intro r hr huser hactive
  obtain ⟨r', hr', hid', hactive', hbind'⟩ := hbc r hr huser hactive
  obtain ⟨r'', hr'', hid'', hactive'', hbind''⟩ :=
    hab r' hr' ((congrArg Prod.fst hbind').trans huser) hactive'
  exact ⟨r'', hr'', hid''.trans hid', hactive'', hbind''.trans hbind'⟩

theorem ActiveFrom.revokeFound (userId : Uuid) (db : Db) (found : Option Uuid) (now : Time) :
    ActiveFrom userId db (db.revokeFound found now) := by
  intro r hr _ hactive
  obtain ⟨r', hr', rfl⟩ := mem_revokeFound.1 hr
  obtain ⟨-, heq⟩ := active_revokeIf hactive
  rw [heq] at hactive ⊢
  exact ⟨r', hr', rfl, hactive, rfl⟩

theorem ActiveFrom.storeTokens (userId : Uuid) (db : Db) (id : Uuid)
    (access refresh : Forgejo.EncryptedCredential) (expiresAt : Time) :
    ActiveFrom userId db (db.storeTokens id access refresh expiresAt) := by
  intro r hr _ hactive
  obtain ⟨r', hr', rfl⟩ := Table.mem_update.1 hr
  refine ⟨r', hr', ?_⟩
  split at hactive
  · next hid => rw [if_pos hid]; exact ⟨rfl, hactive, rfl⟩
  · next hid => rw [if_neg hid]; exact ⟨rfl, hactive, rfl⟩

/-- The user for whom a commit adds a credential. -/
def Label.savesFor? : Label → Option Uuid
  | .credentialSaved row _ _ _ => some row.userId
  | _ => none

theorem Step.activeFrom (hs : Step server base h e) {userId : Uuid}
    (hno : e.label.savesFor? ≠ some userId) : ActiveFrom userId (after base h) e.db := by
  have of_eq : ∀ {a b : Db}, b.forgejoCredentials = a.forgejoCredentials →
      ∀ {c : Db}, ActiveFrom userId c a → ActiveFrom userId c b :=
    fun heq _ hc r hr => hc r (heq ▸ hr)
  cases hs.credentialChange with
  | same hdb _ => exact of_eq hdb (.refl _ _)
  | refreshed id pair row access refresh expiresAt _ hdb _ _ _ _ =>
    exact of_eq hdb (.storeTokens userId _ id access refresh expiresAt)
  | revoked found now hdb _ _ => exact of_eq hdb (.revokeFound userId _ found now)
  | saved row replaced pair readAt now hl hdb hsaves =>
    intro r hr huser hactive
    rw [hdb] at hr
    rcases Table.mem_or_eq_of_mem_insert hr with hr | rfl
    · exact ActiveFrom.revokeFound userId _ replaced now r hr huser hactive
    · exact absurd (by rw [hl, ← huser]; rfl) hno

theorem Db.OnlyActive.of_activeFrom {a b : Db} {userId : Uuid} {found : Option Uuid}
    (h : a.OnlyActive userId found) (hab : ActiveFrom userId a b) : b.OnlyActive userId found := by
  intro r hr huser hactive
  obtain ⟨r', hr', hid, hactive', hbind⟩ := hab r hr huser hactive
  rw [← hid]
  exact h r' hr' ((congrArg Prod.fst hbind).trans huser) hactive'

/-! ### Linking requests -/

/-- What a commit does to the linking requests. -/
inductive RequestChange (base : Db) (h : List (Entry sorts)) (e : Entry sorts) : Prop
  | same (db : e.db.forgejoOauthRequests = (after base h).forgejoOauthRequests)
  | started (request : ForgejoOAuthRequest) (deleted : List Uuid) (p : ForgejoOAuthRequest → Bool)
      (label : e.label = .requestStarted request deleted)
      (db : e.db.forgejoOauthRequests =
        ((after base h).startRequest request deleted p).forgejoOauthRequests)
      (fresh : Fresh h request.id) (unconsumed : request.consumedAt = none)
  | consumed (request : ForgejoOAuthRequest) (time now : Time)
      (label : e.label = .requestConsumed request time)
      (db : e.db.forgejoOauthRequests =
        ((after base h).consumeRequest request.id now).forgejoOauthRequests)
      (found : (after base h).forgejoOauthRequests.get request.id = some request)
      (unconsumed : request.consumedAt = none)

theorem forgejoOauthRequests_envDb (change : EnvDb) (db : Db) :
    (envDb change db).forgejoOauthRequests = db.forgejoOauthRequests := by
  cases change <;> rw [envDb] <;> split <;> rfl

theorem forgejoOauthRequests_revokeFound (db : Db) (found : Option Uuid) (now : Time) :
    (db.revokeFound found now).forgejoOauthRequests = db.forgejoOauthRequests := by
  cases found <;> rfl

theorem Step.requestChange (hs : Step server base h e) : RequestChange base h e := by
  unfold Step at hs
  cases hl : e.label <;> simp only [hl] at hs
  case requestStarted request deleted =>
    obtain ⟨p, created, hdb, hfresh, hopen, -⟩ := hs
    exact .started request deleted p hl (hdb ▸ rfl) hfresh hopen
  case requestConsumed request time =>
    obtain ⟨now, hdb, hget, hopen, -⟩ := hs
    exact .consumed request time now hl (hdb ▸ rfl) hget hopen
  case verificationFailed => exact .same (hs ▸ rfl)
  case tokenRead => exact .same (hs ▸ rfl)
  case credentialSaved =>
    obtain ⟨now, hdb, -⟩ := hs
    exact .same (hdb ▸ forgejoOauthRequests_revokeFound _ _ _)
  case credentialRefreshed =>
    obtain ⟨row, access, refresh, expiresAt, hdb, -⟩ := hs
    exact .same (hdb ▸ rfl)
  case credentialRevoked => obtain ⟨now, hdb⟩ := hs; exact .same (hdb ▸ rfl)
  case userUpdated =>
    obtain ⟨loaded, value, now, hdb, -⟩ := hs
    exact .same (hdb ▸ forgejoOauthRequests_revokeFound _ _ _)
  case userDisabled =>
    obtain ⟨loaded, value, now, accounts, sessions, hdb, -⟩ := hs
    exact .same (hdb ▸ forgejoOauthRequests_revokeFound _ _ _)
  case userEnabled => obtain ⟨loaded, value, accounts, hdb, -⟩ := hs; exact .same (hdb ▸ rfl)
  case instanceConfigured => obtain ⟨instances, hdb⟩ := hs; exact .same (hdb ▸ rfl)
  case configurationSaved => obtain ⟨configurations, hdb, -⟩ := hs; exact .same (hdb ▸ rfl)
  case environment =>
    obtain ⟨change, hdb⟩ := hs
    exact .same (hdb ▸ forgejoOauthRequests_envDb change _)

/-! ### Committed states -/

/-- The user of an active credential. -/
def ForgejoCredential.activeUser (r : ForgejoCredential) : Option Uuid :=
  if r.status = .active then some r.userId else none

theorem ForgejoCredential.activeUser_eq_some {r : ForgejoCredential} {userId : Uuid} :
    r.activeUser = some userId ↔ r.status = .active ∧ r.userId = userId := by
  rw [ForgejoCredential.activeUser]
  split <;> simp_all

/-- What holds of the credentials in every committed state. -/
structure Consistent (server : Server) (h : List (Entry sorts)) (db : Db) : Prop where
  unique : db.forgejoCredentials.Unique ForgejoCredential.activeUser
  erased : ∀ r ∈ db.forgejoCredentials, r.status ≠ .active → Erased r
  saved : ∀ r ∈ db.forgejoCredentials, ∃ e ∈ h, r.id ∈ ids e.label
  stored : ∀ c, storedPair h c ≠ none → ∃ e ∈ h, c ∈ ids e.label
  linked : ∀ r ∈ db.forgejoCredentials, r.status = .active → r.kind = .oauth →
    storedPair h r.id ≠ none
  holds : ∀ r ∈ db.forgejoCredentials, r.status = .active → ∀ pair,
    storedPair h r.id = some pair → HoldsPair server r pair

namespace Consistent

/-- An active OAuth credential holds the pair that was stored for it last. -/
theorem exists_pair {db : Db} (hc : Consistent server h db) {r : ForgejoCredential}
    (hr : r ∈ db.forgejoCredentials) (hactive : r.status = .active) (hkind : r.kind = .oauth) :
    ∃ pair, storedPair h r.id = some pair ∧ HoldsPair server r pair := by
  obtain ⟨pair, hpair⟩ := Option.ne_none_iff_exists'.1 (hc.linked r hr hactive hkind)
  exact ⟨pair, hpair, hc.holds r hr hactive pair hpair⟩

/-- A commit that revokes a credential, or leaves all of them alone. -/
theorem revoked (hc : Consistent server h (after base h)) {found : Option Uuid} {now : Time}
    (hdb : e.db.forgejoCredentials = ((after base h).revokeFound found now).forgejoCredentials)
    (hpair : e.label.pair? = none) : Consistent server (h ++ [e]) e.db := by
  have hmem : ∀ r ∈ e.db.forgejoCredentials, ∃ r' ∈ (after base h).forgejoCredentials,
      ForgejoCredential.revokeIf found now r' = r := fun r hr => mem_revokeFound.1 (hdb ▸ hr)
  have hsame : ∀ c, storedPair (h ++ [e]) c = storedPair h c := by
    intro c
    rw [storedPair_concat, Label.pairFor_of_none hpair, Option.none_or]
  refine ⟨fun r hr s hs v hrv hsv => ?_, fun r hr hst => ?_, fun r hr => ?_, fun c hc' => ?_,
    fun r hr hst hk => ?_, fun r hr hst pair hp => ?_⟩
  · obtain ⟨r', hr', rfl⟩ := hmem r hr
    obtain ⟨s', hs', rfl⟩ := hmem s hs
    obtain ⟨-, hr₁⟩ := active_revokeIf (ForgejoCredential.activeUser_eq_some.1 hrv).1
    obtain ⟨-, hs₁⟩ := active_revokeIf (ForgejoCredential.activeUser_eq_some.1 hsv).1
    rw [hr₁] at hrv ⊢
    rw [hs₁] at hsv ⊢
    exact hc.unique r' hr' s' hs' v hrv hsv
  · obtain ⟨r', hr', rfl⟩ := hmem r hr
    rw [ForgejoCredential.revokeIf] at hst ⊢
    split at hst
    · next hfound => rw [if_pos hfound]; exact ⟨rfl, rfl, rfl, rfl⟩
    · next hfound => rw [if_neg hfound]; exact hc.erased r' hr' hst
  · obtain ⟨r', hr', rfl⟩ := hmem r hr
    obtain ⟨e', he', hid⟩ := hc.saved r' hr'
    exact ⟨e', List.mem_append_left _ he', by rwa [id_revokeIf]⟩
  · rw [hsame] at hc'
    obtain ⟨e', he', hid⟩ := hc.stored c hc'
    exact ⟨e', List.mem_append_left _ he', hid⟩
  · obtain ⟨r', hr', rfl⟩ := hmem r hr
    obtain ⟨-, heq⟩ := active_revokeIf hst
    rw [heq] at hst hk ⊢
    rw [hsame]
    exact hc.linked r' hr' hst hk
  · obtain ⟨r', hr', rfl⟩ := hmem r hr
    obtain ⟨-, heq⟩ := active_revokeIf hst
    rw [heq] at hst hp ⊢
    exact hc.holds r' hr' hst pair (hsame _ ▸ hp)

/-- A commit that saves a credential. -/
theorem save (hc : Consistent server h (after base h)) {row : ForgejoCredential}
    {replaced : Option Uuid} {pair : Option ForgejoOAuthTokens} {readAt : ℕ} {now : Time}
    (hl : e.label = .credentialSaved row replaced pair readAt)
    (hdb : e.db.forgejoCredentials =
      ((after base h).revokeFound replaced now).forgejoCredentials.insert row)
    (hs : Saves server base h row replaced pair readAt) : Consistent server (h ++ [e]) e.db := by
  have hmem : ∀ r ∈ e.db.forgejoCredentials, r = row ∨ ∃ r' ∈ (after base h).forgejoCredentials,
      ForgejoCredential.revokeIf replaced now r' = r := by
    intro r hr
    rw [hdb] at hr
    exact (Table.mem_or_eq_of_mem_insert hr).symm.imp_right mem_revokeFound.1
  have hne : ∀ r ∈ (after base h).forgejoCredentials, r.id ≠ row.id := by
    intro r hr heq
    obtain ⟨e', he', hid⟩ := hc.saved r hr
    exact hs.fresh e' he' (heq ▸ hid)
  -- no other active credential of the user is left
  have alone : ∀ r ∈ (after base h).forgejoCredentials, ∀ v,
      (r.revokeIf replaced now).activeUser = some v → row.activeUser ≠ some v := by
    intro r hr v hv hrow
    obtain ⟨hactive, huser⟩ := ForgejoCredential.activeUser_eq_some.1 hv
    obtain ⟨hfound, heq⟩ := active_revokeIf hactive
    rw [heq] at hactive huser
    exact hfound (hs.only r hr (huser.trans (ForgejoCredential.activeUser_eq_some.1 hrow).2.symm)
      hactive)
  have hpairFor : ∀ c, e.label.pairFor c = if c = row.id then pair else none := by
    intro c
    cases pair with
    | none => rw [ite_self, Label.pairFor_of_none (by rw [hl]; rfl)]
    | some p => exact Label.pairFor_of_some (by rw [hl]; rfl) c
  have hold : ∀ r ∈ (after base h).forgejoCredentials,
      storedPair (h ++ [e]) r.id = storedPair h r.id := by
    intro r hr
    rw [storedPair_concat, hpairFor, if_neg (hne r hr), Option.none_or]
  have hrow : storedPair (h ++ [e]) row.id = pair := by
    rw [storedPair_concat, hpairFor, if_pos rfl, Option.or_eq_left_of_none]
    by_contra hno
    obtain ⟨e', he', hid⟩ := hc.stored row.id hno
    exact hs.fresh e' he' hid
  refine ⟨fun r hr s hmems v hrv hsv => ?_, fun r hr hst => ?_, fun r hr => ?_, fun c hc' => ?_,
    fun r hr hst hk => ?_, fun r hr hst p hp => ?_⟩
  · rcases hmem r hr with rfl | ⟨r', hr', rfl⟩
    · rcases hmem s hmems with rfl | ⟨s', hs', rfl⟩
      · rfl
      · exact absurd hrv (alone s' hs' v hsv)
    · rcases hmem s hmems with rfl | ⟨s', hs', rfl⟩
      · exact absurd hsv (alone r' hr' v hrv)
      · obtain ⟨-, hr₁⟩ := active_revokeIf (ForgejoCredential.activeUser_eq_some.1 hrv).1
        obtain ⟨-, hs₁⟩ := active_revokeIf (ForgejoCredential.activeUser_eq_some.1 hsv).1
        rw [hr₁] at hrv ⊢
        rw [hs₁] at hsv ⊢
        exact hc.unique r' hr' s' hs' v hrv hsv
  · rcases hmem r hr with rfl | ⟨r', hr', rfl⟩
    · exact absurd hs.active hst
    · rw [ForgejoCredential.revokeIf] at hst ⊢
      split at hst
      · next hfound => rw [if_pos hfound]; exact ⟨rfl, rfl, rfl, rfl⟩
      · next hfound => rw [if_neg hfound]; exact hc.erased r' hr' hst
  · rcases hmem r hr with rfl | ⟨r', hr', rfl⟩
    · refine ⟨e, List.mem_append_right _ (List.mem_singleton_self e), ?_⟩
      rw [hl]
      exact List.mem_singleton_self _
    · obtain ⟨e', he', hid⟩ := hc.saved r' hr'
      exact ⟨e', List.mem_append_left _ he', by rwa [id_revokeIf]⟩
  · rw [storedPair_concat, hpairFor] at hc'
    by_cases hcid : c = row.id
    · refine ⟨e, List.mem_append_right _ (List.mem_singleton_self e), ?_⟩
      rw [hl, hcid]
      exact List.mem_singleton_self _
    · rw [if_neg hcid, Option.none_or] at hc'
      obtain ⟨e', he', hid⟩ := hc.stored c hc'
      exact ⟨e', List.mem_append_left _ he', hid⟩
  · rcases hmem r hr with rfl | ⟨r', hr', rfl⟩
    · rw [hrow]
      exact Option.isSome_iff_ne_none.1 (hs.kind.1 hk)
    · obtain ⟨-, heq⟩ := active_revokeIf hst
      rw [heq] at hst hk ⊢
      rw [hold r' hr']
      exact hc.linked r' hr' hst hk
  · rcases hmem r hr with rfl | ⟨r', hr', rfl⟩
    · exact hs.holds p (hrow.symm.trans hp)
    · obtain ⟨-, heq⟩ := active_revokeIf hst
      rw [heq] at hst hp ⊢
      exact hc.holds r' hr' hst p (hold r' hr' ▸ hp)

/-- A commit that refreshes an active credential. -/
theorem refresh (hc : Consistent server h (after base h)) {id : Uuid} {pair : ForgejoOAuthTokens}
    {row : ForgejoCredential} {access refresh : Forgejo.EncryptedCredential} {expiresAt : Time}
    (hl : e.label = .credentialRefreshed id pair)
    (hdb : e.db.forgejoCredentials =
      ((after base h).storeTokens id access refresh expiresAt).forgejoCredentials)
    (hget : (after base h).forgejoCredentials.get id = some row) (hactive : row.status = .active)
    (haccess : Seals server (some access.ciphertext) (some access.nonce) pair.accessToken)
    (hrefresh : Seals server (some refresh.ciphertext) (some refresh.nonce) pair.refreshToken) :
    Consistent server (h ++ [e]) e.db := by
  have hmem : ∀ r ∈ e.db.forgejoCredentials, ∃ r' ∈ (after base h).forgejoCredentials,
      (r'.id = id ∧ r = (ForgejoCredential.storeTokens access refresh expiresAt).apply r') ∨
        r'.id ≠ id ∧ r = r' := by
    intro r hr
    rw [hdb] at hr
    obtain ⟨r', hr', rfl⟩ := Table.mem_update.1 hr
    refine ⟨r', hr', ?_⟩
    by_cases hid : r'.id = id
    · exact .inl ⟨hid, by rw [if_pos (decide_eq_true hid)]⟩
    · exact .inr ⟨hid, by rw [if_neg (by simpa using hid)]⟩
  have hrow : ∀ r ∈ (after base h).forgejoCredentials, r.id = id → r = row := fun r hr hid =>
    Table.eq_of_key_eq hr (Table.mem_of_get hget) (hid.trans (Table.key_of_get hget).symm)
  have hpair : ∀ c, e.label.pairFor c = if c = id then some pair else none :=
    Label.pairFor_of_some (by rw [hl]; rfl)
  refine ⟨fun r hr s hs v hrv hsv => ?_, fun r hr hst => ?_, fun r hr => ?_, fun c hc' => ?_,
    fun r hr hst hk => ?_, fun r hr hst p hp => ?_⟩
  · obtain ⟨r', hr', hr₁⟩ := hmem r hr
    obtain ⟨s', hs', hs₁⟩ := hmem s hs
    have hcolumn : ∀ {x x' : ForgejoCredential},
        (x'.id = id ∧ x = (ForgejoCredential.storeTokens access refresh expiresAt).apply x') ∨
          x'.id ≠ id ∧ x = x' → x.activeUser = x'.activeUser ∧ x.id = x'.id := by
      rintro x x' (⟨-, rfl⟩ | ⟨-, rfl⟩) <;> exact ⟨rfl, rfl⟩
    obtain rfl := hc.unique r' hr' s' hs' v ((hcolumn hr₁).1 ▸ hrv) ((hcolumn hs₁).1 ▸ hsv)
    exact Table.eq_of_key_eq hr hs ((hcolumn hr₁).2.trans (hcolumn hs₁).2.symm)
  · obtain ⟨r', hr', ⟨hid, rfl⟩ | ⟨-, rfl⟩⟩ := hmem r hr
    · exact absurd ((congrArg (·.status) (hrow r' hr' hid)).trans hactive) hst
    · exact hc.erased _ hr' hst
  · obtain ⟨r', hr', hr₁⟩ := hmem r hr
    obtain ⟨e', he', hid⟩ := hc.saved r' hr'
    refine ⟨e', List.mem_append_left _ he', ?_⟩
    obtain ⟨-, rfl⟩ | ⟨-, rfl⟩ := hr₁ <;> exact hid
  · rw [storedPair_concat, hpair] at hc'
    by_cases hcid : c = id
    · obtain ⟨e', he', hid⟩ := hc.saved row (Table.mem_of_get hget)
      rw [(Table.get_eq_some.1 hget).2, ← hcid] at hid
      exact ⟨e', List.mem_append_left _ he', hid⟩
    · rw [if_neg hcid, Option.none_or] at hc'
      obtain ⟨e', he', hid⟩ := hc.stored c hc'
      exact ⟨e', List.mem_append_left _ he', hid⟩
  · rw [storedPair_concat, hpair]
    obtain ⟨r', hr', ⟨hid, rfl⟩ | ⟨hid, rfl⟩⟩ := hmem r hr
    · have hid' : ((ForgejoCredential.storeTokens access refresh expiresAt).apply r').id = id := hid
      rw [if_pos hid', Option.some_or]
      exact Option.some_ne_none pair
    · rw [if_neg hid, Option.none_or]
      exact hc.linked _ hr' hst hk
  · rw [storedPair_concat, hpair] at hp
    obtain ⟨r', hr', ⟨hid, rfl⟩ | ⟨hid, rfl⟩⟩ := hmem r hr
    · have hid' : ((ForgejoCredential.storeTokens access refresh expiresAt).apply r').id = id := hid
      rw [if_pos hid', Option.some_or] at hp
      obtain rfl := Option.some.inj hp
      exact ⟨haccess, hrefresh⟩
    · rw [if_neg hid, Option.none_or] at hp
      exact hc.holds _ hr' hst p hp

end Consistent

theorem Start.consistent_of_valid (hs : Start base) (hv : Valid (Step server) base h) :
    Consistent server h (after base h) := by
  induction hv with
  | nil =>
    rw [after_nil]
    have hno : ∀ r, r ∉ base.forgejoCredentials := by
      rw [hs.forgejoCredentials]
      exact Table.not_mem_empty
    exact ⟨fun r hr => absurd hr (hno r), fun r hr => absurd hr (hno r),
      fun r hr => absurd hr (hno r), fun c hc => absurd rfl hc, fun r hr => absurd hr (hno r),
      fun r hr => absurd hr (hno r)⟩
  | @snoc h e hv hstep ih =>
    rw [after_concat]
    cases hstep.credentialChange with
    | same hdb hpair =>
      have hnone : e.db.forgejoCredentials =
          ((after base h).revokeFound none 0).forgejoCredentials := hdb
      exact ih.revoked hnone hpair
    | revoked found now hdb hpair _ => exact ih.revoked hdb hpair
    | saved row replaced pair readAt now hl hdb hsaves => exact ih.save hl hdb hsaves
    | refreshed id pair row access refresh expiresAt hl hdb hget hactive haccess hrefresh =>
      exact ih.refresh hl hdb hget hactive haccess hrefresh

/-! ### Linking requests in committed states -/

end ForgejoMcp.Credentials
