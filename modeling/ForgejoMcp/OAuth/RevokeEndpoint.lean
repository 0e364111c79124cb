import ForgejoMcp.OAuth.Retry
import ForgejoMcp.OAuth.Authentication
import ForgejoMcp.OAuth.DuplicateRefresh

/-!
# Access tokens of the OAuth flow, and the `/revoke` endpoint

The access token of a pair is found in two ways: by `authenticate`, which admits it to the server,
and by `load_access_token`, through which `/revoke` of `api/oauth.py` finds its family.
-/

namespace ForgejoMcp.OAuth

open Transactions Rows

/-! ### The endpoint -/

/-- `RevocationRequest`, with the fields that are read. -/
structure RevocationRequest where
  token : String
  tokenTypeHint : Option String

/-- A response of the endpoint. -/
structure RevokeResponse where
  statusCode : ℕ
  content : List (String × String)
  headers : List (String × String)
  deriving DecidableEq

/-- The kinds of tokens that can be revoked. -/
inductive StoredKind
  | accessToken
  | refreshToken
  deriving DecidableEq

/-- What `/revoke` reads of a stored token. -/
structure StoredToken where
  clientId : String
  familyId : Uuid
  clientRecordId : Uuid

/-- A hint changes the lookup order only. -/
def RevocationRequest.kinds (revocation : RevocationRequest) : List StoredKind :=
  if revocation.tokenTypeHint = some "refresh_token" then [.refreshToken, .accessToken]
  else [.accessToken, .refreshToken]

variable (d : Deployment)

/-- Loads a token of the kind. -/
def loadStored (clientId : Option String) (token : String) : StoredKind → P (Option StoredToken)
  | .accessToken => do
      let stored ← loadAccessToken d token
      return stored.map fun s => ⟨s.clientId, s.familyId, s.clientRecordId⟩
  | .refreshToken => do
      let stored ← loadRefreshToken d clientId token
      return stored.map fun s => ⟨s.clientId, s.familyId, s.clientRecordId⟩

/-- The loop over the kinds: the first token found is revoked if it is the client's. -/
def revokeFound (clientId : Option String) (token : String) : List StoredKind → P Unit
  | [] => return ()
  | kind :: kinds => do
      match ← loadStored d clientId token kind with
      | none => revokeFound clientId token kinds
      | some stored =>
        if some stored.clientId = clientId then revokeToken stored.familyId stored.clientRecordId
        else return ()

/-- `revoke`: `client` is the `client_id` of the authenticated client, or the message of the failed
authentication, and `revocation` the form, if it is valid. -/
def revoke (client : Except String (Option String)) (revocation : Option RevocationRequest) :
    P RevokeResponse :=
  match client with
  | .error message => return ⟨401, [("error", "unauthorized_client"), ("error_description", message)],
      [("Cache-Control", "no-store")]⟩
  | .ok clientId =>
    match revocation with
    | none => return ⟨400, [("error", "invalid_request"),
        ("error_description", "invalid revocation request")], [("Cache-Control", "no-store")]⟩
    | some revocation => do
        revokeFound d clientId revocation.token revocation.kinds
        return ⟨200, [], [("Cache-Control", "no-store"), ("Pragma", "no-cache")]⟩

/-! ### UsableRows access tokens -/

/-- The documented form of `secrets.token_urlsafe(32)`. -/
structure Urlsafe (text : String) : Prop where
  length : text.length = 43
  all : ∀ c ∈ text.toList, c.isAlphanum = true ∨ c = '_' ∨ c = '-'

/-- The rows of an access token that is usable at a time. -/
structure UsableRows (db : Db) (token : String) (now : Time) (row : McpToken) (expiresAt : Time)
    (link : OAuthAccessToken) (refresh : OAuthRefreshToken) (family : OAuthTokenFamily) : Prop where
  stored : row ∈ db.mcpTokens
  hash : row.tokenHash = d.hashToken token
  enabled : row.enabled = true
  unrevoked : row.revokedAt = none
  expires : row.expiresAt = some expiresAt
  unexpired : now < expiresAt
  linked : db.accessTokens.get row.id = some link
  linkUnrevoked : link.revokedAt = none
  resource : link.resource = d.oauthResourceUrl
  refreshed : db.refreshTokens.get link.refreshTokenId = some refresh
  refreshUnrevoked : refresh.revokedAt = none
  opened : db.tokenFamilies.get refresh.familyId = some family
  familyUnrevoked : family.revokedAt = none

variable {d} {g : Shared sorts} {token : String} {now : Time} {row : McpToken} {expiresAt : Time}
  {link : OAuthAccessToken} {refresh : OAuthRefreshToken} {family : OAuthTokenFamily}

theorem validMcpTokenFormat_newMcpToken {n : ℕ} (h : Urlsafe (d.tokenUrlsafe n)) :
    validMcpTokenFormat (d.newMcpToken n) = true := by
  have hlist : (d.newMcpToken n).toList = "fmcp_".toList ++ (d.tokenUrlsafe n).toList :=
    String.toList_append
  have hlength : (d.newMcpToken n).length = 48 := by
    have htext : (d.tokenUrlsafe n).toList.length = 43 := h.length
    rw [← String.length_toList, hlist, List.length_append, htext]
    rfl
  have hdrop : (d.newMcpToken n).toList.drop 5 = (d.tokenUrlsafe n).toList := by
    rw [hlist]
    rfl
  rw [validMcpTokenFormat, hdrop, hlength, startsWith, hlist]
  simp only [decide_true, Bool.and_true, Bool.and_eq_true, List.all_eq_true]
  refine ⟨List.isPrefixOf_iff_prefix.2 (List.prefix_append _ _), fun c hc => ?_⟩
  simpa [or_assoc] using h.all c hc

namespace UsableRows

/-- A usable access token comes from an issued pair. -/
theorem issued (hi : (serial d).Inv g) (hu : UsableRows d g.current token now row expiresAt link refresh
    family) : row.kind = .oauth ∧ ∃ i, Issued g.history i ∧ token = d.newMcpToken i.accessSecret ∧
      row.core = (i.accessRecord d).core ∧ row.id = i.accessId ∧ refresh.familyId = i.familyId ∧
      link.clientId = i.clientRecord.id := by
  obtain ⟨r, hr, hm⟩ := (current_linked hi).refresh _ _ hu.linked
  rw [hu.refreshed, Option.some.injEq] at hr
  subst hr
  obtain ⟨m, stored, hm', hstored, hkind, -⟩ := (current_linked hi).token _ _ hu.refreshed
  rw [hm, Option.some.injEq] at hm'
  subst hm'
  rw [Table.get_of_mem hu.stored, Option.some.injEq] at hstored
  subst hstored
  obtain ⟨i, hissued, hid, hcore⟩ := (current_origins hi).oauth _ _ (Table.get_of_mem hu.stored) hkind
  obtain ⟨l, hl, -, hclient, -⟩ := (current_linked hi).link _ _ _ hu.refreshed hm
  rw [hu.linked, Option.some.injEq] at hl
  subst hl
  refine ⟨hkind, i, hissued, ?_, hcore, hid.symm, ?_, ?_⟩
  · refine d.sha256_injective ?_
    exact hu.hash.symm.trans (congrArg McpToken.tokenHash hcore :)
  · have hlink : (g.stateAt g.history.length).accessTokens.get i.accessId = some link := by
      rw [stateAt_length, hid]
      exact hu.linked
    have hrefresh : (g.stateAt g.history.length).refreshTokens.get link.refreshTokenId =
        some refresh := by
      rw [stateAt_length]
      exact hu.refreshed
    exact family_of_link hi hissued (Nat.le_refl _) (Nat.le_refl _) hlink hrefresh
  · obtain ⟨j, hj, -, hjcore⟩ := (current_origins hi).refresh _ _ hu.refreshed
    have haccess : refresh.mcpTokenId = some j.accessId :=
      (congrArg OAuthRefreshToken.mcpTokenId hjcore :)
    rw [hm, Option.some.injEq] at haccess
    obtain rfl : i = j := hissued.unique hi.valid hj (n := i.accessId) (by simp [Issue.numbers])
      (by simp [Issue.numbers, hid, haccess])
    exact hclient.trans (congrArg OAuthRefreshToken.clientId hjcore :)

/-- The row of a usable access token is the only one with its hash. -/
theorem unique (hi : (serial d).Inv g) (hu : UsableRows d g.current token now row expiresAt link refresh
    family) {other : McpToken} (hother : other ∈ g.current.mcpTokens)
    (hhash : other.tokenHash = d.hashToken token) : other = row := by
  refine Table.eq_of_key_eq hother hu.stored (Eq.symm ?_)
  exact (current_origins hi).oauth_unique hi.valid (Table.get_of_mem hu.stored) (hu.issued hi).1
    (Table.get_of_mem hother) (hu.hash.trans hhash.symm)

theorem nodup_rows {κ ρ : Type} {key : ρ → κ} (t : Table κ ρ key) : t.rows.Nodup :=
  t.nodup.of_map _

end UsableRows

/-- In a list without duplicates, what only one element satisfies. -/
theorem filter_eq_singleton {ρ : Type} {rows : List ρ} {p : ρ → Bool} {r : ρ} (hnodup : rows.Nodup)
    (hmem : r ∈ rows) (hp : p r = true) (hunique : ∀ s ∈ rows, p s = true → s = r) :
    rows.filter p = [r] := by
  have hall : ∀ s ∈ rows.filter p, s = r := fun s hs =>
    hunique s (List.mem_filter.1 hs).1 (List.mem_filter.1 hs).2
  have hr : r ∈ rows.filter p := List.mem_filter.2 ⟨hmem, hp⟩
  have hlength := List.nodup_replicate.1
    (List.eq_replicate_of_mem hall ▸ hnodup.filter p : (List.replicate _ r).Nodup)
  rw [List.eq_replicate_of_mem hall, Nat.le_antisymm hlength (List.length_pos_of_mem hr)]
  rfl

/-! ### Loading an access token -/

variable {t : ℕ} {plaintext : String}

/-- The client of a usable access token is stored, with the `client_id` it had at the issue. -/
theorem UsableRows.client (hi : (serial d).Inv g) (hu : UsableRows d g.current token now row expiresAt
    link refresh family) : ∃ i client, Issued g.history i ∧ token = d.newMcpToken i.accessSecret ∧
      refresh.familyId = i.familyId ∧ g.current.oauthClients.get link.clientId = some client ∧
      client.clientId = i.clientRecord.clientId := by
  obtain ⟨-, i, hissued, htoken, -, -, hfamily, hclient⟩ := hu.issued hi
  obtain ⟨n, hn, hget⟩ := hissued.registered hi.valid
  obtain ⟨client, hstored, hlater⟩ := stateAt_clients hi hn _ _ hget
  rw [stateAt_length] at hstored
  exact ⟨i, client, hissued, htoken, hfamily, hclient ▸ hstored, hlater⟩

theorem loadAccessToken_of_usable (hi : (serial d).Inv g)
    (hu : UsableRows d g.current token g.clock row expiresAt link refresh family) :
    ∃ client, g.current.oauthClients.get link.clientId = some client ∧
      Returns t () (fun r l g' => l = {} ∧ g'.current = g.current ∧ r = some ⟨client.clientId,
        refresh.scopes, timestamp expiresAt, link.resource, row.userId, row.id, client.id, refresh.id,
        refresh.familyId⟩) (loadAccessToken d token) {} g := by
  obtain ⟨i, client, -, htoken, -, hclient, -⟩ := hu.client hi
  refine ⟨client, hclient, ?_⟩
  have hstart : ¬ startsWith token "fmcp_" = false := by
    rw [htoken, startsWith, Deployment.newMcpToken, String.toList_append, Bool.not_eq_false]
    exact List.isPrefixOf_iff_prefix.2 (List.prefix_append _ _)
  have hselect : g.current.mcpTokens.select (fun r => decide (r.tokenHash = d.hashToken token)) =
      [row] :=
    filter_eq_singleton (UsableRows.nodup_rows _) hu.stored (decide_eq_true hu.hash)
      fun s hs hp => hu.unique hi hs (of_decide_eq_true hp)
  unfold loadAccessToken
  rw [if_neg hstart]
  refine Returns.withSession (Returns.read (x := [row]) hselect (Returns.now ?_))
  dsimp only [List.head?_cons]
  rw [hu.expires]
  dsimp only
  rw [if_neg (by simp [hu.enabled, hu.unrevoked, hu.unexpired])]
  refine Returns.read hu.linked ?_
  dsimp only
  rw [if_neg (by simp [hu.linkUnrevoked, hu.resource])]
  refine Returns.read hu.refreshed (Returns.read hclient ?_)
  refine Returns.read hu.opened ?_
  dsimp only
  rw [if_neg (by simp [hu.refreshUnrevoked, hu.familyUnrevoked])]
  exact ⟨rfl, rfl, rfl⟩

/-- A usable access token of the state. -/
def IsUsable (d : Deployment) (db : Db) (token : String) (now : Time) : Prop :=
  ∃ row expiresAt link refresh family, UsableRows d db token now row expiresAt link refresh family

theorem loadAccessToken_of_not_usable (hno : ¬ IsUsable d g.current token g.clock) :
    Returns t () (fun r _ _ => r = none) (loadAccessToken d token) {} g := by
  unfold loadAccessToken
  split
  · exact rfl
  refine Returns.withSession (Returns.query (Returns.now ?_))
  split
  · exact rfl
  rename_i row hrow
  obtain ⟨hmem, hhash⟩ := Table.mem_select.1 (List.mem_of_mem_head? hrow)
  split
  · exact rfl
  rename_i expiresAt hexpires
  split
  · exact rfl
  rename_i hactive
  rw [not_or, not_or, not_not, Bool.not_eq_false, not_le] at hactive
  refine Returns.query ?_
  split
  · exact rfl
  rename_i link hlink
  split
  · exact rfl
  rename_i hopen
  rw [not_or, not_not, not_not] at hopen
  refine Returns.query (Returns.query ?_)
  split
  · exact rfl
  rename_i refresh hrefresh
  refine Returns.query ?_
  split
  · exact rfl
  split
  · exact rfl
  rename_i hunrevoked
  rw [not_or, not_not] at hunrevoked
  obtain ⟨family, hfamily, hfree⟩ : ∃ family, g.current.tokenFamilies.get refresh.familyId =
      some family ∧ family.revokedAt = none := by
    by_contra hnone
    refine hunrevoked.2 (Option.all_eq_true _ _ |>.2 fun family hfamily => ?_)
    exact decide_eq_true fun hrev => hnone ⟨family, hfamily, hrev⟩
  exact absurd ⟨row, expiresAt, link, refresh, family, hmem, of_decide_eq_true hhash, hactive.1,
    hactive.2.1, hexpires, hactive.2.2, hlink, hopen.1, hopen.2, hrefresh, hunrevoked.1, hfamily,
    hfree⟩ hno

/-! ### Authenticating an access token -/

variable {issuer : String}

/-- The owner of a token is active. -/
def Db.OwnerActive (db : Db) (userId : Uuid) : Prop :=
  ∃ user, db.users.get userId = some user ∧ user.status = .active

theorem authenticate_of_usable (hi : (serial d).Inv g) (hformat : validMcpTokenFormat token = true)
    (hu : UsableRows d g.current token g.clock row expiresAt link refresh family)
    (hactive : g.current.OwnerActive row.userId) :
    Returns t () (fun r _ _ => r = some ⟨row.id, row.userId, row.expiresAt, refresh.scopes,
        some link.resource, some issuer, some refresh.familyId⟩)
      (authenticate d token (some d.oauthResourceUrl) (some issuer)) {} g := by
  obtain ⟨hkind, i, -, htoken, hcore, -⟩ := hu.issued hi
  obtain ⟨user, huser, hstatus⟩ := hactive
  have hpre : row.tokenPrefix = mcpTokenPrefix token :=
    (congrArg McpToken.tokenPrefix hcore :).trans (htoken ▸ rfl)
  have hselect : ((mcpTokens.get (({} : Session sorts).view g.current)).select fun r =>
      decide (r.tokenPrefix = mcpTokenPrefix token)).filter
        (fun r => decide (r.tokenHash = d.hashToken token)) = [row] := by
    refine filter_eq_singleton ((UsableRows.nodup_rows _).filter _) ?_ (decide_eq_true hu.hash) ?_
    · exact Table.mem_select.2 ⟨hu.stored, decide_eq_true hpre⟩
    · exact fun s hs hp => hu.unique hi (Table.mem_select.1 hs).1 (of_decide_eq_true hp)
  unfold authenticate
  rw [if_neg (by rw [hformat]; exact Bool.noConfusion)]
  refine Returns.withSession (Returns.query ?_)
  rw [hselect]
  refine Returns.read huser (Returns.now ?_)
  rw [if_neg (by simp [active, hu.enabled, hu.unrevoked, hstatus, hu.expires, hu.unexpired])]
  refine Returns.read hu.linked ?_
  rw [hkind]
  simp only [oauthContext, Prog.bind_eq]
  rw [if_neg (by simp [hu.linkUnrevoked, hu.resource])]
  simp only [Prog.bind_assoc]
  refine Returns.read hu.refreshed ?_
  dsimp only
  rw [if_neg (not_not.2 hu.refreshUnrevoked)]
  simp only [Prog.bind_assoc]
  refine Returns.read hu.opened ?_
  dsimp only
  rw [if_neg (not_not.2 hu.familyUnrevoked)]
  simp only [acceptToken, Prog.pure_eq, Prog.bind_eq, Prog.ret_bind]
  refine Returns.update fun ks hks => ?_
  have hmem : row.id ∈ ks := by
    rw [hks]
    exact List.mem_map_of_mem (Table.mem_select.2 ⟨hu.stored,
      decide_eq_true ⟨rfl, hu.enabled, hu.unrevoked⟩⟩)
  obtain ⟨k, rest, rfl⟩ := List.exists_cons_of_ne_nil (List.ne_nil_of_mem hmem)
  exact Returns.commit (congrArg some (by rw [Table.key_of_get hu.opened]))

/-- A token that is accepted without an OAuth context has no family. -/
theorem acceptToken_static {l : Session sorts} :
    Returns t () (fun r _ _ => ∀ a, r = some a → a.familyId = none)
      (acceptToken row now none (some issuer)) l g := by
  unfold acceptToken
  refine Returns.update fun ks _ => ?_
  split
  · rintro a ⟨⟩
  · refine Returns.commit ?_
    rintro a ⟨⟩
    rfl

/-- What `authenticate` accepts as a token of the OAuth flow is a usable access token of an active
owner. -/
theorem authenticate_of_not_usable (hi : (serial d).Inv g)
    (hno : ¬ ∃ row expiresAt link refresh family,
      UsableRows d g.current token g.clock row expiresAt link refresh family ∧
        g.current.OwnerActive row.userId) :
    Returns t () (fun r _ _ => ∀ a, r = some a → a.familyId = none)
      (authenticate d token (some d.oauthResourceUrl) (some issuer)) {} g := by
  unfold authenticate
  split
  · rintro a ⟨⟩
  refine Returns.withSession (Returns.query ?_)
  split
  case h_2 => rintro a ⟨⟩
  rename_i row hrow
  obtain ⟨hmem, hhash⟩ := List.mem_filter.1 (hrow ▸ List.mem_singleton_self row :
    row ∈ List.filter _ _)
  refine Returns.query (Returns.now ?_)
  split
  · rintro a ⟨⟩
  rename_i hactive
  refine Returns.query ?_
  cases hkind : row.kind with
  | other kind => rintro a ⟨⟩
  | static =>
    dsimp only
    split
    · exact acceptToken_static
    · rintro a ⟨⟩
  | oauth =>
    have hrefused : ∀ l g', Returns t () (fun r _ _ => ∀ a, r = some a → a.familyId = none)
        (.ret none : P (Option AuthenticatedMcpToken)) l g' := by
      rintro l g' a ⟨⟩
    obtain ⟨i, -, -, hcore⟩ := (current_origins hi).oauth _ _
      (Table.get_of_mem (Table.mem_select.1 hmem).1) hkind
    have hexpires : row.expiresAt = some (i.accessExpiresAt d) :=
      (congrArg McpToken.expiresAt hcore :)
    obtain ⟨⟨⟨henabled, hunrevoked⟩, hstatus⟩, hunexpired⟩ :
        ((row.enabled = true ∧ row.revokedAt = none) ∧ g.current.OwnerActive row.userId) ∧
          g.clock < i.accessExpiresAt d := by
      rw [Bool.not_eq_false, active, hexpires] at hactive
      simp only [Bool.and_eq_true, Option.isNone_iff_eq_none, Option.any_eq_true, Option.all_some,
        decide_eq_true_iff] at hactive
      exact hactive
    simp only [oauthContext, Prog.bind_eq]
    split
    · exact hrefused _ _
    rename_i link hlink
    split
    · exact hrefused _ _
    rename_i hopen
    rw [not_or, not_or, not_or, not_not, not_not, Option.some.injEq] at hopen
    simp only [Prog.bind_assoc]
    refine Returns.query ?_
    split
    · exact hrefused _ _
    rename_i refresh hrefresh
    split
    · exact hrefused _ _
    rename_i hrefreshed
    simp only [Prog.bind_assoc]
    refine Returns.query ?_
    split
    · exact hrefused _ _
    rename_i family hfamily
    split
    · exact hrefused _ _
    rename_i hfamilyUnrevoked
    exact absurd ⟨row, _, link, refresh, family, ⟨(Table.mem_select.1 hmem).1,
      of_decide_eq_true hhash, henabled, hunrevoked, hexpires, hunexpired, hlink, hopen.2.2.1,
      hopen.2.2.2, hrefresh, not_not.1 hrefreshed, hfamily, not_not.1 hfamilyUnrevoked⟩, hstatus⟩ hno

/-! ### Revoking a token -/

/-- A committed session whose pending writes revoke a family. -/
theorem revoked_of_view {l : Session sorts} {f : Uuid} {time : Time} {label : Label}
    (hview : (l.view g.current).tokenFamilies = (g.current.tokenFamilies.update
      (fun r => decide (r.id = f)) ⟨fun r => { r with revokedAt := some time }, fun _ => rfl⟩))
    (hfamily : g.current.tokenFamilies.get f = some family) :
    ∃ family, (Spec.commitState t label l g).current.tokenFamilies.get f = some family ∧
      family.revokedAt ≠ none := by
  have hcurrent : (Spec.commitState t label l g).current = l.view g.current := after_concat _ _ _
  refine ⟨{ family with revokedAt := some time }, ?_, Option.some_ne_none time⟩
  rw [hcurrent, hview, Table.get_update, hfamily, Option.map_some, if_pos]
  exact decide_eq_true (Table.key_of_get hfamily)

/-- `revoke_token`, run alone, revokes a stored family. -/
theorem revokeToken_returns {clientRecordId : Uuid} {f : Uuid}
    (hfamily : g.current.tokenFamilies.get f = some family) :
    Returns t () (fun _ _ (g' : Shared sorts) => ∃ family,
      g'.current.tokenFamilies.get f = some family ∧ family.revokedAt ≠ none)
      (revokeToken f clientRecordId) {} g := by
  unfold revokeToken
  refine Returns.now (Returns.withSession ?_)
  simp only [revokeOauthFamily, lockOauthFamily, Prog.bind_eq, Prog.bind_assoc]
  refine Returns.selectForUpdate (r := family) ((Table.head?_select_key _ _).trans hfamily) ?_
  refine Returns.require rfl (Returns.updateKey (Returns.query (Returns.update fun ks _ => ?_)))
  split
  · exact Returns.exec (Returns.commit (revoked_of_view rfl hfamily))
  · simp only [Prog.bind_assoc]
    refine Returns.update fun ks' _ => Returns.update fun ks'' _ => ?_
    exact Returns.exec (Returns.commit (revoked_of_view rfl hfamily))

theorem Issued.drawn (hi : (serial d).Inv g) {i : Issue} (hissued : Issued g.history i) {n : ℕ}
    (hn : n ∈ i.numbers) : n < g.drawn.length := by
  obtain ⟨e, he, hl⟩ := hissued
  exact (List.getElem?_eq_some_iff.1 (hi.drawnIds e he n (mem_ids_of_issue? hl hn))).1

/-- A text with the format of an access token is no stored refresh token. -/
theorem loadRefreshToken_returns (hi : (serial d).Inv g)
    (hrandom : ∀ n < g.drawn.length, Urlsafe (d.tokenUrlsafe n))
    (hformat : validMcpTokenFormat token = true) (clientId : Option String) :
    Returns t () (fun r l g' => l = {} ∧ g' = g ∧ r = none) (loadRefreshToken d clientId token) {}
      g := by
  have hselect : (refreshTokens.get (({} : Session sorts).view g.current)).select
      (fun r => decide (r.tokenHash = d.hashToken token)) = [] := by
    rw [List.eq_nil_iff_forall_not_mem]
    intro r hr
    obtain ⟨hmem, hhash⟩ := Table.mem_select.1 hr
    obtain ⟨i, hissued, -, hcore⟩ := (current_origins hi).refresh _ _ (Table.get_of_mem hmem)
    have htoken : token = d.newOauthRefreshToken i.refreshSecret :=
      d.sha256_injective ((of_decide_eq_true hhash).symm.trans
        (congrArg OAuthRefreshToken.tokenHash hcore :))
    -- an access token has 48 characters, a refresh token 51
    have htext : (d.tokenUrlsafe i.refreshSecret).toList.length = 43 :=
      (hrandom _ (hissued.drawn hi (by simp [Issue.numbers]))).length
    have hlength : token.toList.length = 51 := by
      rw [htoken, Deployment.newOauthRefreshToken, String.toList_append, List.length_append, htext]
      rfl
    rw [validMcpTokenFormat, Bool.and_eq_true, Bool.and_eq_true] at hformat
    have hshort := of_decide_eq_true hformat.1.2
    rw [String.length_toList] at hlength
    omega
  unfold loadRefreshToken
  split
  · exact ⟨rfl, rfl, rfl⟩
  refine Returns.withSession (Returns.read (x := []) hselect ?_)
  exact ⟨rfl, rfl, rfl⟩

/-- The loop, which finds a usable access token first. -/
theorem revokeFound_returns (hi : (serial d).Inv g)
    (hu : UsableRows d g.current token g.clock row expiresAt link refresh family)
    (clientId : Option String) (kinds : List StoredKind) :
    ∃ client, g.current.oauthClients.get link.clientId = some client ∧
      Returns t () (fun _ _ (g' : Shared sorts) => (∃ family,
        g'.current.tokenFamilies.get refresh.familyId = some family ∧ family.revokedAt ≠ none) ↔
          some client.clientId = clientId)
        (revokeFound d clientId token (.accessToken :: kinds)) {} g := by
  obtain ⟨client, hclient, hload⟩ := loadAccessToken_of_usable (t := t) hi hu
  refine ⟨client, hclient, ?_⟩
  simp only [revokeFound, loadStored, Prog.bind_eq, Prog.bind_assoc]
  refine Returns.bind (hload.mono ?_)
  rintro r l g' ⟨rfl, hcurrent, rfl⟩
  simp only [Prog.pure_eq, Prog.ret_bind, Option.map_some]
  split
  · rename_i heq
    exact (revokeToken_returns (hcurrent ▸ hu.opened)).mono fun _ _ _ hrev => ⟨fun _ => heq,
      fun _ => hrev⟩
  · rename_i hne
    refine ⟨?_, fun heq => absurd heq hne⟩
    rintro ⟨other, hother, hrev⟩
    rw [hcurrent, hu.opened, Option.some.injEq] at hother
    exact absurd (hother ▸ hu.familyUnrevoked) hrev

/-- The loop, after refresh tokens were searched in vain. -/
theorem revokeFound_refreshToken {Q : Unit → Session sorts → Shared sorts → Prop}
    {clientId : Option String} {kinds : List StoredKind}
    (hnone : Returns t () (fun r l g' => l = {} ∧ g' = g ∧ r = none)
      (loadRefreshToken d clientId token) {} g)
    (h : Returns t () Q (revokeFound d clientId token kinds) {} g) :
    Returns t () Q (revokeFound d clientId token (.refreshToken :: kinds)) {} g := by
  rw [revokeFound, loadStored]
  simp only [Prog.bind_eq, Prog.bind_assoc]
  refine Returns.bind (hnone.mono ?_)
  rintro r l g' ⟨rfl, rfl, rfl⟩
  exact h

theorem revoke_returns (hi : (serial d).Inv g)
    (hrandom : ∀ n < g.drawn.length, Urlsafe (d.tokenUrlsafe n))
    (hformat : validMcpTokenFormat token = true)
    (hu : UsableRows d g.current token g.clock row expiresAt link refresh family)
    (clientId hint : Option String) :
    ∃ client, g.current.oauthClients.get link.clientId = some client ∧
      Returns t () (fun response _ (g' : Shared sorts) => response.statusCode = 200 ∧ ((∃ family,
        g'.current.tokenFamilies.get refresh.familyId = some family ∧ family.revokedAt ≠ none) ↔
          some client.clientId = clientId))
        (revoke d (.ok clientId) (some ⟨token, hint⟩)) {} g := by
  obtain ⟨client, hclient, hfound⟩ := revokeFound_returns (t := t) hi hu clientId [.refreshToken]
  obtain ⟨client', hclient', hlast⟩ := revokeFound_returns (t := t) hi hu clientId []
  obtain rfl : client = client' := Option.some.inj (hclient.symm.trans hclient')
  refine ⟨client, hclient, Returns.bind ?_⟩
  simp only [RevocationRequest.kinds]
  split
  · -- the refresh tokens are searched first, in vain
    exact revokeFound_refreshToken (loadRefreshToken_returns hi hrandom hformat clientId)
      (hlast.mono fun _ _ _ h => ⟨rfl, h⟩)
  · exact hfound.mono fun _ _ _ h => ⟨rfl, h⟩

/-! ### The theorem -/

variable {c : Config sorts Call Failure Result} {α : Type}

/-- The program, run alone at a time on the committed state of a configuration, returns a result
with the property. -/
def Alone (c : Config sorts Call Failure Result) (time : Time) (p : P α)
    (Q : α → Shared sorts → Prop) : Prop :=
  Returns c.threads.length () (fun r _ g => Q r g) p {} { c.shared with clock := time }

instance (time : Time) (p : P α) (Q : α → Shared sorts → Prop) [∀ a g, Decidable (Q a g)] :
    Decidable (Alone c time p Q) :=
  inferInstanceAs (Decidable (Returns _ _ _ _ _ _))

/-- The two ways to find an access token agree.  In every reachable state, at every time, a text is
accepted as a token of the OAuth flow if and only if it is loaded as an access token and its owner is
active.  Such a token comes from an issued pair, and a `/revoke` request that carries it, with
whatever hint, revokes the family of the pair if and only if it is a request of the client the pair
was issued to.  The random text drawn so far has the form of `secrets.token_urlsafe(32)`. -/
theorem access_paths_agree (hc : Reachable d c)
    (hrandom : ∀ n < c.shared.drawn.length, Urlsafe (d.tokenUrlsafe n)) (token issuer : String)
    (time : Time) :
    (Alone c time (authenticate d token (some d.oauthResourceUrl) (some issuer))
        (fun r _ => ∃ a, r = some a ∧ a.familyId ≠ none) ↔
      Alone c time (loadAccessToken d token)
        (fun r _ => ∃ s, r = some s ∧ c.shared.current.OwnerActive s.userId)) ∧
    ∀ a f, a.familyId = some f →
      Alone c time (authenticate d token (some d.oauthResourceUrl) (some issuer))
        (fun r _ => r = some a) →
      ∃ i, Issued c.shared.history i ∧ token = d.newMcpToken i.accessSecret ∧ i.familyId = f ∧
        ∀ hint clientId, Alone c time (revoke d (.ok clientId) (some ⟨token, hint⟩))
          fun response g => response.statusCode = 200 ∧
            ((∃ family, g.current.tokenFamilies.get f = some family ∧ family.revokedAt ≠ none) ↔
              clientId = some i.clientRecord.clientId) := by
  have hi : (serial d).Inv { c.shared with clock := time } := by
    obtain ⟨hstart, hvalid, hbase, hids, hside⟩ := reachable_inv hc
    exact ⟨hstart, hvalid, hbase, hids, hside⟩
  have format : ∀ {row expiresAt link refresh family}, UsableRows d c.shared.current token time row
      expiresAt link refresh family → validMcpTokenFormat token = true := by
    intro row expiresAt link refresh family hu
    obtain ⟨-, i, hissued, htoken, -⟩ := hu.issued hi
    rw [htoken]
    exact validMcpTokenFormat_newMcpToken (hrandom _ (hissued.drawn hi (by simp [Issue.numbers])))
  have usable : ∀ {Q : Option AuthenticatedMcpToken → Prop}, (∀ r, Q r → ∃ a, r = some a ∧
      a.familyId ≠ none) → Alone c time (authenticate d token (some d.oauthResourceUrl)
        (some issuer)) (fun r _ => Q r) → ∃ row expiresAt link refresh family,
      UsableRows d c.shared.current token time row expiresAt link refresh family ∧
        c.shared.current.OwnerActive row.userId := by
    intro Q hQ hauth
    by_contra hno
    refine Returns.holds ((Returns.and hauth (authenticate_of_not_usable hi hno)).mono ?_)
    rintro r - - ⟨hr, hstatic⟩
    obtain ⟨a, rfl, hfamily⟩ := hQ r hr
    exact hfamily (hstatic a rfl)
  refine ⟨⟨fun hauth => ?_, fun hload => ?_⟩, fun a f hf hauth => ?_⟩
  · obtain ⟨row, expiresAt, link, refresh, family, hu, hactive⟩ := usable (fun _ h => h) hauth
    obtain ⟨client, -, hload⟩ := loadAccessToken_of_usable (t := c.threads.length) hi hu
    refine hload.mono ?_
    rintro r - - ⟨-, -, hr⟩
    exact ⟨_, hr, hactive⟩
  · obtain ⟨row, expiresAt, link, refresh, family, hu⟩ : IsUsable d c.shared.current token time := by
      by_contra hno
      refine Returns.holds ((Returns.and hload (loadAccessToken_of_not_usable hno)).mono ?_)
      rintro r - - ⟨⟨s, hr, -⟩, hnone⟩
      exact Option.some_ne_none s (hr.symm.trans hnone)
    obtain ⟨client, -, hload'⟩ := loadAccessToken_of_usable (t := c.threads.length) hi hu
    have hactive : c.shared.current.OwnerActive row.userId := by
      refine Returns.holds ((Returns.and hload hload').mono ?_)
      rintro r - - ⟨⟨s, hr, hactive⟩, -, -, hr'⟩
      obtain rfl := Option.some.inj (hr.symm.trans hr')
      exact hactive
    exact (authenticate_of_usable hi (format hu) hu hactive).mono fun r _ _ hr =>
      ⟨_, hr, Option.some_ne_none _⟩
  · obtain ⟨row, expiresAt, link, refresh, family, hu, hactive⟩ :=
      usable (Q := fun r => r = some a) (fun r hr => ⟨a, hr, hf ▸ Option.some_ne_none f⟩) hauth
    have hfamily : refresh.familyId = f := by
      refine Returns.holds ((Returns.and hauth
        (authenticate_of_usable hi (format hu) hu hactive)).mono ?_)
      rintro r - - ⟨hr, hr'⟩
      obtain rfl := Option.some.inj (hr.symm.trans hr')
      exact Option.some.inj hf
    obtain ⟨i, client, hissued, htoken, hif, hclient, hid⟩ := hu.client hi
    refine ⟨i, hissued, htoken, hif.symm.trans hfamily, fun hint clientId => ?_⟩
    obtain ⟨client', hclient', hrevoke⟩ :=
      revoke_returns (t := c.threads.length) hi hrandom (format hu) hu clientId hint
    obtain rfl : client = client' := Option.some.inj (hclient.symm.trans hclient')
    refine hrevoke.mono ?_
    rintro response - g' ⟨hstatus, hiff⟩
    refine ⟨hstatus, ?_⟩
    rw [← hfamily, hiff, hid, eq_comm]

theorem urlsafe_bearerDeployment {n : ℕ} (hn : n ≤ 43) :
    Urlsafe (bearerDeployment.tokenUrlsafe n) where
  length := by
    simp only [bearerDeployment, String.length_ofList, List.length_append, List.length_replicate]
    omega
  all := fun c hc => by
    simp only [bearerDeployment, String.toList_ofList, List.mem_append, List.mem_replicate] at hc
    rcases hc with ⟨-, rfl⟩ | ⟨-, rfl⟩ <;> decide

theorem access_paths_agree_sample :
    (Alone bearerRun 0 (loadAccessToken bearerDeployment (bearerDeployment.newMcpToken 3))
      fun r _ => ∃ s, r = some s ∧ bearerRun.shared.current.OwnerActive s.userId) ∧
    ∃ i, Issued bearerRun.shared.history i ∧
      Alone bearerRun 0 (revoke bearerDeployment (.ok (some i.clientRecord.clientId))
        (some ⟨bearerDeployment.newMcpToken 3, some "refresh_token"⟩))
        fun _ g => ∃ family, g.current.tokenFamilies.get 2 = some family ∧
          family.revokedAt ≠ none := by
  have hauth : Alone bearerRun 0 (authenticate bearerDeployment (bearerDeployment.newMcpToken 3)
      (some bearerDeployment.oauthResourceUrl) (some "https://mcp.example")) fun r _ =>
        r = some ⟨5, 0, some (seconds 3600), ["mcp"], some "https://mcp.example/mcp",
          some "https://mcp.example", some 2⟩ := by
    decide +kernel
  have hdrawn : bearerRun.shared.drawn.length ≤ 43 := by decide +kernel
  obtain ⟨hagree, hrevoke⟩ := access_paths_agree bearerRun_reachable
    (fun n hn => urlsafe_bearerDeployment (hn.le.trans hdrawn)) (bearerDeployment.newMcpToken 3)
    "https://mcp.example" 0
  refine ⟨hagree.1 (hauth.mono fun r _ _ hr => ⟨_, hr, Option.some_ne_none _⟩), ?_⟩
  obtain ⟨i, hissued, -, -, hrequests⟩ := hrevoke _ 2 rfl hauth
  refine ⟨i, hissued, (hrequests (some "refresh_token") _).mono ?_⟩
  exact fun _ _ _ ⟨_, hiff⟩ => hiff.2 rfl

end ForgejoMcp.OAuth
