import ForgejoMcp.OAuth.FamilyRevocation
import ForgejoMcp.OAuth.Grants
import ForgejoMcp.Transactions.Alone

/-!
# Calls that can succeed

The conditions under which an approval and a code exchange return when they run alone.
-/

namespace ForgejoMcp.OAuth

open Transactions Rows

variable {d : Deployment} {g : Shared sorts} {t : ℕ} {l : Session sorts} {α : Type}

/-- The user is active and has an active credential. -/
structure Authorizable (db : Db) (userId : Uuid) : Prop where
  user : ∃ user, db.users.get userId = some user ∧ user.status = .active
  credential : ∃ r ∈ db.forgejoCredentials, r.userId = userId ∧ r.status = .active ∧
    r.revokedAt = none

/-- An approval meets every condition on the latest state: the request `record` of the interaction is
pending, the account of the user `userId` may answer, the lifetime is offered, and the user may use
the selected tools. -/
structure Approvable (d : Deployment) (g : Shared sorts) (interaction : String) (accountId : Uuid)
    (grantTtlDays : Option ℕ) (toolNames : List String) (record : OAuthAuthorizationRequest)
    (userId : Uuid) : Prop where
  format : validInteractionFormat interaction = true
  found : (g.current.authorizationRequests.select fun r =>
    decide (r.requestTokenHash = d.hashToken interaction)).head? = some record
  pending : pendingRequest record g.clock = true
  account : ∃ account, consentAccount (g.current.accounts.get accountId) = some (account, userId)
  client : g.current.oauthClients.get record.clientId ≠ none
  ttl : grantTtlDays.getD d.oauthRefreshTokenTtlDays ∈ d.oauthGrantTtlOptionsDays
  user : Authorizable g.current userId
  selected : toolNames ≠ []
  effective : toolNames ⊆ g.current.effectiveToolNames userId

/-- A code exchange meets every condition on the latest state: the presented code is stored, open,
unexpired and for the client of the call, the user may be authorized and still use one of the
selected tools, and at least a second of the consent is left. -/
structure Exchangeable (d : Deployment) (g : Shared sorts) (clientId : Option String)
    (code : StoredAuthorizationCode) (record : OAuthAuthorizationCode) (client : OAuthClient) :
    Prop where
  found : g.current.authorizationCodes.get code.recordId = some record
  unconsumed : record.consumedAt = none
  unexpired : g.clock < record.expiresAt
  clientRecordId : record.clientId = code.clientRecordId
  registered : g.current.oauthClients.get record.clientId = some client
  clientId : some client.clientId = clientId
  metadata : client.metadataClientId = client.clientId
  resource : record.resource = d.oauthResourceUrl
  user : Authorizable g.current record.userId
  effective : ∃ name ∈ record.toolNames, name ∈ g.current.effectiveToolNames record.userId
  lasting : ∀ time, record.refreshExpiresAt = some time → g.clock + seconds 1 ≤ time

/-! ### The numbers that are drawn next -/

/-- A number that was not drawn yet is fresh. -/
theorem fresh_of_le (hi : (serial d).Inv g) {n : ℕ} (hn : g.drawn.length ≤ n) :
    Fresh d g.base g.history n := by
  have undrawn : ∀ {o : Option ℕ}, g.drawn[n]? ≠ some o := by
    intro o ho
    rw [List.getElem?_eq_none hn] at ho
    cases ho
  exact ⟨fun hu => undrawn (hi.drawnBase n hu), fun e he hmem => undrawn (hi.drawnIds e he n hmem)⟩

theorem le_drawState {n : ℕ} (hn : n ≤ g.drawn.length) : n ≤ (Spec.drawState t g).drawn.length :=
  hn.trans (by simp [Spec.drawState])

theorem KnownRows.get_fresh {base : Db} {h : List (Entry sorts)} {n : ℕ}
    (hk : KnownRows (Known d base h) (after base h)) (hn : Fresh d base h n) :
    (after base h).tokenFamilies.get n = none ∧ (after base h).refreshTokens.get n = none ∧
      (after base h).accessTokens.get n = none ∧ (after base h).mcpTokens.get n = none :=
  ⟨hk.tokenFamilies.get_eq_none hn.not_known, hk.refreshTokens.get_eq_none hn.not_known,
    hk.accessTokens.get_eq_none hn.not_known, hk.mcpTokens.get_eq_none hn.not_known⟩

theorem get_code_fresh (hi : (serial d).Inv g) {n : ℕ} (hn : g.drawn.length ≤ n) :
    g.current.authorizationCodes.get n = none :=
  (fresh_of_le hi hn).get_code hi.start hi.valid

/-! ### Checks on the user -/

section

variable {Q : α → Session sorts → Shared sorts → Prop} {userId : Uuid} {k : Unit → P α}

theorem Authorizable.activeCredential {db : Db} (ha : Authorizable db userId) :
    ((db.forgejoCredentials.select fun r =>
      decide (r.userId = userId ∧ r.status = .active ∧ r.revokedAt = none)).head?).map (·.id) ≠
      none := by
  obtain ⟨r, hr, hrest⟩ := ha.credential
  rw [ne_eq, Option.map_eq_none_iff, List.head?_eq_none_iff]
  exact List.ne_nil_of_mem (Table.mem_select.2 ⟨hr, decide_eq_true hrest⟩)

theorem Authorizable.active {db : Db} (ha : Authorizable db userId) :
    ¬ (db.users.get userId).all (fun u => decide (u.status ≠ .active)) = true := by
  obtain ⟨user, huser, hactive⟩ := ha.user
  rw [huser]
  simp [hactive]

theorem requireAuthorizableUser_returns (hl : ∀ db, (l.view db).users = db.users ∧
    (l.view db).forgejoCredentials = db.forgejoCredentials) (ha : Authorizable g.current userId)
    (h : ∀ n, Returns t () Q (k ()) (l.touch n) g) :
    Returns t () Q (requireAuthorizableUser userId >>= k) l g := by
  simp only [requireAuthorizableUser, Prog.bind_eq, Prog.bind_assoc]
  refine Returns.query (Returns.query (Returns.rejectIf ?_ (h _)))
  rw [Session.touch_view, (hl _).1, (hl _).2]
  exact fun hno => hno.elim ha.active ha.activeCredential

end

/-! ### Approvals -/

theorem Approvable.returns {interaction : String} {accountId : Uuid} {grantTtlDays : Option ℕ}
    {toolNames : List String} {record : OAuthAuthorizationRequest} {userId : Uuid}
    (hi : (serial d).Inv g)
    (ha : Approvable d g interaction accountId grantTtlDays toolNames record userId) :
    Returns t () (fun redirect _ _ => ∃ code, redirect.code = some code)
      (resolveConsent d interaction accountId true grantTtlDays toolNames) {} g := by
  obtain ⟨account, haccount⟩ := ha.account
  obtain ⟨client, hclient⟩ := Option.ne_none_iff_exists'.1 ha.client
  have hnames : g.current.effectiveToolNames userId ≠ [] := fun hnil =>
    ha.selected (List.subset_nil.1 (hnil ▸ ha.effective))
  unfold resolveConsent
  refine Returns.rejectIf (by rw [ha.format]; exact Bool.noConfusion) ?_
  refine Returns.now (Returns.withSession ?_)
  refine Returns.selectForUpdate (r := record) ha.found (Returns.require rfl ?_)
  refine Returns.rejectIf (by rw [ha.pending]; exact Bool.noConfusion) ?_
  refine Returns.query (Returns.require haccount ?_)
  refine Returns.query (Returns.require hclient ?_)
  rw [if_neg (Bool.noConfusion)]
  simp only [validateGrantTtlDays, Prog.bind_eq, Prog.bind_assoc]
  refine Returns.rejectIf (not_not.2 ha.ttl) ?_
  refine Returns.updateKey ?_
  simp only [requireConsentReady, Prog.bind_eq, Prog.bind_assoc]
  refine Returns.query (Returns.rejectIf ha.user.active ?_)
  refine Returns.query (Returns.rejectIf ha.user.activeCredential ?_)
  refine Returns.query (Returns.rejectIf hnames ?_)
  refine Returns.rejectIf ha.selected ?_
  refine Returns.query (Returns.rejectIf (not_not.2 ha.effective) ?_)
  refine Returns.fresh (Returns.fresh ?_)
  refine Returns.insert (fun r hr => ?_) (Returns.exec (Returns.commit ⟨_, rfl⟩))
  rw [List.mem_singleton.1 hr]
  exact get_code_fresh hi (List.length_append ▸ Nat.le_add_right _ _)

/-! ### Code exchanges -/

/-- A pair that is issued at least a second before the consent expires lasts at least a second. -/
theorem lasting (d : Deployment) {now refreshExpiresAt : ℤ}
    (h : now + seconds 1 ≤ refreshExpiresAt) :
    ¬ (min (now + seconds d.oauthAccessTokenTtlSeconds) refreshExpiresAt - now).tdiv 1000000 ≤ 0 := by
  have httl := d.accessTtl.1
  have hmin : (1000000 : ℤ) ≤
      min (now + (d.oauthAccessTokenTtlSeconds * 1000000 : ℤ)) refreshExpiresAt - now := by
    simp only [seconds] at h
    omega
  rw [seconds, Int.tdiv_eq_ediv_of_nonneg (by omega)]
  omega

theorem issueTokenPair_returns {client : OAuthClient} {userId familyId : Uuid}
    {scopes selected : List String} {resource : String} {refreshExpiresAt : Time} {k : Issue → P α}
    {Q : α → Session sorts → Shared sorts → Prop} (hi : (serial d).Inv g)
    (hl : ∀ db, ∃ codes families, l.view db =
      { db with authorizationCodes := codes, tokenFamilies := families })
    (ha : Authorizable g.current userId)
    (heff : ∃ name ∈ selected, name ∈ g.current.effectiveToolNames userId)
    (hmeta : client.metadataClientId = client.clientId)
    (hexp : g.clock + seconds 1 ≤ refreshExpiresAt)
    (h : ∀ i l' g', Returns t () Q (k i) l' g') :
    Returns t () Q (issueTokenPair d client userId scopes resource familyId refreshExpiresAt
      selected >>= k) l g := by
  obtain ⟨codes, families, hview⟩ := hl g.current
  have unused : ∀ n, g.drawn.length ≤ n → (l.view g.current).mcpTokens.get n = none ∧
      (∀ name, (l.view g.current).mcpTokenToolGrants.get (n, name) = none) ∧
      (l.view g.current).refreshTokens.get n = none ∧
      (l.view g.current).accessTokens.get n = none := by
    intro n hn
    have hfresh := fresh_of_le hi hn
    obtain ⟨-, hrefresh, haccess, hmcp⟩ := (inv_consistent hi).known.get_fresh hfresh
    rw [hview]
    refine ⟨hmcp, fun name => ?_, hrefresh, haccess⟩
    by_contra hne
    obtain ⟨grant, hgrant⟩ := Option.ne_none_iff_exists'.1 hne
    obtain ⟨hmem, hkey⟩ := Table.get_eq_some.1 hgrant
    cases hkey
    exact hfresh.not_granted hi.start hi.valid hmem
  simp only [issueTokenPair, Prog.bind_eq, Prog.bind_assoc]
  refine requireAuthorizableUser_returns (fun db => ?_) ha fun n => ?_
  · obtain ⟨codes, families, hdb⟩ := hl db
    rw [hdb]
    exact ⟨rfl, rfl⟩
  refine Returns.query (Returns.rejectIf ?_ ?_)
  · obtain ⟨name, hname, hmem⟩ := heff
    refine List.ne_nil_of_mem (List.mem_filter.2 ⟨hname, decide_eq_true ?_⟩)
    rw [Session.touch_view, hview]
    exact hmem
  refine Returns.now (Returns.rejectIf (lasting d hexp) ?_)
  refine Returns.fresh (Returns.fresh (Returns.rejectIf (not_not.2 hmeta) ?_))
  refine Returns.fresh (Returns.fresh ?_)
  have haccess : g.drawn.length ≤
      (Spec.drawState t (Spec.drawState t (Spec.readState t g))).drawn.length :=
    le_drawState (le_drawState (Nat.le_refl _))
  have hrefresh := le_drawState (t := t) haccess
  refine Returns.insert (fun r hr => ?_) (Returns.insert (fun r hr => ?_)
    (Returns.insert (fun r hr => ?_) (Returns.insert (fun r hr => ?_) ?_)))
  · rw [List.mem_singleton.1 hr]
    exact (unused _ haccess).1
  · obtain ⟨name, -, rfl⟩ := List.mem_map.1 hr
    rw [Session.exec_view, Session.touch_view]
    exact (unused _ haccess).2.1 name
  · rw [List.mem_singleton.1 hr, Session.exec_view, Session.exec_view, Session.touch_view]
    simp only [List.foldl_cons, List.foldl_nil, Rel.inserted, refreshTokens, mcpTokenToolGrants,
      mcpTokens]
    exact (unused _ hrefresh).2.2.1
  · rw [List.mem_singleton.1 hr, Session.exec_view, Session.exec_view, Session.exec_view,
      Session.touch_view]
    simp only [List.foldl_cons, List.foldl_nil, Rel.inserted, accessTokens, refreshTokens,
      mcpTokenToolGrants, mcpTokens]
    exact (unused _ haccess).2.2.2
  exact Returns.query (Returns.exec (h _ _ _))

theorem Exchangeable.returns {clientId : Option String} {code : StoredAuthorizationCode}
    {record : OAuthAuthorizationCode} {client : OAuthClient} (hi : (serial d).Inv g)
    (ha : Exchangeable d g clientId code record client) :
    Returns t () (fun _ _ _ => True) (exchangeAuthorizationCode d clientId code) {} g := by
  have hdays : g.clock + seconds 1 ≤ g.clock + days d.oauthRefreshTokenTtlDays := by
    have hpos := d.refreshTtl.1
    simp only [seconds, days]
    omega
  unfold exchangeAuthorizationCode
  refine Returns.withSession ?_
  refine Returns.selectForUpdate (r := record) ((Table.head?_select_key _ _).trans ha.found) ?_
  refine Returns.now (Returns.require rfl ?_)
  refine Returns.rejectIf (fun hno => ?_) ?_
  · rcases hno with hno | hno | hno
    · exact hno ha.unconsumed
    · exact absurd ha.unexpired (not_lt.2 hno)
    · exact hno ha.clientRecordId
  refine Returns.query (Returns.require ha.registered ?_)
  refine Returns.rejectIf (not_not.2 ha.clientId) ?_
  refine Returns.rejectIf (not_not.2 ha.resource) ?_
  refine Returns.updateKey (Returns.fresh ?_)
  refine Returns.insert (fun r hr => ?_) ?_
  · rw [List.mem_singleton.1 hr]
    exact ((inv_consistent hi).known.get_fresh (fresh_of_le hi (Nat.le_refl _))).1
  refine issueTokenPair_returns (g := Spec.drawState t (Spec.readState t g)) ?_
    (fun db => ⟨_, _, rfl⟩) ha.user ha.effective ha.metadata ?_
    fun i l' g' => Returns.commit trivial
  · exact Serial.Inv.quiet _ (Spec.quiet_drawState t _)
      (Serial.Inv.quiet _ (Spec.quiet_readState t g) hi)
  · cases hexp : record.refreshExpiresAt with
    | none => exact hdays
    | some time => exact ha.lasting time hexp

end ForgejoMcp.OAuth
