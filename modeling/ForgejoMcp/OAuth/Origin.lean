import ForgejoMcp.OAuth.Invariant

/-!
# Where the rows come from

A drawn number is put into the database by at most one commit.  Hence every refresh token and every
OAuth token comes from one issued pair, and no two of them share a secret.
-/

namespace ForgejoMcp.OAuth

open Transactions

variable {d : Deployment} {base : Db} {h : List (Entry sorts)} {e : Entry sorts}

/-! ### Drawn numbers -/

/-- A commit puts in numbers that were not used before. -/
theorem Step.fresh (hs : Step d base h e) {n : ℕ} (hn : n ∈ ids e.label) : Fresh d base h n := by
  have issues : ∀ {i : Issue} {selected : List String}, Issues d base h e i selected →
      n ∈ [i.accessSecret, i.refreshSecret, i.accessId, i.refreshId] → Fresh d base h n := by
    intro i selected hi hn
    simp only [List.mem_cons, List.not_mem_nil, or_false] at hn
    rcases hn with rfl | rfl | rfl | rfl
    exacts [hi.accessSecret, hi.refreshSecret, hi.accessId, hi.refreshId]
  unfold Step at hs
  cases he : e.label with
  | approved request codeId secret tools =>
    rw [he] at hs hn
    obtain ⟨code, now, log, -, -, -, -, -, -, hcode, hsecret⟩ := hs
    simp only [ids, List.mem_cons, List.not_mem_nil, or_false] at hn
    rcases hn with rfl | rfl
    exacts [hcode, hsecret]
  | issued codeId i =>
    rw [he] at hs hn
    obtain ⟨code, now, log, -, hx⟩ := hs
    rcases List.mem_cons.1 hn with rfl | hn
    · exact hx.familyId
    · exact issues hx.issues hn
  | rotated parent oldToken readAt now i =>
    rw [he] at hs hn
    obtain ⟨r, m, log, -, -, hx⟩ := hs
    obtain ⟨selected, hi, -⟩ := hx.issues
    exact issues hi hn
  | created id secret =>
    rw [he] at hs hn
    obtain ⟨token, log, -, -, -, -, -, -, hid, hsecret⟩ := hs
    simp only [ids, List.mem_cons, List.not_mem_nil, or_false] at hn
    rcases hn with rfl | rfl
    exacts [hid, hsecret]
  | _ => rw [he] at hn; cases hn

/-- Commits that put in the same number are one commit. -/
theorem index_eq_of_mem_ids (hv : Valid (Step d) base h) {a b n : ℕ} {e e' : Entry sorts}
    (ha : h[a]? = some e) (hb : h[b]? = some e') (hn : n ∈ ids e.label)
    (hn' : n ∈ ids e'.label) : a = b := by
  have not_lt : ∀ {a b : ℕ} {e e' : Entry sorts}, h[a]? = some e → h[b]? = some e' →
      n ∈ ids e.label → n ∈ ids e'.label → ¬ a < b := by
    intro a b e e' ha hb hn hn' hlt
    refine ((hv.step_at hb).fresh hn').2 e (List.mem_of_getElem? (i := a) ?_) hn
    rw [List.getElem?_take_of_lt hlt, ha]
  have hab := not_lt ha hb hn hn'
  have hba := not_lt hb ha hn' hn
  omega

/-! ### Issued pairs -/

/-- A commit issued the pair. -/
def Issued (h : List (Entry sorts)) (i : Issue) : Prop := ∃ e ∈ h, e.label.issue? = some i

theorem Issued.append {i : Issue} (hi : Issued h i) (ext : List (Entry sorts)) :
    Issued (h ++ ext) i := by
  obtain ⟨e, he, hl⟩ := hi
  exact ⟨e, List.mem_append_left _ he, hl⟩

theorem issued_snoc {i : Issue} (hl : e.label.issue? = some i) : Issued (h ++ [e]) i :=
  ⟨e, List.mem_append_right _ (List.mem_singleton_self e), hl⟩

/-- The numbers of a pair. -/
def Issue.numbers (i : Issue) : List ℕ := [i.accessSecret, i.refreshSecret, i.accessId, i.refreshId]

theorem mem_ids_of_issue? {l : Label} {i : Issue} (hl : l.issue? = some i) {n : ℕ}
    (hn : n ∈ i.numbers) : n ∈ ids l := by
  cases l with
  | issued codeId j => cases hl; exact List.mem_cons_of_mem _ hn
  | rotated parent oldToken readAt now j => cases hl; exact hn
  | _ => cases hl

/-- Pairs that share a number are one pair. -/
theorem Issued.unique (hv : Valid (Step d) base h) {i i' : Issue} (hi : Issued h i)
    (hi' : Issued h i') {n : ℕ} (hn : n ∈ i.numbers) (hn' : n ∈ i'.numbers) : i = i' := by
  obtain ⟨e, he, hl⟩ := hi
  obtain ⟨e', he', hl'⟩ := hi'
  obtain ⟨a, ha⟩ := List.mem_iff_getElem?.1 he
  obtain ⟨b, hb⟩ := List.mem_iff_getElem?.1 he'
  have hab := index_eq_of_mem_ids hv ha hb (mem_ids_of_issue? hl hn) (mem_ids_of_issue? hl' hn')
  subst hab
  rw [ha, Option.some.injEq] at hb
  rw [← hb, hl, Option.some.injEq] at hl'
  exact hl'

/-! ### The origin of a row -/

/-- Refresh tokens and OAuth tokens come from issued pairs, for the resource of the deployment; the
hash of any other token is that of a number of the initial state or of a created token. -/
structure Origins (d : Deployment) (base : Db) (h : List (Entry sorts)) (db : Db) : Prop where
  refresh : ∀ k r, db.refreshTokens.get k = some r →
    ∃ i, Issued h i ∧ i.refreshId = k ∧ r.core = i.refreshRecord d
  resource : ∀ k r, db.refreshTokens.get k = some r → r.resource = d.oauthResourceUrl
  oauth : ∀ m token, db.mcpTokens.get m = some token → token.kind = .oauth →
    ∃ i, Issued h i ∧ i.accessId = m ∧ token.core = (i.accessRecord d).core
  static : ∀ m token n, db.mcpTokens.get m = some token → token.kind ≠ .oauth →
    token.tokenHash = d.hashToken (d.newMcpToken n) →
    Uses d base n ∨ ∃ e ∈ h, ∃ id, e.label = .created id n

namespace Origins

variable {a b db : Db}

theorem congr (hab : SameCore a b) (ha : Origins d base h a) : Origins d base h b :=
  ⟨hab.2 ▸ ha.1, hab.2 ▸ ha.2, hab.4 ▸ ha.3, hab.4 ▸ ha.4⟩

theorem snoc (ha : Origins d base h a) (e : Entry sorts) : Origins d base (h ++ [e]) a where
  refresh := fun k r hr => by
    obtain ⟨i, hi, hrest⟩ := ha.refresh k r hr
    exact ⟨i, hi.append [e], hrest⟩
  resource := ha.resource
  oauth := fun m token hm hk => by
    obtain ⟨i, hi, hrest⟩ := ha.oauth m token hm hk
    exact ⟨i, hi.append [e], hrest⟩
  static := fun m token n hm hk hn => (ha.static m token n hm hk hn).imp_right
    fun ⟨e', he', hl⟩ => ⟨e', List.mem_append_left _ he', hl⟩

theorem sameRows (hab : SameRows a b) (ha : Origins d base h a) : Origins d base h b where
  refresh := fun k r hr => by
    obtain ⟨s, hs, hcore⟩ := exists_of_map_eq (hab.refreshTokens k) hr
    obtain ⟨i, hi, hid, hrest⟩ := ha.refresh k s hs
    exact ⟨i, hi, hid, hcore.symm.trans hrest⟩
  resource := fun k r hr => by
    obtain ⟨s, hs, hcore⟩ := exists_of_map_eq (hab.refreshTokens k) hr
    exact (congrArg OAuthRefreshToken.resource hcore :).symm.trans (ha.resource k s hs)
  oauth := fun m token hm hk => by
    obtain ⟨s, hs, hcore⟩ := exists_of_map_eq (hab.mcpTokens m) hm
    obtain ⟨i, hi, hid, hrest⟩ := ha.oauth m s hs ((congrArg McpToken.kind hcore :).trans hk)
    exact ⟨i, hi, hid, hcore.symm.trans hrest⟩
  static := fun m token n hm hk hn => by
    obtain ⟨s, hs, hcore⟩ := exists_of_map_eq (hab.mcpTokens m) hm
    exact ha.static m s n hs (fun hs => hk ((congrArg McpToken.kind hcore :).symm.trans hs))
      ((congrArg McpToken.tokenHash hcore :).trans hn)

theorem openFamily (ha : Origins d base h db) (f : Uuid) : Origins d base h (db.openFamily f) :=
  ⟨ha.1, ha.2, ha.3, ha.4⟩

theorem issue (ha : Origins d base h db) {i : Issue} (hi : Issued h i)
    (hres : i.resource = d.oauthResourceUrl) (hM : db.mcpTokens.get i.accessId = none)
    (hR : db.refreshTokens.get i.refreshId = none) : Origins d base h (db.issue d i) := by
  have getM : ∀ k, (db.issue d i).mcpTokens.get k =
      if i.accessId = k then some (i.accessRecord d) else db.mcpTokens.get k :=
    Table.get_insert (r := i.accessRecord d) hM
  have getR : ∀ k, (db.issue d i).refreshTokens.get k =
      if i.refreshId = k then some (i.refreshRecord d) else db.refreshTokens.get k :=
    Table.get_insert (r := i.refreshRecord d) hR
  constructor
  · intro k r hr
    rw [getR] at hr
    split at hr
    · rename_i hid
      cases hr
      exact ⟨i, hi, hid, rfl⟩
    · exact ha.refresh k r hr
  · intro k r hr
    rw [getR] at hr
    split at hr
    · cases hr
      exact hres
    · exact ha.resource k r hr
  · intro m token hm hk
    rw [getM] at hm
    split at hm
    · rename_i hid
      cases hm
      exact ⟨i, hi, hid, rfl⟩
    · exact ha.oauth m token hm hk
  · intro m token n hm hk hn
    rw [getM] at hm
    split at hm
    · cases hm
      exact absurd rfl hk
    · exact ha.static m token n hm hk hn

theorem addToken (ha : Origins d base h db) {token : McpToken} {secret : ℕ}
    (hcreated : ∃ e ∈ h, ∃ id, e.label = .created id secret) (hkind : token.kind = .static)
    (hhash : token.tokenHash = d.hashToken (d.newMcpToken secret))
    (hM : db.mcpTokens.get token.id = none) : Origins d base h (db.addToken token) where
  refresh := ha.refresh
  resource := ha.resource
  oauth := fun m token' hm hk => by
    rw [Db.addToken, Table.get_insert hM] at hm
    split at hm
    · cases hm
      rw [hkind] at hk
      cases hk
    · exact ha.oauth m token' hm hk
  static := fun m token' n hm hk hn => by
    rw [Db.addToken, Table.get_insert hM] at hm
    split at hm
    · cases hm
      have hsame : secret = n := d.newMcpToken_injective (d.sha256_injective (hhash.symm.trans hn))
      exact .inr (hsame ▸ hcreated)
    · exact ha.static m token' n hm hk hn

end Origins

theorem Start.origins (hs : Start base) : Origins d base [] base where
  refresh := fun k r hr => by rw [hs.refreshTokens] at hr; cases hr
  resource := fun k r hr => by rw [hs.refreshTokens] at hr; cases hr
  oauth := fun m token hm hk => by
    rw [hs.static token (Table.mem_of_get hm)] at hk
    cases hk
  static := fun m token n hm _ hn => .inl ⟨token, Table.mem_of_get hm, .inr hn⟩

theorem Origins.step (hk : KnownRows (Known d base h) (after base h))
    (ho : Origins d base h (after base h)) (hs : Step d base h e) :
    Origins d base (h ++ [e]) e.db := by
  replace ho := ho.snoc e
  rcases hs.coreChange with ⟨-, -, hdb⟩ | ⟨codeId, i, code, hl, hx, hdb⟩ |
    ⟨parent, m, readAt, now, i, r, hl, hx, hdb⟩ | ⟨f, tokens, time, -, -, -, -, -, hdb⟩ |
    ⟨f, token, tokens, time, now, -, -, -, -, -, -, hdb⟩ | ⟨token, row, now, -, -, -, -, -, hdb⟩ |
    ⟨token, secret, hl, -, hkind, hhash, hid, hdb⟩ | ⟨token, now, -, -, hdb⟩
  · exact ho.congr hdb
  · exact ((ho.openFamily i.familyId).issue (issued_snoc (by rw [hl]; rfl)) hx.resource
      (hk.mcpTokens.get_eq_none hx.issues.accessId.not_known)
      (hk.refreshTokens.get_eq_none hx.issues.refreshId.not_known)).congr hdb
  · obtain ⟨selected, hi, -⟩ := hx.issues
    have hsame : SameRows (after base h) (((after base h).markRotated parent now).revokeToken m now) :=
      (SameRows.markRotated parent now).trans (SameRows.revokeToken m now)
    have known := (hk.markRotated parent now).revokeToken m now
    exact ((ho.sameRows hsame).issue (issued_snoc (by rw [hl]; rfl))
      (hx.resource.trans (ho.resource _ _ hx.presents.record))
      (known.mcpTokens.get_eq_none hi.accessId.not_known)
      (known.refreshTokens.get_eq_none hi.refreshId.not_known)).congr hdb
  · exact (ho.sameRows (.revokeFamily f tokens time)).congr hdb
  · exact (ho.sameRows ((SameRows.revokeFamily f tokens time).trans (.disableToken token now))).congr
      hdb
  · exact (ho.sameRows (.disableToken token now)).congr hdb
  · exact (ho.addToken ⟨e, List.mem_append_right _ (List.mem_singleton_self e), _, hl⟩ hkind hhash
      (hk.mcpTokens.get_eq_none hid.not_known)).congr hdb
  · exact (ho.sameRows (.useToken token now)).congr hdb

theorem Start.origins_of_valid (hs : Start base) (hv : Valid (Step d) base h) :
    Origins d base h (after base h) := by
  induction hv with
  | nil => rw [after_nil]; exact hs.origins
  | @snoc h e hv hstep ih =>
    rw [after_concat]
    exact ih.step (hs.consistent_of_valid hv).known hstep

/-! ### The rows of a pair -/

/-- A pair is stored by the commit that issues it. -/
theorem Step.stored (hk : KnownRows (Known d base h) (after base h)) (hs : Step d base h e)
    {i : Issue} (hl : e.label.issue? = some i) :
    e.db.refreshTokens.get i.refreshId = some (i.refreshRecord d) ∧
      e.db.mcpTokens.get i.accessId = some (i.accessRecord d) := by
  have hfresh : ∀ n ∈ i.numbers, ¬ Known d base h n := fun n hn =>
    (hs.fresh (mem_ids_of_issue? hl hn)).not_known
  have hR : ¬ Known d base h i.refreshId := hfresh _ (by simp [Issue.numbers])
  have hM : ¬ Known d base h i.accessId := hfresh _ (by simp [Issue.numbers])
  have stored : ∀ {db : Db}, db.refreshTokens.get i.refreshId = none →
      db.mcpTokens.get i.accessId = none → SameCore (db.issue d i) e.db →
      e.db.refreshTokens.get i.refreshId = some (i.refreshRecord d) ∧
        e.db.mcpTokens.get i.accessId = some (i.accessRecord d) := by
    intro db hrefresh haccess hsame
    rw [hsame.refreshTokens, hsame.mcpTokens]
    exact ⟨Table.get_insert_self (r := i.refreshRecord d) hrefresh,
      Table.get_insert_self (r := i.accessRecord d) haccess⟩
  cases hs.coreChange with
  | issued codeId j code hj hx hdb =>
    rw [hj] at hl
    cases hl
    have hrefresh : ((after base h).openFamily i.familyId).refreshTokens.get i.refreshId = none :=
      hk.refreshTokens.get_eq_none hR
    exact stored hrefresh (hk.mcpTokens.get_eq_none hM) hdb
  | rotated parent m readAt now j r hj hx hdb =>
    rw [hj] at hl
    cases hl
    have hrev := (hk.markRotated parent now).revokeToken m now
    exact stored (hrev.refreshTokens.get_eq_none hR) (hrev.mcpTokens.get_eq_none hM) hdb
  | same hj => rw [hj] at hl; cases hl
  | revoked _ _ _ hj => rw [hj] at hl; cases hl
  | dashboard _ _ _ _ _ hj => rw [hj] at hl; cases hl
  | disabled _ _ _ hj => rw [hj] at hl; cases hl
  | created _ _ hj => rw [hj] at hl; cases hl
  | used _ _ hj => rw [hj] at hl; cases hl

/-- A pair is issued to a registered client. -/
theorem Step.registered (hs : Step d base h e) {i : Issue} (hl : e.label.issue? = some i) :
    Registered base h i.clientRecord := by
  cases hs.coreChange with
  | issued codeId j code hj hx =>
    rw [hj] at hl
    cases hl
    exact hx.issues.registered
  | rotated parent m readAt now j r hj hx =>
    rw [hj] at hl
    cases hl
    obtain ⟨selected, hissues, -⟩ := hx.issues
    exact hissues.registered
  | same hj => rw [hj] at hl; cases hl
  | revoked _ _ _ hj => rw [hj] at hl; cases hl
  | dashboard _ _ _ _ _ hj => rw [hj] at hl; cases hl
  | disabled _ _ _ hj => rw [hj] at hl; cases hl
  | created _ _ hj => rw [hj] at hl; cases hl
  | used _ _ hj => rw [hj] at hl; cases hl

theorem Issued.registered (hv : Valid (Step d) base h) {i : Issue} (hi : Issued h i) :
    Registered base h i.clientRecord := by
  obtain ⟨e, he, hl⟩ := hi
  obtain ⟨a, ha⟩ := List.mem_iff_getElem?.1 he
  obtain ⟨n, hn, hget⟩ := (hv.step_at ha).registered hl
  rw [List.length_take] at hn
  rw [List.take_take, Nat.min_eq_left (hn.trans (Nat.min_le_left _ _))] at hget
  exact ⟨n, hn.trans (Nat.min_le_right _ _), hget⟩

/-- The rows of an issued pair stay. -/
theorem Start.stored (hs : Start base) (hv : Valid (Step d) base h) {i : Issue}
    (hi : Issued h i) : ∃ r token, (after base h).refreshTokens.get i.refreshId = some r ∧
      RefreshLater (i.refreshRecord d) r ∧ (after base h).mcpTokens.get i.accessId = some token ∧
      TokenLater (i.accessRecord d) token := by
  obtain ⟨e, he, hl⟩ := hi
  obtain ⟨a, ha⟩ := List.mem_iff_getElem?.1 he
  obtain ⟨hr, hm⟩ := (hv.step_at ha).stored (hs.consistent_of_valid (hv.take a)).known hl
  have hstate : after base (h.take (a + 1)) = e.db := by
    rw [List.take_add_one, ha, Option.toList_some, after_concat]
  have hlater : Later e.db (after base h) := by
    have hle : a + 1 ≤ h.length := (List.getElem?_eq_some_iff.1 ha).1
    have hof := Later.of_valid hv hle
    rwa [hstate, List.take_length] at hof
  obtain ⟨r, hr', hrl⟩ := hlater.refreshTokens _ _ hr
  obtain ⟨token, hm', hml⟩ := hlater.mcpTokens _ _ hm
  exact ⟨r, token, hr', hrl, hm', hml⟩

/-- The access tokens of a family are those of the pairs issued in it. -/
theorem Start.mem_memberTokens (hs : Start base) (hv : Valid (Step d) base h) {f m : Uuid} :
    m ∈ (after base h).memberTokens f ↔
      ∃ i, Issued h i ∧ i.accessId = m ∧ i.familyId = f := by
  rw [Db.mem_memberTokens]
  constructor
  · rintro ⟨r, hr, hm⟩
    obtain ⟨hget, hf⟩ := Db.mem_lineage.1 hr
    obtain ⟨i, hi, -, hcore⟩ := (hs.origins_of_valid hv).refresh _ r hget
    have hmi : r.mcpTokenId = some i.accessId := (congrArg OAuthRefreshToken.mcpTokenId hcore :)
    have hfi : r.familyId = i.familyId := (congrArg OAuthRefreshToken.familyId hcore :)
    rw [hm, Option.some.injEq] at hmi
    exact ⟨i, hi, hmi.symm, hfi.symm.trans hf⟩
  · rintro ⟨i, hi, rfl, rfl⟩
    obtain ⟨r, token, hget, hlater, -⟩ := hs.stored hv hi
    have hf : r.familyId = i.familyId := (congrArg OAuthRefreshToken.familyId hlater.core :)
    exact ⟨r, hf ▸ Db.mem_lineage_of_get hget,
      (congrArg OAuthRefreshToken.mcpTokenId hlater.core :)⟩

/-- The pair that a rotation replaces was issued before its grants were read, for the family is
locked since. -/
theorem Rotates.parent_issued {parent m : Uuid} {readAt : ℕ} {now : Time} {i : Issue}
    {r : OAuthRefreshToken} (hx : Rotates d base h e parent (some m) readAt now i r)
    (hs : Start base) (hv : Valid (Step d) base h) :
    ∃ i₀, Issued (h.take readAt) i₀ ∧ i₀.refreshId = parent ∧ i₀.accessId = m ∧
      i₀.familyId = i.familyId := by
  obtain ⟨i₀, ⟨e₀, he₀, hl₀⟩, hid, hcore⟩ :=
    (hs.origins_of_valid hv).refresh _ r hx.presents.record
  have hf : r.familyId = i₀.familyId := (congrArg OAuthRefreshToken.familyId hcore :)
  have hm : r.mcpTokenId = some i₀.accessId := (congrArg OAuthRefreshToken.mcpTokenId hcore :)
  rw [hx.oldToken_eq, Option.some.injEq] at hm
  refine ⟨i₀, ⟨e₀, ?_, hl₀⟩, hid, hm.symm, hf.symm.trans hx.familyId.symm⟩
  rw [← List.take_append_drop readAt h] at he₀
  rcases List.mem_append.1 he₀ with he₀ | he₀
  · exact he₀
  · refine absurd (mem_footprint_family.2 ?_) (hx.locked e₀ he₀)
    rw [Label.family_of_issue hl₀, hx.familyId, hf]

/-! ### Tokens with one hash -/

/-- Refresh tokens with the same hash are the same. -/
theorem Origins.refresh_unique (hv : Valid (Step d) base h) (ho : Origins d base h (after base h))
    {k k' : Uuid} {r r' : OAuthRefreshToken} (hr : (after base h).refreshTokens.get k = some r)
    (hr' : (after base h).refreshTokens.get k' = some r') (hhash : r.tokenHash = r'.tokenHash) :
    k = k' := by
  obtain ⟨i, hi, hid, hcore⟩ := ho.refresh k r hr
  obtain ⟨i', hi', hid', hcore'⟩ := ho.refresh k' r' hr'
  have hsecret : i.refreshSecret = i'.refreshSecret := by
    refine d.newOauthRefreshToken_injective (d.sha256_injective ?_)
    exact (congrArg OAuthRefreshToken.tokenHash hcore :).symm.trans
      (hhash.trans (congrArg OAuthRefreshToken.tokenHash hcore' :))
  have hsame := hi.unique hv hi' (n := i.refreshSecret) (by simp [Issue.numbers])
    (by simp [Issue.numbers, hsecret])
  rw [← hid, ← hid', hsame]

/-- A token with the same hash as an OAuth token is that token. -/
theorem Origins.oauth_unique (hv : Valid (Step d) base h) (ho : Origins d base h (after base h))
    {m m' : Uuid} {token token' : McpToken} (hm : (after base h).mcpTokens.get m = some token)
    (hkind : token.kind = .oauth) (hm' : (after base h).mcpTokens.get m' = some token')
    (hhash : token.tokenHash = token'.tokenHash) : m = m' := by
  obtain ⟨i, hi, hid, hcore⟩ := ho.oauth m token hm hkind
  have hsecret : token.tokenHash = d.hashToken (d.newMcpToken i.accessSecret) :=
    (congrArg McpToken.tokenHash hcore :)
  by_cases hkind' : token'.kind = .oauth
  · obtain ⟨i', hi', hid', hcore'⟩ := ho.oauth m' token' hm' hkind'
    have hnum : i.accessSecret = i'.accessSecret := by
      refine d.newMcpToken_injective (d.sha256_injective ?_)
      exact hsecret.symm.trans (hhash.trans (congrArg McpToken.tokenHash hcore' :))
    have hsame := hi.unique hv hi' (n := i.accessSecret) (by simp [Issue.numbers])
      (by simp [Issue.numbers, hnum])
    rw [← hid, ← hid', hsame]
  · -- the secret of a pair is no number of the initial state, nor of a created token
    exfalso
    obtain ⟨e, he, hl⟩ := hi
    obtain ⟨a, ha⟩ := List.mem_iff_getElem?.1 he
    have hids : i.accessSecret ∈ ids e.label := mem_ids_of_issue? hl (by simp [Issue.numbers])
    rcases ho.static m' token' i.accessSecret hm' hkind' (hhash.symm.trans hsecret) with
      huses | ⟨e', he', id, hcreated⟩
    · exact ((hv.step_at ha).fresh hids).1 huses
    · obtain ⟨b, hb⟩ := List.mem_iff_getElem?.1 he'
      have hab := index_eq_of_mem_ids hv ha hb hids (by rw [hcreated]; simp [ids])
      subst hab
      rw [ha, Option.some.injEq] at hb
      rw [hb, hcreated] at hl
      cases hl

end ForgejoMcp.OAuth
