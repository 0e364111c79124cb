import ForgejoMcp.Migrations.TokenFamilies

/-!
# Legacy revocations carried into families

Both migrations leave the members of revoked families closed and all other rows as they were.  What
revokes a family is read off the rows before the first migration, provided that no MCP token is
linked by the refresh tokens of two families.
-/

namespace ForgejoMcp.Migrations

open Transactions OAuth

variable {choice : Table.Choice} {a b db : Db}

/-- The family has a row, with a time of revocation. -/
def FamilyRevoked (db : Db) (f : Uuid) : Prop :=
  ∃ family, db.tokenFamilies.get f = some family ∧ family.revokedAt ≠ none

/-! ### Times -/

theorem minimum_eq_none {times : List (Option Time)} :
    minimum times = none ↔ ∀ time ∈ times, time = none := by
  rw [minimum, List.min?_eq_none_iff, List.filterMap_eq_nil_iff]
  rfl

theorem mem_familyTimes {f : Uuid} {time : Time} : time ∈ familyTimes db f ↔
    ∃ family, db.tokenFamilies.get f = some family ∧ family.revokedAt = some time := by
  simp only [familyTimes, List.mem_filterMap, Table.mem_select, decide_eq_true_eq,
    ← Table.get_eq_some]

theorem familyTimes_eq_nil {f : Uuid} : familyTimes db f = [] ↔ ¬ FamilyRevoked db f := by
  rw [List.eq_nil_iff_forall_not_mem]
  refine ⟨fun h ⟨family, hf, hrev⟩ => ?_, fun h time hmem => ?_⟩
  · obtain ⟨time, ht⟩ := Option.ne_none_iff_exists'.1 hrev
    exact h time (mem_familyTimes.2 ⟨family, hf, ht⟩)
  · obtain ⟨family, hf, ht⟩ := mem_familyTimes.1 hmem
    exact h ⟨family, hf, ht ▸ Option.some_ne_none time⟩

theorem familyRevoked_of_mem {f : Uuid} {time : Time} (h : time ∈ familyTimes db f) :
    FamilyRevoked db f := by
  by_contra hn
  rw [familyTimes_eq_nil.2 hn] at h
  exact absurd h List.not_mem_nil

/-- The MCP token is linked by a refresh token of a revoked family. -/
def TokenRevoked (db : Db) (m : Uuid) : Prop :=
  ∃ r ∈ db.refreshTokens, r.mcpTokenId = some m ∧ FamilyRevoked db r.familyId

/-- The access link belongs to a refresh token of a revoked family. -/
def AccessRevoked (db : Db) (access : OAuthAccessToken) : Prop :=
  ∃ r ∈ db.refreshTokens, r.id = access.refreshTokenId ∧ FamilyRevoked db r.familyId

theorem tokenTimes_eq_nil {token : McpToken} :
    tokenTimes db token = [] ↔ ¬ TokenRevoked db token.id := by
  simp only [tokenTimes, List.flatMap_eq_nil_iff, Table.mem_select, decide_eq_true_eq,
    familyTimes_eq_nil, TokenRevoked]
  constructor
  · rintro h ⟨r, hr, hm, hrev⟩
    exact h r ⟨hr, hm⟩ hrev
  · rintro h r ⟨hr, hm⟩ hrev
    exact h ⟨r, hr, hm, hrev⟩

theorem accessTimes_eq_nil {access : OAuthAccessToken} :
    accessTimes db access = [] ↔ ¬ AccessRevoked db access := by
  simp only [accessTimes, List.flatMap_eq_nil_iff, Table.mem_select, decide_eq_true_eq,
    familyTimes_eq_nil, AccessRevoked]
  constructor
  · rintro h ⟨r, hr, hm, hrev⟩
    exact h r ⟨hr, hm⟩ hrev
  · rintro h r ⟨hr, hm⟩ hrev
    exact h ⟨r, hr, hm, hrev⟩

/-! ### What a migration does to the members -/

/-- `b` is `a` with the members of the families that are revoked in `b` closed. -/
structure Closes (a b : Db) : Prop where
  refreshTokens : ∀ k r, a.refreshTokens.get k = some r → ∃ s, b.refreshTokens.get k = some s ∧
    (∃ time, s = { r with revokedAt := time }) ∧
    (FamilyRevoked b r.familyId → s.revokedAt ≠ none) ∧ (¬ FamilyRevoked b r.familyId → s = r)
  mcpTokens : ∀ k r, a.mcpTokens.get k = some r → ∃ s, b.mcpTokens.get k = some s ∧
    (TokenRevoked b k → s.enabled = false ∧ s.revokedAt ≠ none) ∧ (¬ TokenRevoked b k → s = r)
  accessTokens : ∀ k r, a.accessTokens.get k = some r → ∃ s, b.accessTokens.get k = some s ∧
    (∃ time, s = { r with revokedAt := time }) ∧
    (AccessRevoked b r → s.revokedAt ≠ none) ∧ (¬ AccessRevoked b r → s = r)
  refreshTokens_none : ∀ k, a.refreshTokens.get k = none → b.refreshTokens.get k = none
  mcpTokens_none : ∀ k, a.mcpTokens.get k = none → b.mcpTokens.get k = none
  accessTokens_none : ∀ k, a.accessTokens.get k = none → b.accessTokens.get k = none
  managementAuditEvents : b.managementAuditEvents = a.managementAuditEvents

variable (choice) in
/-- Updates from the times of the revoked families close their members. -/
theorem closes_of_updates {refreshTimes : OAuthRefreshToken → List Time}
    {accessTimes : OAuthAccessToken → List Time} {setTokenRevoked : Time → Assign McpToken.id}
    (hrefresh : b.refreshTokens = a.refreshTokens.updateFrom choice refreshTimes setRefreshRevoked)
    (hfamily : ∀ r, refreshTimes r ≠ [] → FamilyRevoked b r.familyId)
    (hopen : ∀ r, refreshTimes r = [] → FamilyRevoked b r.familyId → r.revokedAt ≠ none)
    (htoken : b.mcpTokens = a.mcpTokens.updateFrom choice (tokenTimes b) setTokenRevoked)
    (hset : ∀ time r, ((setTokenRevoked time).apply r).enabled = false ∧
      ((setTokenRevoked time).apply r).revokedAt ≠ none)
    (haccess : b.accessTokens = a.accessTokens.updateFrom choice accessTimes setAccessRevoked)
    (hlink : ∀ r, accessTimes r ≠ [] → AccessRevoked b r)
    (hopen' : ∀ r, accessTimes r = [] → AccessRevoked b r → r.revokedAt ≠ none)
    (haudit : b.managementAuditEvents = a.managementAuditEvents) : Closes a b where
  refreshTokens k r hr := by
    obtain ⟨s, hs, ⟨hnil, rfl⟩ | ⟨time, hmem, rfl⟩⟩ := Table.exists_get_updateFrom
      choice refreshTimes setRefreshRevoked hr
    · exact ⟨s, hrefresh ▸ hs, ⟨s.revokedAt, rfl⟩, hopen s hnil, fun _ => rfl⟩
    · exact ⟨(setRefreshRevoked time).apply r, hrefresh ▸ hs, ⟨time, rfl⟩,
        fun _ => Option.some_ne_none time, fun hn => absurd (hfamily r (List.ne_nil_of_mem hmem)) hn⟩
  mcpTokens k r hr := by
    have hk := Table.key_of_get hr
    obtain ⟨s, hs, ⟨hnil, rfl⟩ | ⟨time, hmem, rfl⟩⟩ := Table.exists_get_updateFrom
      choice (tokenTimes b) setTokenRevoked hr
    · exact ⟨s, htoken ▸ hs, fun hrev => absurd (hk ▸ hrev) (tokenTimes_eq_nil.1 hnil),
        fun _ => rfl⟩
    · refine ⟨_, htoken ▸ hs, fun _ => hset time r, fun hn => ?_⟩
      exact absurd (tokenTimes_eq_nil.2 (hk ▸ hn)) (List.ne_nil_of_mem hmem)
  accessTokens k r hr := by
    obtain ⟨s, hs, ⟨hnil, rfl⟩ | ⟨time, hmem, rfl⟩⟩ := Table.exists_get_updateFrom
      choice accessTimes setAccessRevoked hr
    · exact ⟨s, haccess ▸ hs, ⟨s.revokedAt, rfl⟩, hopen' s hnil, fun _ => rfl⟩
    · exact ⟨(setAccessRevoked time).apply r, haccess ▸ hs, ⟨time, rfl⟩,
        fun _ => Option.some_ne_none time, fun hn => absurd (hlink r (List.ne_nil_of_mem hmem)) hn⟩
  refreshTokens_none k hk := by rw [hrefresh, Table.get_updateFrom, hk, Option.map_none]
  mcpTokens_none k hk := by rw [htoken, Table.get_updateFrom, hk, Option.map_none]
  accessTokens_none k hk := by rw [haccess, Table.get_updateFrom, hk, Option.map_none]
  managementAuditEvents := haudit

theorem closes_upgrade0011 : Closes db (upgrade0011 choice db) :=
  closes_of_updates choice rfl
    (fun _ hne => by_contra fun hn => hne (familyTimes_eq_nil.2 hn))
    (fun _ hnil hrev => absurd hrev (familyTimes_eq_nil.1 hnil)) rfl
    (fun time _ => ⟨rfl, Option.some_ne_none time⟩) rfl
    (fun _ hne => by_contra fun hn => hne (accessTimes_eq_nil.2 hn))
    (fun _ hnil hrev => absurd hrev (accessTimes_eq_nil.1 hnil)) rfl

theorem closes_upgrade0012 : Closes db (upgrade0012 choice db) := by
  refine closes_of_updates choice rfl (fun r hne => ?_) (fun r hnil hrev hopen => ?_) rfl
    (fun time _ => ⟨rfl, Option.some_ne_none _⟩) rfl (fun r hne => ?_)
    (fun r hnil hrev hopen => ?_) rfl
  · by_contra hn
    refine hne ?_
    split
    · exact familyTimes_eq_nil.2 hn
    · rfl
  · rw [hopen] at hnil
    exact familyTimes_eq_nil.1 hnil hrev
  · by_contra hn
    refine hne ?_
    split
    · exact accessTimes_eq_nil.2 hn
    · rfl
  · rw [hopen] at hnil
    exact accessTimes_eq_nil.1 hnil hrev

/-! ### What a migration keeps -/

theorem Closes.refresh_of_get (h : Closes a b) {k : Uuid} {s : OAuthRefreshToken}
    (hs : b.refreshTokens.get k = some s) : ∃ r, a.refreshTokens.get k = some r ∧
      ∃ time, s = { r with revokedAt := time } := by
  cases hr : a.refreshTokens.get k with
  | none => exact absurd ((h.refreshTokens_none k hr).symm.trans hs) (Option.some_ne_none s).symm
  | some r =>
    obtain ⟨s', hs', heq, -⟩ := h.refreshTokens k r hr
    obtain rfl := Option.some.inj (hs'.symm.trans hs)
    exact ⟨r, rfl, heq⟩

/-- No MCP token is linked by the refresh tokens of two families. -/
def Separate (db : Db) : Prop :=
  ∀ r ∈ db.refreshTokens, ∀ s ∈ db.refreshTokens, ∀ m, r.mcpTokenId = some m →
    s.mcpTokenId = some m → r.familyId = s.familyId

theorem Closes.separate (h : Closes a b) (ha : Separate a) : Separate b := by
  intro r hr s hs m hrm hsm
  obtain ⟨r', hr', _, rfl⟩ := h.refresh_of_get (Table.get_of_mem hr)
  obtain ⟨s', hs', _, rfl⟩ := h.refresh_of_get (Table.get_of_mem hs)
  exact ha r' (Table.mem_of_get hr') s' (Table.mem_of_get hs') m hrm hsm

/-- The MCP token of a member is closed only with the family. -/
theorem Separate.not_tokenRevoked (h : Separate db) {r : OAuthRefreshToken}
    (hr : r ∈ db.refreshTokens) {m : Uuid} (hm : r.mcpTokenId = some m)
    (hf : ¬ FamilyRevoked db r.familyId) : ¬ TokenRevoked db m := by
  rintro ⟨s, hs, hsm, hrev⟩
  exact hf (h r hr s hs m hm hsm ▸ hrev)

/-- The access link of a member is closed only with the family. -/
theorem not_accessRevoked {r : OAuthRefreshToken} (hr : r ∈ db.refreshTokens)
    {access : OAuthAccessToken} (hid : access.refreshTokenId = r.id)
    (hf : ¬ FamilyRevoked db r.familyId) : ¬ AccessRevoked db access := by
  rintro ⟨s, hs, hsid, hrev⟩
  obtain rfl := Table.eq_of_key_eq hs hr (hsid.trans hid)
  exact hf hrev

/-- The MCP token of the member was revoked while the member was unrotated, or in the Dashboard. -/
def MemberEvidence (db : Db) (r : OAuthRefreshToken) (token : McpToken) : Prop :=
  r.mcpTokenId = some token.id ∧ token.revokedAt ≠ none ∧ (r.rotatedAt = none ∨
    ∃ audit ∈ db.managementAuditEvents, audit.action = "mcp_token.revoked" ∧
      audit.targetType = "mcp_token" ∧ audit.targetId = toString token.id)

/-- There is such evidence for a member of the family. -/
def TokenEvidence (db : Db) (f : Uuid) : Prop :=
  ∃ r ∈ db.lineage f, ∃ token ∈ db.mcpTokens, MemberEvidence db r token

theorem mem_evidenceTimes {f : Uuid} {time : Option Time} : time ∈ evidenceTimes db f ↔
    ∃ r ∈ db.lineage f, ∃ token ∈ db.mcpTokens, MemberEvidence db r token ∧
      token.revokedAt = time := by
  simp only [evidenceTimes, dashboardRevoked, List.mem_flatMap, List.mem_map, Table.mem_select,
    MemberEvidence, Bool.and_eq_true, Bool.or_eq_true, decide_eq_true_eq, List.any_eq_true,
    Option.isSome_iff_ne_none, Option.isNone_iff_eq_none, and_assoc]

theorem evidence_eq_nil {f : Uuid} : evidence db f = [] ↔ ¬ TokenEvidence db f := by
  have htimes : evidenceTimes db f = [] ↔ ¬ TokenEvidence db f := by
    simp only [List.eq_nil_iff_forall_not_mem, mem_evidenceTimes]
    exact ⟨fun h ⟨r, hr, token, ht, he⟩ => h _ ⟨r, hr, token, ht, he, rfl⟩,
      fun h _ ⟨r, hr, token, ht, he, _⟩ => h ⟨r, hr, token, ht, he⟩⟩
  rw [← htimes, evidence]
  split
  · next h => exact iff_of_true rfl h
  · next times h => exact iff_of_false (List.cons_ne_nil _ _) h

theorem evidence_ne_none {f : Uuid} {time : Option Time} (h : time ∈ evidence db f) :
    time ≠ none := by
  rw [evidence] at h
  split at h
  · exact absurd h List.not_mem_nil
  · next hne =>
    rw [List.mem_singleton.1 h, Ne, minimum_eq_none]
    intro hall
    obtain ⟨time, hmem⟩ := List.exists_mem_of_ne_nil _ hne
    obtain ⟨r, -, token, -, he, rfl⟩ := mem_evidenceTimes.1 hmem
    exact he.2.1 (hall _ hmem)

/-! ### Families that are not revoked -/

theorem Closes.mem_lineage (h : Closes a b) {f : Uuid} (hf : ¬ FamilyRevoked b f)
    {r : OAuthRefreshToken} : r ∈ b.lineage f ↔ r ∈ a.lineage f := by
  rw [Db.mem_lineage, Db.mem_lineage]
  refine ⟨fun ⟨hr, hfam⟩ => ⟨?_, hfam⟩, fun ⟨hr, hfam⟩ => ⟨?_, hfam⟩⟩
  · obtain ⟨r', hr', time, heq⟩ := h.refresh_of_get hr
    obtain ⟨s, hs, -, -, hsame⟩ := h.refreshTokens _ r' hr'
    have hfam' : r'.familyId = f := by rw [← hfam, heq]
    rw [hr', Option.some.inj (hr.symm.trans hs), hsame (hfam' ▸ hf)]
  · obtain ⟨s, hs, -, -, hsame⟩ := h.refreshTokens _ r hr
    rw [hs, hsame (hfam ▸ hf)]

theorem Closes.get_mcpToken (h : Closes a b) (hb : Separate b) {f : Uuid}
    (hf : ¬ FamilyRevoked b f) {r : OAuthRefreshToken} (hr : r ∈ b.lineage f) {m : Uuid}
    (hm : r.mcpTokenId = some m) : b.mcpTokens.get m = a.mcpTokens.get m := by
  obtain ⟨hget, rfl⟩ := Db.mem_lineage.1 hr
  cases ht : a.mcpTokens.get m with
  | none => exact h.mcpTokens_none m ht
  | some token =>
    obtain ⟨token', ht', -, hsame⟩ := h.mcpTokens m token ht
    rw [ht', hsame (hb.not_tokenRevoked (Table.mem_of_get hget) hm hf)]

theorem Closes.get_accessToken (h : Closes a b) {f : Uuid} (hf : ¬ FamilyRevoked b f)
    {r : OAuthRefreshToken} (hr : r ∈ b.lineage f) {k : Uuid} {access : OAuthAccessToken}
    (ha : a.accessTokens.get k = some access) (hid : access.refreshTokenId = r.id) :
    b.accessTokens.get k = some access := by
  obtain ⟨hget, rfl⟩ := Db.mem_lineage.1 hr
  obtain ⟨access', ha', -, -, hsame⟩ := h.accessTokens k access ha
  rw [ha', hsame (not_accessRevoked (Table.mem_of_get hget) hid hf)]

/-- The evidence for a family changes only with its revocation. -/
theorem Closes.tokenEvidence (h : Closes a b) (ha : Separate a) {f : Uuid}
    (hf : ¬ FamilyRevoked b f) : TokenEvidence b f ↔ TokenEvidence a f := by
  have hmember {r : OAuthRefreshToken} {token : McpToken} :
      MemberEvidence b r token ↔ MemberEvidence a r token := by
    rw [MemberEvidence, MemberEvidence, h.managementAuditEvents]
  refine ⟨fun ⟨r, hr, token, ht, he⟩ => ?_, fun ⟨r, hr, token, ht, he⟩ => ?_⟩
  · have hget := h.get_mcpToken (h.separate ha) hf hr he.1
    refine ⟨r, (h.mem_lineage hf).1 hr, token, Table.mem_of_get (k := token.id) ?_, hmember.1 he⟩
    rw [← hget, Table.get_of_mem ht]
  · have hr' := (h.mem_lineage hf).2 hr
    have hget := h.get_mcpToken (h.separate ha) hf hr' he.1
    refine ⟨r, hr', token, Table.mem_of_get (k := token.id) ?_, hmember.2 he⟩
    rw [hget, Table.get_of_mem ht]

/-! ### Revoked families -/

/-- A family is created for each refresh token. -/
theorem get_createFamilies {f : Uuid} {family : OAuthTokenFamily} :
    (createFamilies db).tokenFamilies.get f = some family ↔ (∃ r, r ∈ db.lineage f) ∧
      family = ⟨f, minimum ((db.lineage f).map (·.revokedAt))⟩ := by
  have hids : f ∈ (db.refreshTokens.rows.map (·.familyId)).dedup ↔ ∃ r, r ∈ db.lineage f := by
    simp only [List.mem_dedup, List.mem_map, Table.mem_rows, Db.lineage, Table.mem_select,
      decide_eq_true_eq]
  rw [Table.get_eq_some, createFamilies, Table.mem_insertAll (fun _ _ => Table.get_empty _),
    List.mem_map, ← hids]
  · constructor
    · rintro ⟨hmem | ⟨familyId, hmem, rfl⟩, rfl⟩
      · exact absurd hmem (Table.not_mem_empty _)
      · exact ⟨hmem, rfl⟩
    · rintro ⟨hmem, rfl⟩
      exact ⟨.inr ⟨f, hmem, rfl⟩, rfl⟩
  · rw [List.map_map]
    exact (List.nodup_dedup _).map Function.injective_id

theorem familyRevoked_upgrade0011 {f : Uuid} : FamilyRevoked (upgrade0011 choice db) f ↔
    ∃ r ∈ db.lineage f, r.revokedAt ≠ none := by
  have hmin : minimum ((db.lineage f).map (·.revokedAt)) ≠ none ↔
      ∃ r ∈ db.lineage f, r.revokedAt ≠ none := by
    rw [Ne, minimum_eq_none]
    simp
  rw [← hmin]
  refine ⟨fun ⟨family, hf, hrev⟩ => ?_, fun hrev => ?_⟩
  · rwa [(get_createFamilies.1 hf).2] at hrev
  · obtain ⟨r, hr, -⟩ := hmin.1 hrev
    exact ⟨_, get_createFamilies.2 ⟨⟨r, hr⟩, rfl⟩, hrev⟩

variable (choice) in
/-- The families after revision 0012. -/
theorem exists_get_upgrade0012 {f : Uuid} {family : OAuthTokenFamily}
    (hf : db.tokenFamilies.get f = some family) :
    ∃ family', (upgrade0012 choice db).tokenFamilies.get f = some family' ∧
      (family'.revokedAt ≠ none ↔ family.revokedAt ≠ none ∨ TokenEvidence db f) := by
  obtain ⟨family', hf', ⟨hnil, rfl⟩ | ⟨time, hmem, rfl⟩⟩ := Table.exists_get_updateFrom
    choice (fun family : OAuthTokenFamily =>
      if family.revokedAt.isNone then evidence db family.id else [])
    (fun time => (⟨fun r => { r with revokedAt := time }, fun _ => rfl⟩ :
      Assign OAuthTokenFamily.id)) hf
  · refine ⟨family', hf', ⟨.inl, fun hor => hor.elim id fun hev hnone => ?_⟩⟩
    rw [hnone, Table.key_of_get hf] at hnil
    exact evidence_eq_nil.1 hnil hev
  · split at hmem
    · have hne : time ≠ none := evidence_ne_none hmem
      refine ⟨_, hf', iff_of_true hne (.inr ?_)⟩
      by_contra hn
      rw [Table.key_of_get hf, evidence_eq_nil.2 hn] at hmem
      exact absurd hmem List.not_mem_nil
    · exact absurd hmem List.not_mem_nil

theorem get_upgrade0012_eq_none {f : Uuid} (hf : db.tokenFamilies.get f = none) :
    (upgrade0012 choice db).tokenFamilies.get f = none := by
  rw [upgrade0012, Table.get_updateFrom, hf, Option.map_none]

theorem familyRevoked_upgrade0012 {f : Uuid} : FamilyRevoked (upgrade0012 choice db) f ↔
    db.tokenFamilies.get f ≠ none ∧ (FamilyRevoked db f ∨ TokenEvidence db f) := by
  cases hf : db.tokenFamilies.get f with
  | none =>
    refine iff_of_false (fun ⟨family, hget, _⟩ => ?_) fun h => h.1 rfl
    rw [get_upgrade0012_eq_none hf] at hget
    cases hget
  | some family =>
    obtain ⟨family', hf', hrev⟩ := exists_get_upgrade0012 choice hf
    have h0 : FamilyRevoked db f ↔ family.revokedAt ≠ none :=
      ⟨fun ⟨x, hx, hxr⟩ => Option.some.inj (hx.symm.trans hf) ▸ hxr, fun h => ⟨family, hf, h⟩⟩
    have h1 : FamilyRevoked (upgrade0012 choice db) f ↔ family'.revokedAt ≠ none :=
      ⟨fun ⟨x, hx, hxr⟩ => Option.some.inj (hx.symm.trans hf') ▸ hxr, fun h => ⟨family', hf', h⟩⟩
    rw [h1, hrev, h0]
    exact (and_iff_right (Option.some_ne_none family)).symm

/-! ### Both migrations -/

/-- The foreign key of the refresh tokens to their MCP tokens, of revision 0009. -/
def TokensStored (db : Db) : Prop :=
  ∀ r ∈ db.refreshTokens, ∀ m, r.mcpTokenId = some m → db.mcpTokens.get m ≠ none

/-- What revokes a family: a revoked refresh token, or the evidence of an MCP token. -/
def LegacyEvidence (db : Db) (f : Uuid) : Prop :=
  (∃ r ∈ db.lineage f, r.revokedAt ≠ none) ∨ TokenEvidence db f

/-- The rows of the family are the same in both databases. -/
structure Unchanged (a b : Db) (f : Uuid) : Prop where
  refreshTokens : ∀ r, r ∈ b.lineage f ↔ r ∈ a.lineage f
  mcpTokens : ∀ r ∈ a.lineage f, ∀ m, r.mcpTokenId = some m →
    b.mcpTokens.get m = a.mcpTokens.get m
  accessTokens : ∀ r ∈ a.lineage f, ∀ k access, access.refreshTokenId = r.id →
    (b.accessTokens.get k = some access ↔ a.accessTokens.get k = some access)

theorem Unchanged.trans {c : Db} {f : Uuid} (hab : Unchanged a b f) (hbc : Unchanged b c f) :
    Unchanged a c f where
  refreshTokens r := (hbc.refreshTokens r).trans (hab.refreshTokens r)
  mcpTokens r hr m hm := (hbc.mcpTokens r ((hab.refreshTokens r).2 hr) m hm).trans
    (hab.mcpTokens r hr m hm)
  accessTokens r hr k access hid := (hbc.accessTokens r ((hab.refreshTokens r).2 hr) k access
    hid).trans (hab.accessTokens r hr k access hid)

theorem Closes.unchanged (h : Closes a b) (ha : Separate a) {f : Uuid}
    (hf : ¬ FamilyRevoked b f) : Unchanged a b f where
  refreshTokens _ := h.mem_lineage hf
  mcpTokens _ hr _ hm := h.get_mcpToken (h.separate ha) hf ((h.mem_lineage hf).2 hr) hm
  accessTokens r hr k access hid := by
    have hr' := (h.mem_lineage hf).2 hr
    refine ⟨fun hk => ?_, fun hk => h.get_accessToken hf hr' hk hid⟩
    cases hold : a.accessTokens.get k with
    | none => exact absurd ((h.accessTokens_none k hold).symm.trans hk) (Option.some_ne_none _).symm
    | some old =>
      obtain ⟨s, hs, ⟨time, heq⟩, -⟩ := h.accessTokens k old hold
      have hid' : old.refreshTokenId = r.id := by
        rw [← hid, Option.some.inj (hk.symm.trans hs), heq]
      exact (h.get_accessToken hf hr' hold hid').symm.trans hk

theorem Closes.revoked (h : Closes a b) (ha : TokensStored a) {f : Uuid}
    (hf : FamilyRevoked b f) : Revoked b f where
  family := hf
  refreshTokens r hr := by
    obtain ⟨hget, hfam⟩ := Db.mem_lineage.1 hr
    obtain ⟨r', hr', time, heq⟩ := h.refresh_of_get hget
    obtain ⟨s, hs, -, hrev, -⟩ := h.refreshTokens _ r' hr'
    rw [Option.some.inj (hget.symm.trans hs)]
    refine hrev ?_
    rw [heq] at hfam
    exact hfam ▸ hf
  mcpTokens r hr m hm := by
    obtain ⟨hget, hfam⟩ := Db.mem_lineage.1 hr
    obtain ⟨r', hr', time, heq⟩ := h.refresh_of_get hget
    rw [heq] at hm
    obtain ⟨token, ht⟩ := Option.ne_none_iff_exists'.1 (ha r' (Table.mem_of_get hr') m hm)
    obtain ⟨token', ht', hrev, -⟩ := h.mcpTokens m token ht
    exact ⟨token', ht', hrev ⟨r, Table.mem_of_get hget, heq ▸ hm, hfam ▸ hf⟩⟩
  accessTokens r hr link hlink hid := by
    obtain ⟨hget, hfam⟩ := Db.mem_lineage.1 hr
    have hk := Table.get_of_mem hlink
    cases hold : a.accessTokens.get link.mcpTokenId with
    | none => exact absurd ((h.accessTokens_none _ hold).symm.trans hk) (Option.some_ne_none _).symm
    | some old =>
      obtain ⟨s, hs, ⟨time, heq⟩, hrev, -⟩ := h.accessTokens _ old hold
      obtain rfl := Option.some.inj (hk.symm.trans hs)
      refine hrev ⟨r, Table.mem_of_get hget, ?_, hfam ▸ hf⟩
      rw [← hid, heq]

theorem Closes.tokensStored (h : Closes a b) (ha : TokensStored a) : TokensStored b := by
  intro r hr m hm
  obtain ⟨r', hr', time, rfl⟩ := h.refresh_of_get (Table.get_of_mem hr)
  obtain ⟨token, ht⟩ := Option.ne_none_iff_exists'.1 (ha r' (Table.mem_of_get hr') m hm)
  obtain ⟨token', ht', -⟩ := h.mcpTokens m token ht
  exact ht' ▸ Option.some_ne_none token'

/-- Without open members of revoked families, and without evidence for any other family, revision
0012 changes nothing. -/
theorem upgrade0012_eq_self
    (hfamily : ∀ family ∈ db.tokenFamilies, family.revokedAt = none → ¬ TokenEvidence db family.id)
    (hrefresh : ∀ r ∈ db.refreshTokens, FamilyRevoked db r.familyId → r.revokedAt ≠ none)
    (htoken : ∀ r ∈ db.mcpTokens, TokenRevoked db r.id → r.enabled = false ∧ r.revokedAt ≠ none)
    (haccess : ∀ r ∈ db.accessTokens, AccessRevoked db r → r.revokedAt ≠ none) :
    upgrade0012 choice db = db := by
  have h1 : db.tokenFamilies.updateFrom choice
      (fun family => if family.revokedAt.isNone then evidence db family.id else [])
      (fun time => ⟨fun r => { r with revokedAt := time }, fun _ => rfl⟩) = db.tokenFamilies := by
    refine Table.updateFrom_of_forall fun family hmem time htime => ?_
    split at htime
    · next hnone =>
      rw [evidence_eq_nil.2 (hfamily family hmem (Option.isNone_iff_eq_none.1 hnone))] at htime
      exact absurd htime List.not_mem_nil
    · exact absurd htime List.not_mem_nil
  have h2 : db.refreshTokens.updateFrom choice
      (fun r => if r.revokedAt.isNone then familyTimes db r.familyId else []) setRefreshRevoked =
        db.refreshTokens := by
    refine Table.updateFrom_of_forall fun r hmem time htime => ?_
    split at htime
    · next hnone =>
      exact absurd (Option.isNone_iff_eq_none.1 hnone)
        (hrefresh r hmem (familyRevoked_of_mem htime))
    · exact absurd htime List.not_mem_nil
  have h3 : db.mcpTokens.updateFrom choice (tokenTimes db)
      (fun time => ⟨fun r => { r with enabled := false, revokedAt := r.revokedAt.getD time },
        fun _ => rfl⟩) = db.mcpTokens := by
    refine Table.updateFrom_of_forall fun r hmem time htime => ?_
    have hrev : TokenRevoked db r.id := by
      by_contra hn
      exact absurd (tokenTimes_eq_nil.2 hn) (List.ne_nil_of_mem htime)
    obtain ⟨hoff, hne⟩ := htoken r hmem hrev
    obtain ⟨old, hold⟩ := Option.ne_none_iff_exists'.1 hne
    simp only [hold, Option.getD_some, ← hoff]
    rw [← hold]
  have h4 : db.accessTokens.updateFrom choice
      (fun r => if r.revokedAt.isNone then accessTimes db r else []) setAccessRevoked =
        db.accessTokens := by
    refine Table.updateFrom_of_forall fun r hmem time htime => ?_
    split at htime
    · next hnone =>
      refine absurd (Option.isNone_iff_eq_none.1 hnone) (haccess r hmem ?_)
      by_contra hn
      exact absurd (accessTimes_eq_nil.2 hn) (List.ne_nil_of_mem htime)
    · exact absurd htime List.not_mem_nil
  unfold upgrade0012
  simp only [h1, h2, h3, h4]

/-- A second run of revision 0012 finds nothing to do. -/
theorem upgrade0012_upgrade0012 (choice' : Table.Choice) (hsep : Separate db) :
    upgrade0012 choice' (upgrade0012 choice db) = upgrade0012 choice db := by
  have hc : Closes db (upgrade0012 choice db) := closes_upgrade0012
  refine upgrade0012_eq_self (fun family hmem hnone hev => ?_) (fun r hmem hrev => ?_)
    (fun r hmem hrev => ?_) fun r hmem hrev => ?_
  · have hget := Table.get_of_mem hmem
    have hopen : ¬ FamilyRevoked (upgrade0012 choice db) family.id :=
      fun ⟨x, hx, hxr⟩ => hxr (Option.some.inj (hx.symm.trans hget) ▸ hnone)
    refine hopen (familyRevoked_upgrade0012.2 ⟨fun hn => ?_, .inr ((hc.tokenEvidence hsep hopen).1 hev)⟩)
    cases (get_upgrade0012_eq_none hn).symm.trans hget
  · obtain ⟨r', hr', time, rfl⟩ := hc.refresh_of_get (Table.get_of_mem hmem)
    obtain ⟨s, hs, -, hclosed, -⟩ := hc.refreshTokens _ r' hr'
    rw [Option.some.inj ((Table.get_of_mem hmem).symm.trans hs)]
    exact hclosed hrev
  · cases hold : db.mcpTokens.get r.id with
    | none => cases (hc.mcpTokens_none _ hold).symm.trans (Table.get_of_mem hmem)
    | some old =>
      obtain ⟨s, hs, hclosed, -⟩ := hc.mcpTokens _ old hold
      rw [Option.some.inj ((Table.get_of_mem hmem).symm.trans hs)]
      exact hclosed hrev
  · cases hold : db.accessTokens.get r.mcpTokenId with
    | none => cases (hc.accessTokens_none _ hold).symm.trans (Table.get_of_mem hmem)
    | some old =>
      obtain ⟨s, hs, ⟨time, heq⟩, hclosed, -⟩ := hc.accessTokens _ old hold
      obtain rfl := Option.some.inj ((Table.get_of_mem hmem).symm.trans hs)
      refine hclosed ?_
      obtain ⟨x, hx, hid, hfam⟩ := hrev
      exact ⟨x, hx, by rw [hid, heq], hfam⟩

variable (choice) in
theorem familyRevoked_iff (choice' : Table.Choice) (hsep : Separate db) (f : Uuid) :
    FamilyRevoked (upgrade0012 choice' (upgrade0011 choice db)) f ↔ LegacyEvidence db f := by
  have hc : Closes db (upgrade0011 choice db) := closes_upgrade0011
  have hstored (r : OAuthRefreshToken) (hr : r ∈ db.lineage f) :
      (upgrade0011 choice db).tokenFamilies.get f ≠ none := by
    have hget := get_createFamilies.2 ⟨⟨r, hr⟩, rfl⟩
    exact fun hn => Option.some_ne_none _ (hget.symm.trans hn)
  rw [familyRevoked_upgrade0012, familyRevoked_upgrade0011, LegacyEvidence]
  by_cases hrev : ∃ r ∈ db.lineage f, r.revokedAt ≠ none
  · obtain ⟨r, hr, -⟩ := id hrev
    exact iff_of_true ⟨hstored r hr, .inl hrev⟩ (.inl hrev)
  · rw [hc.tokenEvidence hsep (mt familyRevoked_upgrade0011.1 hrev)]
    exact ⟨And.right, fun h => ⟨h.elim (fun hr => absurd hr hrev) fun ⟨r, hr, _⟩ => hstored r hr, h⟩⟩

/-- Legacy revocations are carried into families.  If no MCP token is linked by the refresh tokens
of two families, then after both migrations every refresh token has its family; a family is revoked
exactly if a member was, or an MCP token of a member that was unrotated or that was revoked in the
Dashboard; every revoked family is closed as at runtime; every other family is unchanged; and a
second run of revision 0012 changes nothing. -/
theorem legacy_revocations_carried (choice choice' : Table.Choice) (hstored : TokensStored db)
    (hsep : Separate db) :
    let migrated := upgrade0012 choice' (upgrade0011 choice db)
    (∀ r ∈ migrated.refreshTokens, migrated.tokenFamilies.get r.familyId ≠ none) ∧
    (∀ f, FamilyRevoked migrated f ↔ LegacyEvidence db f) ∧
    (∀ f, FamilyRevoked migrated f → Revoked migrated f) ∧
    (∀ f, ¬ LegacyEvidence db f → Unchanged db migrated f) ∧
    ∀ choice'', upgrade0012 choice'' migrated = migrated := by
  have h₁ : Closes db (upgrade0011 choice db) := closes_upgrade0011
  have h₂ : Closes (upgrade0011 choice db) (upgrade0012 choice' (upgrade0011 choice db)) :=
    closes_upgrade0012
  refine ⟨fun r hr hnone => ?_, familyRevoked_iff choice choice' hsep, fun f hf =>
    h₂.revoked (h₁.tokensStored hstored) hf, fun f hf => ?_,
    fun choice'' => upgrade0012_upgrade0012 choice'' (h₁.separate hsep)⟩
  · obtain ⟨r₁, hr₁, time, rfl⟩ := h₂.refresh_of_get (Table.get_of_mem hr)
    obtain ⟨r₀, hr₀, time', rfl⟩ := h₁.refresh_of_get hr₁
    have hget : (upgrade0011 choice db).tokenFamilies.get r₀.familyId = some _ :=
      get_createFamilies.2 ⟨⟨r₀, Db.mem_lineage_of_get hr₀⟩, rfl⟩
    obtain ⟨family, hfamily, -⟩ := exists_get_upgrade0012 choice' hget
    exact Option.some_ne_none family (hfamily.symm.trans hnone)
  · have hf₂ := mt (familyRevoked_iff choice choice' hsep f).1 hf
    have hf₁ : ¬ FamilyRevoked (upgrade0011 choice db) f := fun hrev =>
      hf (.inl (familyRevoked_upgrade0011.1 hrev))
    exact (h₁.unchanged hsep hf₁).trans (h₂.unchanged (h₁.separate hsep) hf₂)

/-- A refresh token of the samples. -/
def legacyRefresh (id familyId mcpTokenId : Uuid) (rotatedAt revokedAt : Option Time) :
    OAuthRefreshToken :=
  ⟨id, "", "", familyId, 0, 0, ["mcp"], "https://mcp.example/mcp", some mcpTokenId, days 30,
    rotatedAt, revokedAt⟩

/-- An MCP token of the samples. -/
def legacyToken (id : Uuid) (revokedAt : Option Time) : McpToken :=
  ⟨id, 0, "OAuth", none, "", toString id, .oauth, revokedAt.isNone, none, revokedAt, none⟩

/-- Family 10 has rotated, family 20 was revoked in the Dashboard after a rotation. -/
def legacyDb : Db :=
  { sampleDb with
    refreshTokens := Table.empty.insertAll [legacyRefresh 1 10 5 (some 100) none,
      legacyRefresh 2 10 6 none none, legacyRefresh 3 20 7 (some 100) none,
      legacyRefresh 4 20 8 none none]
    mcpTokens := Table.empty.insertAll [legacyToken 5 (some 100), legacyToken 6 none,
      legacyToken 7 (some 100), legacyToken 8 none]
    managementAuditEvents := [⟨some 0, "mcp_token.revoked", "mcp_token", "7"⟩] }

theorem legacy_revocations_sample :
    FamilyRevoked (upgrade0012 .first (upgrade0011 .first legacyDb)) 20 ∧
      Unchanged legacyDb (upgrade0012 .first (upgrade0011 .first legacyDb)) 10 := by
  have hstored : TokensStored legacyDb := by
    have h : ∀ r ∈ legacyDb.refreshTokens.rows, ∀ m ∈ r.mcpTokenId,
        legacyDb.mcpTokens.get m ≠ none := by decide +kernel
    exact h
  have hsep : Separate legacyDb := by
    have h : ∀ r ∈ legacyDb.refreshTokens.rows, ∀ s ∈ legacyDb.refreshTokens.rows,
        ∀ m ∈ r.mcpTokenId, s.mcpTokenId = some m → r.familyId = s.familyId := by decide +kernel
    exact h
  have h := legacy_revocations_carried .first .first hstored hsep
  have hmembers : ∀ r ∈ legacyDb.lineage 10, r.revokedAt = none := by decide +kernel
  refine ⟨(h.2.1 20).2 (.inr ?_), h.2.2.2.1 10 fun hev => hev.elim
    (fun ⟨r, hr, hne⟩ => hne (hmembers r hr)) (evidence_eq_nil.1 ?_)⟩
  · by_contra hn
    have hnil := evidence_eq_nil.2 hn
    revert hnil
    decide +kernel
  · decide +kernel

/-- Two families whose refresh tokens link one MCP token; the first has a revoked member. -/
def sharedDb : Db :=
  { sampleDb with
    refreshTokens := Table.empty.insertAll [legacyRefresh 1 10 5 none (some 100),
      legacyRefresh 2 20 5 none none]
    mcpTokens := Table.empty.insert (legacyToken 5 none) }

/-- Revision 0011 revokes the shared MCP token with the first family, and revision 0012 takes that
for evidence against the second. -/
theorem shared_token_revokes_second : ¬ ∀ choice db, TokensStored db →
    ∀ f, FamilyRevoked (upgrade0012 choice (upgrade0011 choice db)) f ↔ LegacyEvidence db f := by
  intro h
  have hstored : TokensStored sharedDb := by
    have h : ∀ r ∈ sharedDb.refreshTokens.rows, ∀ m ∈ r.mcpTokenId,
        sharedDb.mcpTokens.get m ≠ none := by decide +kernel
    exact h
  have hrev : FamilyRevoked (upgrade0012 .first (upgrade0011 .first sharedDb)) 20 :=
    ⟨⟨20, some 100⟩, by decide +kernel, Option.some_ne_none 100⟩
  have hmembers : ∀ r ∈ sharedDb.lineage 20, r.revokedAt = none := by decide +kernel
  rcases (h .first sharedDb hstored 20).1 hrev with ⟨r, hr, hne⟩ | hev
  · exact hne (hmembers r hr)
  · exact evidence_eq_nil.1 (by decide +kernel) hev

end ForgejoMcp.Migrations
