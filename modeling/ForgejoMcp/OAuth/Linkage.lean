import ForgejoMcp.OAuth.Changes

/-!
# How the token rows are linked

Every refresh token belongs to a stored family and is linked, both ways, to one OAuth access token
of the same user; a static token is linked to nothing.  The numbers of all rows were drawn by the
transactions that inserted them.
-/

namespace ForgejoMcp.OAuth

open Transactions

variable {d : Deployment} {base : Db} {h : List (Entry sorts)} {e : Entry sorts}

/-! ### The numbers of the rows -/

/-- A number that some row may use. -/
def Known (d : Deployment) (base : Db) (h : List (Entry sorts)) (n : ℕ) : Prop :=
  Uses d base n ∨ ∃ e ∈ h, n ∈ ids e.label

theorem Fresh.not_known {n : ℕ} (hf : Fresh d base h n) : ¬ Known d base h n := by
  rintro (hu | ⟨e, he, hn⟩)
  · exact hf.1 hu
  · exact hf.2 e he hn

theorem Known.snoc {n : ℕ} (hk : Known d base h n) : Known d base (h ++ [e]) n :=
  hk.imp_right fun ⟨e', he', hn⟩ => ⟨e', List.mem_append_left _ he', hn⟩

theorem known_of_mem_ids {n : ℕ} (hn : n ∈ ids e.label) : Known d base (h ++ [e]) n :=
  .inr ⟨e, List.mem_append_right _ (List.mem_singleton_self e), hn⟩

/-- The rows of the token tables have known numbers. -/
structure KnownRows (K : ℕ → Prop) (db : Db) : Prop where
  tokenFamilies : db.tokenFamilies.Keyed K
  refreshTokens : db.refreshTokens.Keyed K
  accessTokens : db.accessTokens.Keyed K
  mcpTokens : db.mcpTokens.Keyed K

namespace KnownRows

variable {K K' : ℕ → Prop} {db a b : Db}

theorem mono (hdb : KnownRows K db) (hK : ∀ n, K n → K' n) : KnownRows K' db :=
  ⟨hdb.1.mono hK, hdb.2.mono hK, hdb.3.mono hK, hdb.4.mono hK⟩

theorem congr (hab : SameCore a b) (ha : KnownRows K a) : KnownRows K b :=
  ⟨hab.1 ▸ ha.1, hab.2 ▸ ha.2, hab.3 ▸ ha.3, hab.4 ▸ ha.4⟩

theorem openFamily (hdb : KnownRows K db) {f : Uuid} (hf : K f) : KnownRows K (db.openFamily f) :=
  ⟨hdb.1.insert hf, hdb.2, hdb.3, hdb.4⟩

theorem issue (hdb : KnownRows K db) {i : Issue} (ha : K i.accessId) (hr : K i.refreshId) :
    KnownRows K (db.issue d i) :=
  ⟨hdb.1, hdb.2.insert hr, hdb.3.insert ha, hdb.4.insert ha⟩

theorem markRotated (hdb : KnownRows K db) (r : Uuid) (now : Time) :
    KnownRows K (db.markRotated r now) :=
  ⟨hdb.1, hdb.2.update, hdb.3, hdb.4⟩

theorem revokeToken (hdb : KnownRows K db) (m : Uuid) (now : Time) :
    KnownRows K (db.revokeToken m now) :=
  ⟨hdb.1, hdb.2, hdb.3.update, hdb.4.update⟩

theorem revokeFamily (hdb : KnownRows K db) (f : Uuid) (tokens : List Uuid) (time : Time) :
    KnownRows K (db.revokeFamily f tokens time) :=
  ⟨hdb.1.update, hdb.2.update, hdb.3.update, hdb.4.update⟩

theorem disableToken (hdb : KnownRows K db) (m : Uuid) (now : Time) :
    KnownRows K (db.disableToken m now) :=
  ⟨hdb.1, hdb.2, hdb.3, hdb.4.update⟩

theorem addToken (hdb : KnownRows K db) {token : McpToken} (ht : K token.id) :
    KnownRows K (db.addToken token) :=
  ⟨hdb.1, hdb.2, hdb.3, hdb.4.insert ht⟩

theorem useToken (hdb : KnownRows K db) (m : Uuid) (now : Time) :
    KnownRows K (db.useToken m now) :=
  ⟨hdb.1, hdb.2, hdb.3, hdb.4.update⟩

end KnownRows

theorem KnownRows.step (hk : KnownRows (Known d base h) (after base h)) (hs : Step d base h e) :
    KnownRows (Known d base (h ++ [e])) e.db := by
  replace hk : KnownRows (Known d base (h ++ [e])) (after base h) := hk.mono fun _ => Known.snoc
  have known : ∀ n ∈ ids e.label, Known d base (h ++ [e]) n := fun n => known_of_mem_ids
  rcases hs.coreChange with ⟨-, -, hdb⟩ | ⟨codeId, i, code, hl, -, hdb⟩ |
    ⟨parent, m, readAt, now, i, r, hl, -, hdb⟩ | ⟨f, tokens, time, -, -, -, -, -, hdb⟩ |
    ⟨f, token, tokens, time, now, -, -, -, -, -, -, hdb⟩ | ⟨token, row, now, -, -, -, -, -, hdb⟩ |
    ⟨token, secret, hl, -, -, -, -, hdb⟩ | ⟨token, now, -, -, hdb⟩
  · exact hk.congr hdb
  · rw [hl] at known
    exact ((hk.openFamily (known _ (by simp [ids]))).issue (known _ (by simp [ids]))
      (known _ (by simp [ids]))).congr hdb
  · rw [hl] at known
    exact (((hk.markRotated parent now).revokeToken m now).issue (known _ (by simp [ids]))
      (known _ (by simp [ids]))).congr hdb
  · exact (hk.revokeFamily f tokens time).congr hdb
  · exact ((hk.revokeFamily f tokens time).disableToken token now).congr hdb
  · exact (hk.disableToken token now).congr hdb
  · rw [hl] at known
    exact (hk.addToken (known _ (by simp [ids]))).congr hdb
  · exact (hk.useToken token now).congr hdb

/-! ### Columns that never change -/

/-- The same rows, up to the columns that may change. -/
structure SameRows (a b : Db) : Prop where
  tokenFamilies : ∀ k, (b.tokenFamilies.get k).map (·.id) = (a.tokenFamilies.get k).map (·.id)
  refreshTokens : ∀ k, (b.refreshTokens.get k).map (·.core) = (a.refreshTokens.get k).map (·.core)
  accessTokens : ∀ k, (b.accessTokens.get k).map (·.core) = (a.accessTokens.get k).map (·.core)
  mcpTokens : ∀ k, (b.mcpTokens.get k).map (·.core) = (a.mcpTokens.get k).map (·.core)

namespace SameRows

variable {a b c db : Db}

theorem trans (hab : SameRows a b) (hbc : SameRows b c) : SameRows a c :=
  ⟨fun k => (hbc.1 k).trans (hab.1 k), fun k => (hbc.2 k).trans (hab.2 k),
    fun k => (hbc.3 k).trans (hab.3 k), fun k => (hbc.4 k).trans (hab.4 k)⟩

theorem markRotated (r : Uuid) (now : Time) : SameRows db (db.markRotated r now) :=
  ⟨fun _ => rfl, Table.map_get_update OAuthRefreshToken.core _ fun _ => rfl, fun _ => rfl, fun _ => rfl⟩

theorem revokeToken (m : Uuid) (now : Time) : SameRows db (db.revokeToken m now) :=
  ⟨fun _ => rfl, fun _ => rfl, Table.map_get_update OAuthAccessToken.core _ fun _ => rfl,
    Table.map_get_update McpToken.core _ fun _ => rfl⟩

theorem revokeFamily (f : Uuid) (tokens : List Uuid) (time : Time) :
    SameRows db (db.revokeFamily f tokens time) :=
  ⟨Table.map_get_update OAuthTokenFamily.id _ fun _ => rfl, Table.map_get_update OAuthRefreshToken.core _ fun _ => rfl,
    Table.map_get_update OAuthAccessToken.core _ fun _ => rfl, Table.map_get_update McpToken.core _ fun _ => rfl⟩

theorem disableToken (m : Uuid) (now : Time) : SameRows db (db.disableToken m now) :=
  ⟨fun _ => rfl, fun _ => rfl, fun _ => rfl, Table.map_get_update McpToken.core _ fun _ => rfl⟩

theorem useToken (m : Uuid) (now : Time) : SameRows db (db.useToken m now) :=
  ⟨fun _ => rfl, fun _ => rfl, fun _ => rfl, Table.map_get_update McpToken.core _ fun _ => rfl⟩

end SameRows

theorem exists_of_map_eq {ρ γ : Type} {c : ρ → γ} {x y : Option ρ} {r : ρ}
    (h : x.map c = y.map c) (hx : x = some r) : ∃ s, y = some s ∧ c s = c r := by
  rw [hx, Option.map_some] at h
  exact Option.map_eq_some_iff.1 h.symm

/-! ### Links -/

/-- Refresh tokens, access links and OAuth tokens correspond to each other. -/
structure Linked (db : Db) : Prop where
  family : ∀ k r, db.refreshTokens.get k = some r → db.tokenFamilies.get r.familyId ≠ none
  token : ∀ k r, db.refreshTokens.get k = some r → ∃ m token, r.mcpTokenId = some m ∧
    db.mcpTokens.get m = some token ∧ token.kind = .oauth ∧ token.userId = r.userId
  link : ∀ k r m, db.refreshTokens.get k = some r → r.mcpTokenId = some m →
    ∃ link, db.accessTokens.get m = some link ∧ link.refreshTokenId = k ∧
      link.clientId = r.clientId ∧ link.resource = r.resource
  refresh : ∀ m link, db.accessTokens.get m = some link →
    ∃ r, db.refreshTokens.get link.refreshTokenId = some r ∧ r.mcpTokenId = some m
  oauth : ∀ m token, db.mcpTokens.get m = some token → token.kind = .oauth →
    db.accessTokens.get m ≠ none

namespace Linked

variable {db a b : Db}

theorem congr (hab : SameCore a b) (ha : Linked a) : Linked b := by
  obtain ⟨hf, hr, hl, hm⟩ := hab
  exact ⟨hf ▸ hr ▸ ha.family, hr ▸ hm ▸ ha.token, hr ▸ hl ▸ ha.link, hr ▸ hl ▸ ha.refresh,
    hm ▸ hl ▸ ha.oauth⟩

theorem sameRows (hab : SameRows a b) (ha : Linked a) : Linked b where
  family := by
    intro k r hr hnone
    obtain ⟨s, hs, hcore⟩ := exists_of_map_eq (hab.refreshTokens k) hr
    have hfam : s.familyId = r.familyId :=
      (congrArg OAuthRefreshToken.familyId hcore :)
    have hmap := hab.tokenFamilies r.familyId
    rw [hnone, Option.map_none, eq_comm, Option.map_eq_none_iff] at hmap
    exact ha.family k s hs (hfam ▸ hmap)
  token := by
    intro k r hr
    obtain ⟨s, hs, hcore⟩ := exists_of_map_eq (hab.refreshTokens k) hr
    obtain ⟨m, token, hm, htoken, hkind, huser⟩ := ha.token k s hs
    obtain ⟨token', htoken', hcore'⟩ := exists_of_map_eq (hab.mcpTokens m).symm htoken
    exact ⟨m, token', (congrArg OAuthRefreshToken.mcpTokenId hcore :).symm.trans hm, htoken',
      (congrArg McpToken.kind hcore' :).trans hkind,
      (congrArg McpToken.userId hcore' :).trans
        (huser.trans (congrArg OAuthRefreshToken.userId hcore :))⟩
  link := by
    intro k r m hr hm
    obtain ⟨s, hs, hcore⟩ := exists_of_map_eq (hab.refreshTokens k) hr
    obtain ⟨link, hlink, hk, hclient, hres⟩ :=
      ha.link k s m hs ((congrArg OAuthRefreshToken.mcpTokenId hcore :).trans hm)
    obtain ⟨link', hlink', hcore'⟩ := exists_of_map_eq (hab.accessTokens m).symm hlink
    exact ⟨link', hlink', (congrArg OAuthAccessToken.refreshTokenId hcore' :).trans hk,
      (congrArg OAuthAccessToken.clientId hcore' :).trans
        (hclient.trans (congrArg OAuthRefreshToken.clientId hcore :)),
      (congrArg OAuthAccessToken.resource hcore' :).trans
        (hres.trans (congrArg OAuthRefreshToken.resource hcore :))⟩
  refresh := by
    intro m link hlink
    obtain ⟨link', hlink', hcore'⟩ := exists_of_map_eq (hab.accessTokens m) hlink
    obtain ⟨r, hr, hm⟩ := ha.refresh m link' hlink'
    obtain ⟨s, hs, hcore⟩ := exists_of_map_eq (hab.refreshTokens _).symm hr
    have hid : link'.refreshTokenId = link.refreshTokenId :=
      (congrArg OAuthAccessToken.refreshTokenId hcore' :)
    exact ⟨s, hid ▸ hs, (congrArg OAuthRefreshToken.mcpTokenId hcore :).trans hm⟩
  oauth := by
    intro m token htoken hkind hnone
    obtain ⟨token', htoken', hcore⟩ := exists_of_map_eq (hab.mcpTokens m) htoken
    have hmap := hab.accessTokens m
    rw [hnone, Option.map_none, eq_comm, Option.map_eq_none_iff] at hmap
    exact ha.oauth m token' htoken' ((congrArg McpToken.kind hcore :).trans hkind) hmap

theorem openFamily (ha : Linked db) (f : Uuid) : Linked (db.openFamily f) where
  family := by
    intro k r hr hnone
    have hfam := ha.family k r hr
    obtain ⟨fam, hfam⟩ := Option.ne_none_iff_exists'.1 hfam
    have hget : (db.openFamily f).tokenFamilies.get r.familyId = some fam :=
      Table.get_insert_of_get hfam
    rw [hget] at hnone
    cases hnone
  token := ha.token
  link := ha.link
  refresh := ha.refresh
  oauth := ha.oauth

theorem addToken (ha : Linked db) {token : McpToken} (hkind : token.kind = .static)
    (hnew : db.mcpTokens.get token.id = none) : Linked (db.addToken token) where
  family := ha.family
  token := by
    intro k r hr
    obtain ⟨m, token', hm, htoken, h⟩ := ha.token k r hr
    exact ⟨m, token', hm, Table.get_insert_of_get htoken, h⟩
  link := ha.link
  refresh := ha.refresh
  oauth := by
    intro m token' htoken hk
    rw [Db.addToken, Table.get_insert hnew] at htoken
    split at htoken
    · cases htoken
      rw [hkind] at hk
      cases hk
    · exact ha.oauth m token' htoken hk

theorem issue (ha : Linked db) {i : Issue} (hfam : db.tokenFamilies.get i.familyId ≠ none)
    (hm : db.mcpTokens.get i.accessId = none) (hl : db.accessTokens.get i.accessId = none)
    (hr : db.refreshTokens.get i.refreshId = none) : Linked (db.issue d i) := by
  have getM : ∀ k, (db.issue d i).mcpTokens.get k =
      if i.accessId = k then some (i.accessRecord d) else db.mcpTokens.get k :=
    Table.get_insert (r := i.accessRecord d) hm
  have getL : ∀ k, (db.issue d i).accessTokens.get k =
      if i.accessId = k then some i.accessLink else db.accessTokens.get k :=
    Table.get_insert (r := i.accessLink) hl
  have getR : ∀ k, (db.issue d i).refreshTokens.get k =
      if i.refreshId = k then some (i.refreshRecord d) else db.refreshTokens.get k :=
    Table.get_insert (r := i.refreshRecord d) hr
  constructor
  · intro k r hk
    rw [getR] at hk
    split at hk
    · cases hk; exact hfam
    · exact ha.family k r hk
  · intro k r hk
    rw [getR] at hk
    split at hk
    · cases hk
      exact ⟨i.accessId, i.accessRecord d, rfl, by rw [getM, if_pos rfl], rfl, rfl⟩
    · obtain ⟨m, token, hmem, htoken, h⟩ := ha.token k r hk
      refine ⟨m, token, hmem, ?_, h⟩
      rw [getM, if_neg (fun heq => by rw [heq, htoken] at hm; cases hm), htoken]
  · intro k r m hk hmem
    rw [getR] at hk
    split at hk
    · rename_i hid
      cases hk
      cases hmem
      exact ⟨i.accessLink, by rw [getL, if_pos rfl], hid, rfl, rfl⟩
    · obtain ⟨link, hlink, h⟩ := ha.link k r m hk hmem
      refine ⟨link, ?_, h⟩
      rw [getL, if_neg (fun heq => by rw [heq, hlink] at hl; cases hl), hlink]
  · intro m link hlink
    rw [getL] at hlink
    split at hlink
    · rename_i hid
      cases hlink
      exact ⟨i.refreshRecord d, by rw [getR]; exact if_pos rfl, congrArg some hid⟩
    · obtain ⟨r, hget, hmem⟩ := ha.refresh m link hlink
      refine ⟨r, ?_, hmem⟩
      rw [getR, if_neg (fun heq => by rw [heq, hget] at hr; cases hr), hget]
  · intro m token htoken hkind
    rw [getM] at htoken
    rw [getL]
    split at htoken
    · rename_i hid
      rw [if_pos hid]
      exact Option.some_ne_none _
    · rename_i hid
      rw [if_neg hid]
      exact ha.oauth m token htoken hkind

/-- The tokens of different refresh tokens are different. -/
theorem eq_of_mcpTokenId (ha : Linked db) {k k' : Uuid} {r r' : OAuthRefreshToken} {m : Uuid}
    (hr : db.refreshTokens.get k = some r) (hr' : db.refreshTokens.get k' = some r')
    (hm : r.mcpTokenId = some m) (hm' : r'.mcpTokenId = some m) : r = r' := by
  obtain ⟨link, hlink, hk, -⟩ := ha.link k r m hr hm
  obtain ⟨link', hlink', hk', -⟩ := ha.link k' r' m hr' hm'
  rw [hlink, Option.some.injEq] at hlink'
  subst hlink'
  rw [← hk, hk', hr', Option.some.injEq] at hr
  exact hr.symm

end Linked

theorem Linked.step (hk : KnownRows (Known d base h) (after base h)) (hl : Linked (after base h))
    (hs : Step d base h e) : Linked e.db := by
  rcases hs.coreChange with ⟨-, -, hdb⟩ | ⟨codeId, i, code, -, hx, hdb⟩ |
    ⟨parent, m, readAt, now, i, r, -, hx, hdb⟩ | ⟨f, tokens, time, -, -, -, -, -, hdb⟩ |
    ⟨f, token, tokens, time, now, -, -, -, -, -, -, hdb⟩ | ⟨token, row, now, -, -, -, -, -, hdb⟩ |
    ⟨token, secret, -, -, hkind, -, hid, hdb⟩ | ⟨token, now, -, -, hdb⟩
  · exact hl.congr hdb
  · refine ((hl.openFamily i.familyId).issue ?_ (hk.mcpTokens.get_eq_none hx.issues.accessId.not_known)
      (hk.accessTokens.get_eq_none hx.issues.accessId.not_known)
      (hk.refreshTokens.get_eq_none hx.issues.refreshId.not_known)).congr hdb
    have hnew := hk.tokenFamilies.get_eq_none hx.familyId.not_known
    have hget : ((after base h).openFamily i.familyId).tokenFamilies.get i.familyId =
        some ⟨i.familyId, none⟩ :=
      (Table.get_insert (r := (⟨i.familyId, none⟩ : OAuthTokenFamily)) hnew _).trans (if_pos rfl)
    rw [hget]
    exact Option.some_ne_none _
  · have hsame : SameRows (after base h) (((after base h).markRotated parent now).revokeToken m now) :=
      (SameRows.markRotated parent now).trans (SameRows.revokeToken m now)
    have known := ((hk.markRotated parent now).revokeToken m now)
    refine ((hl.sameRows hsame).issue ?_ (known.mcpTokens.get_eq_none ?_)
      (known.accessTokens.get_eq_none ?_) (known.refreshTokens.get_eq_none ?_)).congr hdb
    · obtain ⟨family, hfam, -⟩ := hx.presents.family
      rw [hx.familyId]
      exact fun hnone => Option.some_ne_none family (hfam.symm.trans hnone)
    · obtain ⟨selected, hi, -⟩ := hx.issues; exact hi.accessId.not_known
    · obtain ⟨selected, hi, -⟩ := hx.issues; exact hi.accessId.not_known
    · obtain ⟨selected, hi, -⟩ := hx.issues; exact hi.refreshId.not_known
  · exact (hl.sameRows (.revokeFamily f tokens time)).congr hdb
  · exact (hl.sameRows ((SameRows.revokeFamily f tokens time).trans (.disableToken token now))).congr
      hdb
  · exact (hl.sameRows (.disableToken token now)).congr hdb
  · exact (hl.addToken hkind (hk.mcpTokens.get_eq_none hid.not_known)).congr hdb
  · exact (hl.sameRows (.useToken token now)).congr hdb

end ForgejoMcp.OAuth
