import ForgejoMcp.OAuth.Linkage
import ForgejoMcp.OAuth.Permanence

/-!
# Token families as chains

The refresh tokens of a family, in the order in which they were minted, form a chain: every one but
the newest has been rotated, and its access token is dead.  While the family is open the newest is
live and so is its access token; once the family is revoked every member is revoked.  A commit that
does not hold the lock of a family leaves the family as it is.
-/

namespace ForgejoMcp.OAuth

open Transactions

variable {d : Deployment} {base : Db} {h : List (Entry sorts)} {e : Entry sorts}

namespace Db

variable (db : Db)

/-- The token is disabled and revoked, and so is its access link. -/
def Dead (m : Uuid) : Prop :=
  (∃ token, db.mcpTokens.get m = some token ∧ token.enabled = false ∧ token.revokedAt ≠ none) ∧
    ∃ link, db.accessTokens.get m = some link ∧ link.revokedAt ≠ none

/-- The token is enabled and unrevoked, and its access link is unrevoked. -/
def Alive (m : Uuid) : Prop :=
  (∃ token, db.mcpTokens.get m = some token ∧ token.enabled = true ∧ token.revokedAt = none) ∧
    ∃ link, db.accessTokens.get m = some link ∧ link.revokedAt = none

variable {db}

theorem mem_lineage {f : Uuid} {r : OAuthRefreshToken} :
    r ∈ db.lineage f ↔ db.refreshTokens.get r.id = some r ∧ r.familyId = f := by
  rw [lineage, Table.mem_select, decide_eq_true_iff]
  exact and_congr_left fun _ => ⟨Table.get_of_mem, Table.mem_of_get⟩

theorem mem_lineage_of_get {k : Uuid} {r : OAuthRefreshToken}
    (hr : db.refreshTokens.get k = some r) : r ∈ db.lineage r.familyId :=
  mem_lineage.2 ⟨Table.key_of_get hr ▸ hr, rfl⟩

theorem mem_memberTokens {f m : Uuid} :
    m ∈ db.memberTokens f ↔ ∃ r ∈ db.lineage f, r.mcpTokenId = some m :=
  List.mem_filterMap

theorem get_revokeFamily {f : Uuid} {family : OAuthTokenFamily} {tokens : List Uuid} {time : Time}
    (hf : db.tokenFamilies.get f = some family) :
    (db.revokeFamily f tokens time).tokenFamilies.get f =
      some { family with revokedAt := some time } := by
  rw [revokeFamily, Table.get_update, hf, Option.map_some,
    if_pos (decide_eq_true (Table.key_of_get hf))]

theorem Dead.later {a b : Db} (hab : Later a b) {m : Uuid} (hm : a.Dead m) : b.Dead m := by
  obtain ⟨⟨token, htoken, hen, hrev⟩, link, hlink, hlrev⟩ := hm
  obtain ⟨token', htoken', htl⟩ := hab.mcpTokens m token htoken
  obtain ⟨link', hlink', hll⟩ := hab.accessTokens m link hlink
  exact ⟨⟨token', htoken', htl.disabled hen, htl.revoked hrev⟩, link', hlink', hll.revoked hlrev⟩

end Db

/-- The access token of a refresh token of another family is no member. -/
theorem Linked.not_mem_memberTokens {db : Db} (hl : Linked db) {k m f : Uuid}
    {r : OAuthRefreshToken} (hr : db.refreshTokens.get k = some r) (hm : r.mcpTokenId = some m)
    (hf : r.familyId ≠ f) : m ∉ db.memberTokens f := by
  intro hmem
  obtain ⟨s, hs, hms⟩ := Db.mem_memberTokens.1 hmem
  obtain ⟨hget, hsf⟩ := Db.mem_lineage.1 hs
  rw [← hl.eq_of_mcpTokenId hr hget hm hms] at hsf
  exact hf hsf

/-- A member token exists. -/
theorem Linked.get_memberToken {db : Db} (hl : Linked db) {f m : Uuid}
    (hm : m ∈ db.memberTokens f) : ∃ token, db.mcpTokens.get m = some token ∧
      token.kind = .oauth := by
  obtain ⟨r, hr, hrm⟩ := Db.mem_memberTokens.1 hm
  obtain ⟨m', token, hm', htoken, hkind, -⟩ := hl.token _ r (Db.mem_lineage.1 hr).1
  rw [hrm, Option.some.injEq] at hm'
  exact ⟨token, hm' ▸ htoken, hkind⟩

/-! ### Commits that do not hold the lock of a family -/

/-- The family, its refresh tokens and the standing of their access tokens are the same. -/
structure SameFamily (f : Uuid) (a b : Db) : Prop where
  family : b.tokenFamilies.get f = a.tokenFamilies.get f
  lineage : b.lineage f = a.lineage f
  token : ∀ m ∈ a.memberTokens f,
    (b.mcpTokens.get m).map (·.standing) = (a.mcpTokens.get m).map (·.standing)
  link : ∀ m ∈ a.memberTokens f, b.accessTokens.get m = a.accessTokens.get m

namespace SameFamily

variable {f : Uuid} {a b c db : Db}

theorem refl (f : Uuid) (a : Db) : SameFamily f a a := ⟨rfl, rfl, fun _ _ => rfl, fun _ _ => rfl⟩

theorem memberTokens (hab : SameFamily f a b) : b.memberTokens f = a.memberTokens f := by
  rw [Db.memberTokens, hab.lineage, Db.memberTokens]

theorem trans (hab : SameFamily f a b) (hbc : SameFamily f b c) : SameFamily f a c where
  family := hbc.family.trans hab.family
  lineage := hbc.lineage.trans hab.lineage
  token := fun m hm =>
    (hbc.token m (hab.memberTokens ▸ hm)).trans (hab.token m hm)
  link := fun m hm => (hbc.link m (hab.memberTokens ▸ hm)).trans (hab.link m hm)

theorem congr (hab : SameFamily f a b) (hbc : SameCore b c) : SameFamily f a c where
  family := hbc.tokenFamilies ▸ hab.family
  lineage := (hbc.lineage f).trans hab.lineage
  token := hbc.mcpTokens ▸ hab.token
  link := hbc.accessTokens ▸ hab.link

theorem openFamily {f' : Uuid} (hne : f' ≠ f) : SameFamily f db (db.openFamily f') :=
  { refl f db with
    family := Table.get_insert_of_ne (r := (⟨f', none⟩ : OAuthTokenFamily)) hne }

theorem addToken {token : McpToken} (hm : token.id ∉ db.memberTokens f) :
    SameFamily f db (db.addToken token) :=
  { refl f db with
    token := fun _ hmem => congrArg _ (Table.get_insert_of_ne (r := token) fun h => hm (h ▸ hmem)) }

theorem issue {i : Issue} (hne : i.familyId ≠ f) (hm : i.accessId ∉ db.memberTokens f) :
    SameFamily f db (db.issue d i) where
  family := rfl
  lineage := Table.select_insert_of_false (r := i.refreshRecord d) (decide_eq_false hne)
  token := fun m hmem =>
    congrArg _ (Table.get_insert_of_ne (r := i.accessRecord d) fun h =>
      hm ((show i.accessId = m from h) ▸ hmem))
  link := fun m hmem => Table.get_insert_of_ne (r := i.accessLink) fun h =>
    hm ((show i.accessId = m from h) ▸ hmem)

theorem lineage_markRotated (k : Uuid) (now : Time) : (db.markRotated k now).lineage f =
    (db.lineage f).map fun r => if decide (r.id = k) then { r with rotatedAt := some now } else r :=
  Table.select_update fun _ => rfl

theorem markRotated {k : Uuid} {r : OAuthRefreshToken} (hr : db.refreshTokens.get k = some r)
    (hne : r.familyId ≠ f) (now : Time) : SameFamily f db (db.markRotated k now) where
  family := rfl
  lineage := by
    rw [lineage_markRotated, List.map_congr_left (g := id), List.map_id]
    intro s hs
    obtain ⟨hget, hsf⟩ := Db.mem_lineage.1 hs
    rw [if_neg]
    · rfl
    · intro hk
      rw [of_decide_eq_true hk, hr, Option.some.injEq] at hget
      exact hne (hget ▸ hsf)
  token := fun _ _ => rfl
  link := fun _ _ => rfl

theorem revokeToken {m' : Uuid} (hm : m' ∉ db.memberTokens f) (now : Time) :
    SameFamily f db (db.revokeToken m' now) where
  family := rfl
  lineage := rfl
  token := fun _ hmem => congrArg _ (Table.get_update_of_false fun _ hr =>
    decide_eq_false fun h => hm (h.1 ▸ hr ▸ hmem))
  link := fun _ hmem => Table.get_update_of_false fun _ hr =>
    decide_eq_false fun h => hm (h ▸ hr ▸ hmem)

theorem revokeFamily {f' : Uuid} {tokens : List Uuid} (hne : f' ≠ f)
    (hm : ∀ m ∈ tokens, m ∉ db.memberTokens f) (time : Time) :
    SameFamily f db (db.revokeFamily f' tokens time) where
  family := Table.get_update_of_false fun r hr => decide_eq_false fun h => hne (h ▸ hr)
  lineage := by
    have hsel : (db.revokeFamily f' tokens time).lineage f = (db.lineage f).map fun r =>
        if decide (r.familyId = f') then { r with revokedAt := some time } else r :=
      Table.select_update fun _ => rfl
    rw [hsel, List.map_congr_left (g := id), List.map_id]
    intro s hs
    rw [if_neg]
    · rfl
    · exact fun h => hne ((of_decide_eq_true h) ▸ (Db.mem_lineage.1 hs).2)
  token := fun _ hmem => congrArg _ (Table.get_update_of_false fun _ hr =>
    decide_eq_false fun h => hm _ h (hr ▸ hmem))
  link := fun _ hmem => Table.get_update_of_false fun _ hr =>
    decide_eq_false fun h => hm _ h (hr ▸ hmem)

theorem disableToken {m' : Uuid} (hm : m' ∉ db.memberTokens f) (now : Time) :
    SameFamily f db (db.disableToken m' now) :=
  { refl f db with
    token := fun _ hmem => congrArg _ (Table.get_update_of_false fun _ hr =>
      decide_eq_false fun h => hm (h ▸ hr ▸ hmem)) }

theorem useToken (m' : Uuid) (now : Time) : SameFamily f db (db.useToken m' now) :=
  { refl f db with token := fun m _ => Table.map_get_update McpToken.standing _ (fun _ => rfl) m }

theorem dead (hab : SameFamily f a b) {m : Uuid} (hm : m ∈ a.memberTokens f) (ha : a.Dead m) :
    b.Dead m := by
  obtain ⟨⟨token, htoken, hen, hrev⟩, link, hlink, hlrev⟩ := ha
  obtain ⟨token', htoken', hst⟩ := exists_of_map_eq (hab.token m hm).symm htoken
  exact ⟨⟨token', htoken', (congrArg McpToken.enabled hst :).trans hen,
    (congrArg McpToken.revokedAt hst :) ▸ hrev⟩, link, (hab.link m hm).trans hlink, hlrev⟩

theorem alive (hab : SameFamily f a b) {m : Uuid} (hm : m ∈ a.memberTokens f) (ha : a.Alive m) :
    b.Alive m := by
  obtain ⟨⟨token, htoken, hen, hrev⟩, link, hlink, hlrev⟩ := ha
  obtain ⟨token', htoken', hst⟩ := exists_of_map_eq (hab.token m hm).symm htoken
  exact ⟨⟨token', htoken', (congrArg McpToken.enabled hst :).trans hen,
    (congrArg McpToken.revokedAt hst :).trans hrev⟩, link, (hab.link m hm).trans hlink, hlrev⟩

end SameFamily

theorem Linked.not_mem_of_mem_memberTokens {db : Db} (hl : Linked db) {f f' m : Uuid}
    (hne : f' ≠ f) (hm : m ∈ db.memberTokens f') : m ∉ db.memberTokens f := by
  obtain ⟨r, hr, hrm⟩ := Db.mem_memberTokens.1 hm
  obtain ⟨hget, hrf⟩ := Db.mem_lineage.1 hr
  exact hl.not_mem_memberTokens hget hrm (hrf ▸ hne)

theorem Linked.not_mem_of_get_eq_none {db : Db} (hl : Linked db) {f m : Uuid}
    (hm : db.mcpTokens.get m = none) : m ∉ db.memberTokens f := by
  intro hmem
  obtain ⟨token, htoken, -⟩ := hl.get_memberToken hmem
  rw [hm] at htoken
  cases htoken

/-- A commit that does not hold the lock of a stored family leaves the family as it is. -/
theorem SameFamily.step (hk : KnownRows (Known d base h) (after base h)) (hl : Linked (after base h))
    (hs : Step d base h e) {f : Uuid} (hf : e.label.family? ≠ some f) :
    SameFamily f (after base h) e.db := by
  rcases hs.coreChange with ⟨-, -, hdb⟩ | ⟨codeId, i, code, he, hx, hdb⟩ |
    ⟨parent, m, readAt, now, i, r, he, hx, hdb⟩ | ⟨f', tokens, time, -, hlock, -, -, hmem, hdb⟩ |
    ⟨f', token, tokens, time, now, -, hlock, -, -, hmem, htoken, hdb⟩ |
    ⟨token, row, now, -, -, -, hrow, hkind, hdb⟩ |
    ⟨token, secret, -, -, hkind, -, hid, hdb⟩ | ⟨token, now, -, -, hdb⟩
  · exact (refl f _).congr hdb
  · have hne : i.familyId ≠ f := by
      rintro rfl
      exact hf (by rw [he]; rfl)
    have hnew := hl.not_mem_of_get_eq_none (f := f)
      (hk.mcpTokens.get_eq_none hx.issues.accessId.not_known)
    exact ((openFamily hne).trans (issue hne hnew)).congr hdb
  · have hne : r.familyId ≠ f := by
      rintro rfl
      exact hf (by rw [he, ← hx.familyId]; rfl)
    obtain ⟨selected, hi, -⟩ := hx.issues
    have hnew := hl.not_mem_of_get_eq_none (f := f)
      (hk.mcpTokens.get_eq_none hi.accessId.not_known)
    have hold := hl.not_mem_memberTokens hx.presents.record hx.oldToken_eq hne
    have hmark : SameFamily f (after base h) ((after base h).markRotated parent now) :=
      markRotated hx.presents.record hne now
    have hrev := hmark.trans (revokeToken (hmark.memberTokens.symm ▸ hold) now)
    exact (hrev.trans (issue (hx.familyId ▸ hne) (hrev.memberTokens.symm ▸ hnew))).congr hdb
  · have hne : f' ≠ f := by
      rintro rfl
      exact hf hlock
    exact (revokeFamily hne (fun m hm => hl.not_mem_of_mem_memberTokens hne (hmem ▸ hm)) time).congr
      hdb
  · have hne : f' ≠ f := by
      rintro rfl
      exact hf hlock
    have hrev : SameFamily f (after base h) ((after base h).revokeFamily f' tokens time) :=
      revokeFamily hne (fun m hm => hl.not_mem_of_mem_memberTokens hne (hmem ▸ hm)) time
    have hnot := hl.not_mem_of_mem_memberTokens hne (hmem ▸ htoken)
    exact (hrev.trans (disableToken (hrev.memberTokens.symm ▸ hnot) now)).congr hdb
  · refine (disableToken (fun hmem => ?_) now).congr hdb
    obtain ⟨row', hrow', hkind'⟩ := hl.get_memberToken hmem
    rw [hrow, Option.some.injEq] at hrow'
    exact hkind (hrow' ▸ hkind')
  · exact (addToken (hl.not_mem_of_get_eq_none
      (hk.mcpTokens.get_eq_none hid.not_known))).congr hdb
  · exact (useToken token now).congr hdb

/-! ### Chains -/

/-- The refresh tokens of the family `f` are `past`, in order, and then `newest`. -/
structure Chain (db : Db) (f : Uuid) (past : List OAuthRefreshToken) (newest : OAuthRefreshToken) :
    Prop where
  lineage : db.lineage f = past ++ [newest]
  rotated : ∀ r ∈ past, r.rotatedAt ≠ none
  unrotated : newest.rotatedAt = none
  superseded : ∀ r ∈ past, ∀ m, r.mcpTokenId = some m → db.Dead m
  live : ∀ family, db.tokenFamilies.get f = some family → family.revokedAt = none →
    (∀ r ∈ past ++ [newest], r.revokedAt = none) ∧ ∀ m, newest.mcpTokenId = some m → db.Alive m
  closed : ∀ family, db.tokenFamilies.get f = some family → family.revokedAt ≠ none →
    ∀ r ∈ past ++ [newest], r.revokedAt ≠ none ∧ ∀ m, r.mcpTokenId = some m → db.Dead m

namespace Chain

variable {db a b : Db} {f : Uuid} {past : List OAuthRefreshToken} {newest : OAuthRefreshToken}

theorem mem_memberTokens (hc : Chain db f past newest) {r : OAuthRefreshToken}
    (hr : r ∈ past ++ [newest]) {m : Uuid} (hm : r.mcpTokenId = some m) :
    m ∈ db.memberTokens f :=
  Db.mem_memberTokens.2 ⟨r, hc.lineage ▸ hr, hm⟩

theorem sameFamily (hc : Chain a f past newest) (hab : SameFamily f a b) :
    Chain b f past newest where
  lineage := hab.lineage.trans hc.lineage
  rotated := hc.rotated
  unrotated := hc.unrotated
  superseded := fun r hr m hm =>
    hab.dead (hc.mem_memberTokens (List.mem_append_left _ hr) hm) (hc.superseded r hr m hm)
  live := fun family hfam hrev => by
    obtain ⟨hall, halive⟩ := hc.live family (hab.family ▸ hfam) hrev
    exact ⟨hall, fun m hm => hab.alive
      (hc.mem_memberTokens (List.mem_append_right _ (List.mem_singleton_self _)) hm) (halive m hm)⟩
  closed := fun family hfam hrev r hr =>
    ⟨(hc.closed family (hab.family ▸ hfam) hrev r hr).1, fun m hm =>
      hab.dead (hc.mem_memberTokens hr hm) ((hc.closed family (hab.family ▸ hfam) hrev r hr).2 m hm)⟩

/-- A code exchange starts a chain. -/
theorem issued {i : Issue} (hl : Linked db) (hf : db.tokenFamilies.get i.familyId = none)
    (hm : db.mcpTokens.get i.accessId = none) (hlk : db.accessTokens.get i.accessId = none)
    (hr : db.refreshTokens.get i.refreshId = none) :
    Chain ((db.openFamily i.familyId).issue d i) i.familyId [] (i.refreshRecord d) := by
  have hempty : db.lineage i.familyId = [] := by
    refine List.eq_nil_iff_forall_not_mem.2 fun r hmem => ?_
    obtain ⟨hget, hrf⟩ := Db.mem_lineage.1 hmem
    exact hl.family _ r hget (hrf ▸ hf)
  have hlineage : ((db.openFamily i.familyId).issue d i).lineage i.familyId =
      db.lineage i.familyId ++ [i.refreshRecord d].filter fun r => r.familyId = i.familyId :=
    Table.select_insert (r := i.refreshRecord d) hr
  have hfam : ((db.openFamily i.familyId).issue d i).tokenFamilies.get i.familyId =
      some ⟨i.familyId, none⟩ :=
    (Table.get_insert (r := (⟨i.familyId, none⟩ : OAuthTokenFamily)) hf _).trans (if_pos rfl)
  refine ⟨?_, by simp, rfl, by simp, fun family _ _ => ⟨?_, ?_⟩, fun family hget hrev => ?_⟩
  · rw [hlineage, hempty]
    simp [Issue.refreshRecord]
  · intro r hr
    rw [List.nil_append, List.mem_singleton] at hr
    rw [hr]
    rfl
  · intro m hmem
    cases hmem
    exact ⟨⟨i.accessRecord d, (Table.get_insert (r := i.accessRecord d) hm _).trans (if_pos rfl),
      rfl, rfl⟩, i.accessLink, (Table.get_insert (r := i.accessLink) hlk _).trans (if_pos rfl), rfl⟩
  · rw [hfam, Option.some.injEq] at hget
    exact absurd (hget ▸ rfl) hrev

theorem dead_revokeToken {m : Uuid} (hm : db.Alive m) (now : Time) :
    (db.revokeToken m now).Dead m := by
  obtain ⟨⟨token, htoken, -, hrev⟩, link, hlink, -⟩ := hm
  refine ⟨⟨{ token with enabled := false, revokedAt := some now }, ?_, rfl,
    Option.some_ne_none _⟩, { link with revokedAt := some now }, ?_, Option.some_ne_none _⟩
  · have hid := Table.key_of_get htoken
    rw [Db.revokeToken, Table.get_update, htoken, Option.map_some, if_pos (by simp [hid, hrev])]
  · have hid := Table.key_of_get hlink
    rw [Db.revokeToken, Table.get_update, hlink, Option.map_some, if_pos (by simp [hid])]

/-- The only refresh token of a chain that is not rotated is the newest. -/
theorem eq_newest (hc : Chain db f past newest) {k : Uuid} {r : OAuthRefreshToken}
    (hr : db.refreshTokens.get k = some r) (hf : r.familyId = f) (hun : r.rotatedAt = none) :
    r = newest := by
  have hmem : r ∈ past ++ [newest] := hc.lineage ▸ hf ▸ Db.mem_lineage_of_get hr
  rcases List.mem_append.1 hmem with hp | hn
  · exact absurd hun (hc.rotated r hp)
  · exact List.mem_singleton.1 hn

/-- A rotation of the newest refresh token extends the chain. -/
theorem rotate (hc : Chain db f past newest) {i : Issue} (hif : i.familyId = f)
    {fam : OAuthTokenFamily} (hfam : db.tokenFamilies.get f = some fam) (hopen : fam.revokedAt = none)
    {k m : Uuid} (hr : db.refreshTokens.get k = some newest) (hm : newest.mcpTokenId = some m)
    (hM : db.mcpTokens.get i.accessId = none) (hL : db.accessTokens.get i.accessId = none)
    (hR : db.refreshTokens.get i.refreshId = none) (now : Time) :
    Chain (((db.markRotated k now).revokeToken m now).issue d i) f
      (past ++ [{ newest with rotatedAt := some now }]) (i.refreshRecord d) := by
  have hlater : Later (db.markRotated k now) (((db.markRotated k now).revokeToken m now).issue d i) :=
    (Later.revokeToken m now).trans (Later.issue i)
  have hall : Later db (((db.markRotated k now).revokeToken m now).issue d i) :=
    (Later.markRotated hr hc.unrotated now).trans hlater
  have hMnew : ((db.markRotated k now).revokeToken m now).mcpTokens.get i.accessId = none := by
    rw [Db.revokeToken, Table.get_update, Db.markRotated, hM, Option.map_none]
  have hLnew : ((db.markRotated k now).revokeToken m now).accessTokens.get i.accessId = none := by
    rw [Db.revokeToken, Table.get_update, Db.markRotated, hL, Option.map_none]
  have hRnew : (db.markRotated k now).refreshTokens.get i.refreshId = none := by
    rw [Db.markRotated, Table.get_update, hR, Option.map_none]
  obtain ⟨hunrevoked, halive⟩ := hc.live fam hfam hopen
  have hpast : ∀ s ∈ past, s.id ≠ k := by
    intro s hs hk
    have hget := (Db.mem_lineage.1 (hc.lineage ▸ List.mem_append_left [newest] hs)).1
    rw [hk, hr, Option.some.injEq] at hget
    exact hc.rotated s hs (hget ▸ hc.unrotated)
  have hlineage : (((db.markRotated k now).revokeToken m now).issue d i).lineage f =
      (past ++ [{ newest with rotatedAt := some now }]) ++ [i.refreshRecord d] := by
    have hins : (((db.markRotated k now).revokeToken m now).issue d i).lineage f =
        (db.markRotated k now).lineage f ++ [i.refreshRecord d].filter fun r => r.familyId = f :=
      Table.select_insert (r := i.refreshRecord d) hRnew
    rw [hins, SameFamily.lineage_markRotated, hc.lineage, List.map_append,
      List.map_congr_left (g := id) fun s hs => by simp [hpast s hs], List.map_id]
    simp [Table.key_of_get hr, Issue.refreshRecord, hif]
  refine ⟨hlineage, ?_, rfl, ?_, fun family _ _ => ⟨?_, ?_⟩, fun family hget hrev => ?_⟩
  · intro s hs
    rcases List.mem_append.1 hs with hs | hs
    · exact hc.rotated s hs
    · rw [List.mem_singleton.1 hs]
      exact Option.some_ne_none now
  · intro s hs m' hm'
    rcases List.mem_append.1 hs with hs | hs
    · exact (hc.superseded s hs m' hm').later hall
    · rw [List.mem_singleton.1 hs] at hm'
      rw [hm, Option.some.injEq] at hm'
      subst hm'
      have halive' : (db.markRotated k now).Alive m := halive m hm
      exact (dead_revokeToken halive' now).later (Later.issue i)
  · intro s hs
    rcases List.mem_append.1 hs with hs | hs
    · rcases List.mem_append.1 hs with hs | hs
      · exact hunrevoked s (List.mem_append_left _ hs)
      · rw [List.mem_singleton.1 hs]
        exact hunrevoked newest (List.mem_append_right _ (List.mem_singleton_self _))
    · rw [List.mem_singleton.1 hs]
      rfl
  · intro m' hm'
    cases hm'
    exact ⟨⟨i.accessRecord d, (Table.get_insert (r := i.accessRecord d) hMnew _).trans (if_pos rfl),
      rfl, rfl⟩, i.accessLink, (Table.get_insert (r := i.accessLink) hLnew _).trans (if_pos rfl),
      rfl⟩
  · have hsame : db.tokenFamilies.get f = some family := hget
    rw [hfam, Option.some.injEq] at hsame
    exact absurd (hsame ▸ hopen) hrev

/-- A revocation closes the chain. -/
theorem revoke (hc : Chain db f past newest) (hl : Linked db)
    (hf : db.tokenFamilies.get f ≠ none) (time : Time) :
    Chain (db.revokeFamily f (db.memberTokens f) time) f
      (past.map fun r => { r with revokedAt := some time })
      { newest with revokedAt := some time } ∧
    ∃ family, (db.revokeFamily f (db.memberTokens f) time).tokenFamilies.get f = some family ∧
      family.revokedAt ≠ none := by
  obtain ⟨fam, hfam⟩ := Option.ne_none_iff_exists'.1 hf
  have hget : (db.revokeFamily f (db.memberTokens f) time).tokenFamilies.get f =
      some { fam with revokedAt := some time } := Db.get_revokeFamily hfam
  have hdead : ∀ m ∈ db.memberTokens f, (db.revokeFamily f (db.memberTokens f) time).Dead m := by
    intro m hm
    obtain ⟨r, hr, hrm⟩ := Db.mem_memberTokens.1 hm
    obtain ⟨token, htoken, -⟩ := hl.get_memberToken hm
    obtain ⟨link, hlink, -⟩ := hl.link _ r m (Db.mem_lineage.1 hr).1 hrm
    refine ⟨⟨{ token with enabled := false, revokedAt := some time }, ?_, rfl,
      Option.some_ne_none _⟩, { link with revokedAt := some time }, ?_, Option.some_ne_none _⟩
    · rw [Db.revokeFamily, Table.get_update, htoken, Option.map_some,
        if_pos (decide_eq_true (Table.key_of_get htoken ▸ hm))]
    · rw [Db.revokeFamily, Table.get_update, hlink, Option.map_some,
        if_pos (decide_eq_true (Table.key_of_get hlink ▸ hm))]
  have hlineage : (db.revokeFamily f (db.memberTokens f) time).lineage f =
      (db.lineage f).map fun r => { r with revokedAt := some time } := by
    have hsel : (db.revokeFamily f (db.memberTokens f) time).lineage f = (db.lineage f).map
        fun r => if decide (r.familyId = f) then { r with revokedAt := some time } else r :=
      Table.select_update fun _ => rfl
    rw [hsel]
    exact List.map_congr_left fun r hr => if_pos (decide_eq_true (Db.mem_lineage.1 hr).2)
  have hmember : ∀ r ∈ past ++ [newest], ∀ m, r.mcpTokenId = some m →
      (db.revokeFamily f (db.memberTokens f) time).Dead m :=
    fun r hr m hm => hdead m (hc.mem_memberTokens hr hm)
  refine ⟨⟨?_, ?_, hc.unrotated, ?_, fun family hfam' hopen => ?_, fun family _ _ r hr => ?_⟩,
    _, hget, Option.some_ne_none _⟩
  · rw [hlineage, hc.lineage, List.map_append, List.map_singleton]
  · intro r hr
    obtain ⟨s, hs, rfl⟩ := List.mem_map.1 hr
    exact hc.rotated s hs
  · intro r hr m hm
    obtain ⟨s, hs, rfl⟩ := List.mem_map.1 hr
    exact hmember s (List.mem_append_left _ hs) m hm
  · rw [hget, Option.some.injEq] at hfam'
    subst hfam'
    cases hopen
  · rcases List.mem_append.1 hr with hr | hr
    · obtain ⟨s, hs, rfl⟩ := List.mem_map.1 hr
      exact ⟨Option.some_ne_none time, hmember s (List.mem_append_left _ hs)⟩
    · rw [List.mem_singleton.1 hr]
      exact ⟨Option.some_ne_none time,
        hmember newest (List.mem_append_right _ (List.mem_singleton_self _))⟩

/-- Disabling a member of a revoked family changes nothing about the chain. -/
theorem disable (hc : Chain db f past newest) {family : OAuthTokenFamily}
    (hf : db.tokenFamilies.get f = some family) (hrev : family.revokedAt ≠ none) (m : Uuid)
    (now : Time) : Chain (db.disableToken m now) f past newest where
  lineage := hc.lineage
  rotated := hc.rotated
  unrotated := hc.unrotated
  superseded := fun r hr m' hm' => (hc.superseded r hr m' hm').later (.disableToken m now)
  live := fun family' hf' hopen => by
    have hsame : db.tokenFamilies.get f = some family' := hf'
    rw [hf, Option.some.injEq] at hsame
    exact absurd (hsame ▸ hopen) hrev
  closed := fun family' hf' hrev' r hr =>
    ⟨(hc.closed family' hf' hrev' r hr).1, fun m' hm' =>
      ((hc.closed family' hf' hrev' r hr).2 m' hm').later (.disableToken m now)⟩

theorem congr (hc : Chain a f past newest) (hab : SameCore a b) : Chain b f past newest :=
  hc.sameFamily ((SameFamily.refl f a).congr hab)

end Chain

/-- Every stored family is a chain. -/
def Chains (db : Db) : Prop :=
  ∀ f, db.tokenFamilies.get f ≠ none → ∃ past newest, Chain db f past newest

theorem Chains.step (hk : KnownRows (Known d base h) (after base h)) (hl : Linked (after base h))
    (hc : Chains (after base h)) (hs : Step d base h e) : Chains e.db := by
  intro f hstored
  by_cases hf : e.label.family? = some f
  · rcases hs.coreChange with ⟨-, hno, -⟩ | ⟨codeId, i, code, he, hx, hdb⟩ |
      ⟨parent, m, readAt, now, i, r, he, hx, hdb⟩ | ⟨f', tokens, time, -, hlock, -, hst, hmem, hdb⟩ |
      ⟨f', token, tokens, time, now, -, hlock, -, hst, hmem, -, hdb⟩ |
      ⟨token, row, now, -, hno, -, -, -, -⟩ | ⟨token, secret, -, hno, -, -, -, -⟩ |
      ⟨token, now, -, hno, -⟩
    · rw [hno] at hf; cases hf
    · rw [he] at hf
      cases hf
      exact ⟨[], _, (Chain.issued hl (hk.tokenFamilies.get_eq_none hx.familyId.not_known)
        (hk.mcpTokens.get_eq_none hx.issues.accessId.not_known)
        (hk.accessTokens.get_eq_none hx.issues.accessId.not_known)
        (hk.refreshTokens.get_eq_none hx.issues.refreshId.not_known)).congr hdb⟩
    · rw [he] at hf
      cases hf
      obtain ⟨fam, hfam, hopen⟩ := hx.presents.family
      obtain ⟨past, newest, hchain⟩ := hc r.familyId (hfam ▸ Option.some_ne_none fam)
      have hnew := hchain.eq_newest hx.presents.record rfl hx.unrotated
      subst hnew
      obtain ⟨selected, hi, -⟩ := hx.issues
      rw [hx.familyId]
      exact ⟨_, _, (hchain.rotate hx.familyId hfam hopen hx.presents.record hx.oldToken_eq
        (hk.mcpTokens.get_eq_none hi.accessId.not_known)
        (hk.accessTokens.get_eq_none hi.accessId.not_known)
        (hk.refreshTokens.get_eq_none hi.refreshId.not_known) now).congr hdb⟩
    · rw [hlock] at hf
      cases hf
      subst hmem
      obtain ⟨past, newest, hchain⟩ := hc f hst
      exact ⟨_, _, (hchain.revoke hl hst time).1.congr hdb⟩
    · rw [hlock] at hf
      cases hf
      subst hmem
      obtain ⟨past, newest, hchain⟩ := hc f hst
      obtain ⟨hclosed, family, hfam, hrev⟩ := hchain.revoke hl hst time
      exact ⟨_, _, (hclosed.disable hfam hrev token now).congr hdb⟩
    · rw [hno] at hf; cases hf
    · rw [hno] at hf; cases hf
    · rw [hno] at hf; cases hf
  · -- the lock of the family is not held, so the chain is kept
    have hsame := SameFamily.step hk hl hs hf
    obtain ⟨past, newest, hchain⟩ := hc f (hsame.family ▸ hstored)
    exact ⟨past, newest, hchain.sameFamily hsame⟩

end ForgejoMcp.OAuth
