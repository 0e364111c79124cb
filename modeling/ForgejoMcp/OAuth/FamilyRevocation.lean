import ForgejoMcp.OAuth.Origin
import ForgejoMcp.OAuth.Refinement.System

/-!
# Revocation of a family is total and permanent

Once a commit has revoked a family, every member is revoked in every later state, and no call that
starts afterwards succeeds for a member.
-/

namespace ForgejoMcp.OAuth

open Transactions

variable {d : Deployment} {base : Db} {h : List (Entry sorts)} {e : Entry sorts} {f : Uuid}
  {c : Config sorts Call Failure Result} {g : Shared sorts}

/-! ### States of a run -/

theorem reachable_inv (hc : Reachable d c) : (serial d).Inv c.shared := (verified d).inv hc

theorem stateAt_consistent (hi : (serial d).Inv g) (n : ℕ) :
    Consistent d g.base (g.history.take n) :=
  hi.start.consistent_of_valid (hi.valid.take n)

theorem stateAt_later (hi : (serial d).Inv g) {m n : ℕ} (hmn : m ≤ n) :
    Later (g.stateAt m) (g.stateAt n) :=
  Later.of_valid hi.valid hmn

theorem stateAt_later_current (hi : (serial d).Inv g) {n : ℕ} (hn : n ≤ g.history.length) :
    Later (g.stateAt n) g.current :=
  stateAt_length g ▸ stateAt_later hi hn

theorem current_linked (hi : (serial d).Inv g) : Linked g.current := (inv_consistent hi).linked

theorem current_origins (hi : (serial d).Inv g) : Origins d g.base g.history g.current :=
  hi.start.origins_of_valid hi.valid

/-- A revoked family was stored and revoked ever since. -/
theorem Later.revoked {a b : Db} (hab : Later a b) {family : OAuthTokenFamily}
    (hf : a.tokenFamilies.get f = some family) (hrev : family.revokedAt ≠ none) :
    ∃ family', b.tokenFamilies.get f = some family' ∧ family'.revokedAt ≠ none := by
  obtain ⟨family', hf', hlater⟩ := hab.tokenFamilies f family hf
  exact ⟨family', hf', hlater.revoked hrev⟩

/-- The access token of a member that is already stored is already a member. -/
theorem Linked.mem_memberTokens_of_later {a b : Db} (hla : Linked a) (hlb : Linked b)
    (hab : Later a b) {m : Uuid} (hm : m ∈ b.memberTokens f) {token : McpToken}
    (hget : a.mcpTokens.get m = some token) : m ∈ a.memberTokens f := by
  obtain ⟨token', hget', hkind⟩ := hlb.get_memberToken hm
  obtain ⟨token'', hget'', hlater⟩ := hab.mcpTokens m token hget
  rw [hget', Option.some.injEq] at hget''
  subst hget''
  obtain ⟨link, hlink⟩ := Option.ne_none_iff_exists'.1
    (hla.oauth m token hget ((congrArg McpToken.kind hlater.core :).symm.trans hkind))
  obtain ⟨r, hr, hrm⟩ := hla.refresh m link hlink
  obtain ⟨r', hr', hrl⟩ := hab.refreshTokens _ r hr
  obtain ⟨s, hs, hsm⟩ := Db.mem_memberTokens.1 hm
  have hsame : r' = s := hlb.eq_of_mcpTokenId hr' (Db.mem_lineage.1 hs).1
    ((congrArg OAuthRefreshToken.mcpTokenId hrl.core :).trans hrm) hsm
  refine Db.mem_memberTokens.2 ⟨r, Db.mem_lineage.2 ⟨?_, ?_⟩, hrm⟩
  · rw [Table.key_of_get hr]
    exact hr
  · rw [← (Db.mem_lineage.1 hs).2, ← hsame]
    exact (congrArg OAuthRefreshToken.familyId hrl.core :).symm

/-! ### Revoked families -/

/-- The family is revoked, and so are its refresh tokens, their access tokens and the links between
them. -/
structure Revoked (db : Db) (f : Uuid) : Prop where
  family : ∃ family, db.tokenFamilies.get f = some family ∧ family.revokedAt ≠ none
  refreshTokens : ∀ r ∈ db.lineage f, r.revokedAt ≠ none
  mcpTokens : ∀ r ∈ db.lineage f, ∀ m, r.mcpTokenId = some m → ∃ token,
    db.mcpTokens.get m = some token ∧ token.enabled = false ∧ token.revokedAt ≠ none
  accessTokens : ∀ r ∈ db.lineage f, ∀ link ∈ db.accessTokens, link.refreshTokenId = r.id →
    link.revokedAt ≠ none

theorem Consistent.revoked (hc : Consistent d base h) {family : OAuthTokenFamily}
    (hf : (after base h).tokenFamilies.get f = some family) (hrev : family.revokedAt ≠ none) :
    Revoked (after base h) f := by
  obtain ⟨past, newest, hchain⟩ := hc.chains f (hf ▸ Option.some_ne_none family)
  have members := hchain.closed family hf hrev
  rw [← hchain.lineage] at members
  refine ⟨⟨family, hf, hrev⟩, fun r hr => (members r hr).1,
    fun r hr m hm => ((members r hr).2 m hm).1, fun r hr link hlink hid => ?_⟩
  obtain ⟨r', hr', hm⟩ := hc.linked.refresh _ link (Table.get_of_mem hlink)
  rw [hid, (Db.mem_lineage.1 hr).1, Option.some.injEq] at hr'
  obtain ⟨link', hget, hlrev⟩ := ((members r hr).2 link.mcpTokenId (hr' ▸ hm)).2
  rw [Table.get_of_mem hlink, Option.some.injEq] at hget
  exact hget ▸ hlrev

/-- Once a family is revoked it is revoked, with every member, in every later state. -/
theorem revoked_of_le (hi : (serial d).Inv g) {n m : ℕ} {family : OAuthTokenFamily}
    (hf : (g.stateAt n).tokenFamilies.get f = some family) (hrev : family.revokedAt ≠ none)
    (hnm : n ≤ m) : Revoked (g.stateAt m) f := by
  obtain ⟨family', hf', hrev'⟩ := (stateAt_later hi hnm).revoked hf hrev
  exact (stateAt_consistent hi m).revoked hf' hrev'

/-! ### Calls for members -/

/-- The call presents a member of the family: the text of one of its tokens, or a loaded refresh
token of it. -/
def PresentsMember (d : Deployment) (db : Db) (f : Uuid) : Call → Prop
  | .authenticate plaintext _ _ | .loadAccessToken plaintext => ∃ m ∈ db.memberTokens f,
      ∃ token, db.mcpTokens.get m = some token ∧ token.tokenHash = d.hashToken plaintext
  | .loadRefreshToken _ plaintext => ∃ r ∈ db.lineage f, r.tokenHash = d.hashToken plaintext
  | .exchangeRefreshToken _ token _ => ∃ r ∈ db.lineage f, r.id = token.recordId
  | _ => False

/-- The result of a call that found or minted something. -/
def Succeeds : Result → Prop
  | .authenticated none | .accessToken none | .refreshToken none => False
  | _ => True

/-- While a member is enabled, its family has not been revoked. -/
theorem unrevoked_of_enabled (hi : (serial d).Inv g) {n m : ℕ} (hnm : n ≤ m)
    (hm : m ≤ g.history.length) {k : Uuid} (hk : k ∈ g.current.memberTokens f) {row : McpToken}
    (hrow : (g.stateAt m).mcpTokens.get k = some row) (hen : row.enabled = true)
    {family : OAuthTokenFamily} (hf : (g.stateAt n).tokenFamilies.get f = some family) :
    family.revokedAt = none := by
  by_contra hrev
  have hmem := (stateAt_consistent hi m).linked.mem_memberTokens_of_later (current_linked hi)
    (stateAt_later_current hi hm) hk hrow
  obtain ⟨r, hr, hrm⟩ := Db.mem_memberTokens.1 hmem
  obtain ⟨dead, hdead, hdis, -⟩ := (revoked_of_le hi hf hrev hnm).mcpTokens r hr k hrm
  rw [hrow, Option.some.injEq] at hdead
  rw [← hdead, hen] at hdis
  cases hdis

/-- A token accepted after the revocation is no member. -/
theorem not_accepts (hi : (serial d).Inv g) {n m : ℕ} {family : OAuthTokenFamily}
    (hf : (g.stateAt n).tokenFamilies.get f = some family) (hrev : family.revokedAt ≠ none)
    (hnm : n ≤ m) (hm : m ≤ g.history.length) {plaintext : String} {tokenId : Uuid}
    (hacc : Accepts d plaintext tokenId (g.stateAt m)) :
    ¬ ∃ m ∈ g.current.memberTokens f, ∃ token, g.current.mcpTokens.get m = some token ∧
      token.tokenHash = d.hashToken plaintext := by
  rintro ⟨k, hk, token, hget, hhash⟩
  obtain ⟨row, hrow, hrowHash, hen, -⟩ := hacc
  obtain ⟨row', hrow', hrl⟩ := (stateAt_later_current hi hm).mcpTokens _ _ hrow
  obtain ⟨token', hget', hkind⟩ := (current_linked hi).get_memberToken hk
  rw [hget, Option.some.injEq] at hget'
  -- the hash identifies the member
  obtain rfl : k = tokenId := (current_origins hi).oauth_unique hi.valid hget (hget' ▸ hkind) hrow'
    (hhash.trans (hrowHash.symm.trans (congrArg McpToken.tokenHash hrl.core :).symm))
  exact hrev (unrevoked_of_enabled hi hnm hm hk hrow hen hf)

/-- A refresh token found in an open family after the revocation is no member. -/
theorem not_mem_lineage (hi : (serial d).Inv g) {n m : ℕ} {family : OAuthTokenFamily}
    (hf : (g.stateAt n).tokenFamilies.get f = some family) (hrev : family.revokedAt ≠ none)
    (hnm : n ≤ m) (hm : m ≤ g.history.length) {k : Uuid} {r : OAuthRefreshToken}
    (hr : (g.stateAt m).refreshTokens.get k = some r) {family' : OAuthTokenFamily}
    (hf' : (g.stateAt m).tokenFamilies.get r.familyId = some family')
    (hopen : family'.revokedAt = none) : ¬ ∃ s ∈ g.current.lineage f, s.id = k := by
  rintro ⟨s, hs, rfl⟩
  obtain ⟨r', hr', hrl⟩ := (stateAt_later_current hi hm).refreshTokens _ _ hr
  rw [(Db.mem_lineage.1 hs).1, Option.some.injEq] at hr'
  obtain ⟨family'', hf'', hrev''⟩ := (stateAt_later hi hnm).revoked hf hrev
  have hsame : r.familyId = f := by
    rw [← (Db.mem_lineage.1 hs).2, hr']
    exact (congrArg OAuthRefreshToken.familyId hrl.core :).symm
  rw [hsame, hf'', Option.some.injEq] at hf'
  exact hrev'' (hf' ▸ hopen)

/-- A refresh that succeeds found the token in an open family. -/
theorem Refreshed.found {tok : StoredRefreshToken} {t n : ℕ} {pair : OAuthToken}
    (hr : Refreshed d tok t n pair g) (hi : (serial d).Inv g) :
    ∃ m, n ≤ m ∧ m ≤ g.history.length ∧ ∃ r family,
      (g.stateAt m).refreshTokens.get tok.recordId = some r ∧
      (g.stateAt m).tokenFamilies.get r.familyId = some family ∧ family.revokedAt = none := by
  obtain ⟨base, h, e, r, time, hcom, -, -, hlabel⟩ := hr
  have hstep := hcom.step hi
  have hprefix : h <+: g.history := (List.prefix_append h [e]).trans hcom.isPrefix
  have hstate : g.stateAt h.length = after base h := by
    rw [Shared.stateAt, ← List.prefix_iff_eq_take.1 hprefix, hcom.base]
  refine ⟨h.length, hcom.started, hprefix.length_le, ?_⟩
  rw [hstate]
  obtain ⟨r, hp⟩ : ∃ r, Presents base h tok.recordId r := by
    rcases hlabel with ⟨oldToken, readAt, now, i, hl, -⟩ | ⟨hl, -⟩
    · simp only [serial, Step, hl] at hstep
      obtain ⟨r, m, log, -, -, hx⟩ := hstep
      exact ⟨r, hx.presents⟩
    · simp only [serial, Step, hl] at hstep
      obtain ⟨r, log, -, hp, -⟩ := hstep
      exact ⟨r, hp⟩
  obtain ⟨family, hfam, hopen⟩ := hp.family
  exact ⟨r, family, hp.record, hfam, hopen⟩

/-- No call that starts after the revocation succeeds for a member. -/
theorem not_succeeds (hc : Reachable d c) {n : ℕ} {family : OAuthTokenFamily}
    (hf : (c.shared.stateAt n).tokenFamilies.get f = some family) (hrev : family.revokedAt ≠ none)
    {t : ℕ} {th : Thread sorts Call Failure Result} {r : Result} (ht : c.threads[t]? = some th)
    (hstart : n ≤ th.started) (hp : PresentsMember d c.shared.current f th.call)
    (hend : th.prog = some (.ret r)) : ¬ Succeeds r := by
  have hi := reachable_inv hc
  have hpost := (verified d).returned hc ht hend
  obtain ⟨call, started, prog, session⟩ := th
  intro hsucc
  cases call with
  | authenticate plaintext resource issuer =>
    obtain ⟨r', hr', hfound⟩ := hpost
    match r', hr' with
    | .ok none, hr' => cases hr'; exact hsucc
    | .ok (some token), hr' =>
      obtain ⟨base, h, e, now, record, context, -, -, -, hread, -⟩ := hfound
      obtain ⟨m, hsm, hm, hstored⟩ := hread.stored.sometime
      exact not_accepts hi hf hrev (hstart.trans hsm) hm (hread.presentable.accepts hstored) hp
  | loadAccessToken plaintext =>
    obtain ⟨r', hr', hfound⟩ := hpost
    match r', hr' with
    | .ok none, hr' => cases hr'; exact hsucc
    | .ok (some token), hr' =>
      obtain ⟨now, record, -, hpresentable, -, m, hsm, hm, hstored⟩ := hfound
      exact not_accepts hi hf hrev (hstart.trans hsm) hm (hpresentable.accepts hstored) hp
  | loadRefreshToken clientId plaintext =>
    obtain ⟨r', hr', hfound⟩ := hpost
    match r', hr' with
    | .ok none, hr' => cases hr'; exact hsucc
    | .ok (some token), hr' =>
      obtain ⟨m, hsm, hm, row, family', hrow, hhash, hf', hopen⟩ := hfound
      obtain ⟨s, hs, hsh⟩ := hp
      refine not_mem_lineage hi hf hrev (hstart.trans hsm) hm hrow hf' hopen ⟨s, hs, ?_⟩
      -- the hash identifies the member
      obtain ⟨row', hrow', hrl⟩ := (stateAt_later_current hi hm).refreshTokens _ _ hrow
      exact (current_origins hi).refresh_unique hi.valid (Db.mem_lineage.1 hs).1 hrow'
        (hsh.trans (hhash.symm.trans (congrArg OAuthRefreshToken.tokenHash hrl.core :).symm))
  | exchangeRefreshToken clientId token scopes =>
    obtain ⟨r', hr', hpost⟩ := hpost
    match r', hr' with
    | .ok pair, hr' =>
      obtain ⟨m, hsm, hm, row, family', hrow, hf', hopen⟩ := Refreshed.found hpost hi
      exact not_mem_lineage hi hf hrev (hstart.trans hsm) hm hrow hf' hopen hp
  | _ => exact hp

/-- Revocation of a family is total and permanent: from the commit after which the family is
revoked, every state has all its members revoked, and no call that starts later succeeds for a member,
whenever that was minted. -/
theorem family_revocation_total_permanent (hc : Reachable d c) {n : ℕ} {family : OAuthTokenFamily}
    (hf : (c.shared.stateAt n).tokenFamilies.get f = some family)
    (hrev : family.revokedAt ≠ none) :
    (∀ m, n ≤ m → Revoked (c.shared.stateAt m) f) ∧
    ∀ (t : ℕ) th r, c.threads[t]? = some th → n ≤ th.started →
      PresentsMember d c.shared.current f th.call → th.prog = some (.ret r) → ¬ Succeeds r :=
  ⟨fun _ hnm => revoked_of_le (reachable_inv hc) hf hrev hnm,
    fun _ _ _ ht hstart hp hend => not_succeeds hc hf hrev ht hstart hp hend⟩

/-- The sample family is revoked, and then its refresh token is presented. -/
def revokedFamilyScript : List (Cue sorts Call) :=
  sampleIssue ["read"] ++ [alone (.revokeToken 2 0), sampleRefresh 6]

theorem family_revocation_sample :
    (∀ m, 3 ≤ m → Revoked ((sampleRun revokedFamilyScript).shared.stateAt m) 2) ∧
    ∀ (t : ℕ) th r, (sampleRun revokedFamilyScript).threads[t]? = some th → 3 ≤ th.started →
      PresentsMember .sample (sampleRun revokedFamilyScript).shared.current 2 th.call →
      th.prog = some (.ret r) → ¬ Succeeds r :=
  family_revocation_total_permanent (sampleRun_reachable _)
    (show ((sampleRun revokedFamilyScript).shared.stateAt 3).tokenFamilies.get 2 =
      some ⟨2, some 0⟩ by decide +kernel) (Option.some_ne_none _)

end ForgejoMcp.OAuth
