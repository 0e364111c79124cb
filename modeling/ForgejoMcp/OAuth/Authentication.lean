import ForgejoMcp.OAuth.FamilyRevocation

/-!
# Bearer authentication against revocation

An authentication that succeeds commits its conditional update of the token.  Up to that commit
neither the token nor its family was revoked, and what the authentication read before it held in
states since it started.
-/

namespace ForgejoMcp.OAuth

open Transactions

variable {d : Deployment} {c : Config sorts Call Failure Result} {g : Shared sorts} {m n t : ℕ}

/-- Where the token is stored it is enabled and not revoked; `families` are those it belongs to, and
none of them is revoked. -/
structure Standing (tokenId : Uuid) (families : Uuid → Prop) (db : Db) : Prop where
  token : ∀ row, db.mcpTokens.get tokenId = some row → row.enabled = true ∧ row.revokedAt = none
  family : ∀ f row, families f → db.tokenFamilies.get f = some row → row.revokedAt = none

/-- A token that is enabled and not revoked after `m` commits was so before. -/
theorem standing_of_le (hi : (serial d).Inv g) (hnm : n ≤ m) (hm : m ≤ g.history.length)
    {tokenId : Uuid} {row : McpToken} (hrow : (g.stateAt m).mcpTokens.get tokenId = some row)
    (hen : row.enabled = true) (hun : row.revokedAt = none) :
    Standing tokenId (fun f => tokenId ∈ g.current.memberTokens f) (g.stateAt n) where
  token := fun old hold => by
    obtain ⟨row', hrow', hlater⟩ := (stateAt_later hi hnm).mcpTokens _ _ hold
    rw [hrow, Option.some.injEq] at hrow'
    subst hrow'
    refine ⟨?_, not_not.1 fun hrev => hlater.revoked hrev hun⟩
    rw [← Bool.not_eq_false]
    exact fun hdis => Bool.false_ne_true ((hlater.disabled hdis).symm.trans hen)
  family := fun f family hmem hf => unrevoked_of_enabled hi hnm hm hmem hrow hen hf

/-! ### Tokens of the OAuth flow -/

/-- The row of the token with the secret of an issued pair is the access token of the pair. -/
theorem access_of_secret (hi : (serial d).Inv g) {i : Issue} (hissued : Issued g.history i)
    (hm : m ≤ g.history.length) {k : Uuid} {record : McpToken}
    (hrecord : (g.stateAt m).mcpTokens.get k = some record)
    (hhash : record.tokenHash = d.hashToken (d.newMcpToken i.accessSecret)) :
    k = i.accessId ∧ record.kind = .oauth := by
  obtain ⟨-, token, -, -, hget, hcore⟩ := hi.start.stored hi.valid hissued
  have hkind : token.kind = .oauth := (congrArg McpToken.kind hcore.core :)
  obtain ⟨row, hrow, hlater⟩ := (stateAt_later_current hi hm).mcpTokens _ _ hrecord
  obtain rfl : i.accessId = k := (current_origins hi).oauth_unique hi.valid hget hkind hrow
    ((congrArg McpToken.tokenHash hcore.core :).trans
      (hhash.symm.trans (congrArg McpToken.tokenHash hlater.core :).symm))
  have hsame := hrow.symm.trans hget
  rw [Option.some.injEq] at hsame
  exact ⟨rfl, (congrArg McpToken.kind hlater.core :).symm.trans (hsame ▸ hkind)⟩

/-- The link of the access token of a pair leads to the family of the pair. -/
theorem family_of_link (hi : (serial d).Inv g) {i : Issue} (hissued : Issued g.history i)
    {a b : ℕ} (ha : a ≤ g.history.length) (hb : b ≤ g.history.length) {link : OAuthAccessToken}
    (hlink : (g.stateAt a).accessTokens.get i.accessId = some link) {refresh : OAuthRefreshToken}
    (hrefresh : (g.stateAt b).refreshTokens.get link.refreshTokenId = some refresh) :
    refresh.familyId = i.familyId := by
  obtain ⟨link', hlink', hll⟩ := (stateAt_later_current hi ha).accessTokens _ _ hlink
  obtain ⟨r', hr', hrl⟩ := (stateAt_later_current hi hb).refreshTokens _ _ hrefresh
  obtain ⟨r, hr, hm⟩ := (current_linked hi).refresh _ _ hlink'
  have hid : link'.refreshTokenId = link.refreshTokenId :=
    (congrArg OAuthAccessToken.refreshTokenId hll.core :)
  rw [hid, hr', Option.some.injEq] at hr
  subst hr
  -- the refresh token comes from a pair with the same access token
  obtain ⟨j, hj, -, hcore⟩ := (current_origins hi).refresh _ _ hr'
  have haccess : r'.mcpTokenId = some j.accessId := (congrArg OAuthRefreshToken.mcpTokenId hcore :)
  rw [hm, Option.some.injEq] at haccess
  obtain rfl : i = j := hissued.unique hi.valid hj (n := i.accessId) (by simp [Issue.numbers])
    (by simp [Issue.numbers, haccess])
  exact (congrArg OAuthRefreshToken.familyId hrl.core :).symm.trans
    (congrArg OAuthRefreshToken.familyId hcore :)

theorem ContextRead.issued (hi : (serial d).Inv g) {resource : Option String} {k : ℕ}
    {record : McpToken} {context : Option (List String × String × Uuid)}
    (hc : ContextRead resource (fun P => Serial.Between n k P g) record context) {i : Issue}
    (hissued : Issued g.history i) (hid : record.id = i.accessId) (hkind : record.kind = .oauth)
    (issuer : Option String) :
    (authenticatedToken record issuer context).familyId = some i.familyId := by
  cases hc with
  | static hstatic _ =>
    rw [hkind] at hstatic
    cases hstatic
  | @oauth link refresh family _ linked _ _ refreshed _ opened _ =>
    obtain ⟨a, -, ha, hk, hlink⟩ := linked
    obtain ⟨b, -, hb, -, hrefresh⟩ := refreshed
    obtain ⟨_, -, -, -, hfamily⟩ := opened
    have hf := family_of_link hi hissued (ha.trans hk) (hb.trans hk) (hid ▸ hlink) hrefresh
    exact congrArg some ((Table.key_of_get hfamily).trans hf)

/-! ### The theorem -/

/-- Bearer authentication is sound against revocation.  If `authenticate` succeeds, its conditional
update committed on a state in which the token was enabled and unrevoked; in that state and all
before it neither the token nor a family it belongs to was revoked.  What it read in between, of
the token, its owner, the link, the refresh token and the family, is `TokenRead` and `ContextRead`.
A token of the OAuth flow is accepted only as the OAuth token of its family. -/
theorem authenticate_sound (hc : Reachable d c) {th : Thread sorts Call Failure Result}
    (ht : c.threads[t]? = some th) {plaintext : String} {resource issuer : Option String}
    (hcall : th.call = .authenticate plaintext resource issuer) {token : AuthenticatedMcpToken}
    (hend : th.prog = some (.ret (.authenticated (some token)))) :
    ∃ k e now record context,
      (c.shared.history[k]? = some e ∧ e.tid = some t ∧ e.label = .used token.tokenId ∧
        th.started ≤ k) ∧
      (∃ row, (c.shared.stateAt k).mcpTokens.get token.tokenId = some row ∧ row.enabled = true ∧
        row.revokedAt = none) ∧
      (∀ m ≤ k, Standing token.tokenId
        (fun f => token.tokenId ∈ c.shared.current.memberTokens f) (c.shared.stateAt m)) ∧
      (t, now) ∈ c.shared.readings ∧
      TokenRead d plaintext now (fun P => Serial.Between th.started k P c.shared) record ∧
      ContextRead resource (fun P => Serial.Between th.started k P c.shared) record context ∧
      token = authenticatedToken record issuer context ∧
      ∀ i, Issued c.shared.history i → plaintext = d.newMcpToken i.accessSecret →
        record.kind = .oauth ∧ token.tokenId = i.accessId ∧ token.familyId = some i.familyId := by
  have hi := reachable_inv hc
  have hpost := (verified d).returned hc ht hend
  obtain ⟨call, started, prog, session⟩ := th
  subst hcall
  obtain ⟨r, hr, hpost⟩ := hpost
  match r, hr with
  | .ok (some token'), hr =>
    cases hr
    obtain ⟨base, h, e, now, record, context, hcom, hlabel, hnow, hread, hcontext, rfl⟩ := hpost
    have hid : (authenticatedToken record issuer context).tokenId = record.id := by
      cases context <;> rfl
    have hstep := hcom.step hi
    simp only [serial, Step, hlabel] at hstep
    obtain ⟨-, -, row, -, hrow, hen, hun⟩ := hstep
    rw [← hcom.stateAt] at hrow
    have hlen : h.length ≤ c.shared.history.length :=
      Nat.le_of_lt (List.getElem?_eq_some_iff.1 hcom.getElem?).1
    refine ⟨h.length, e, now, record, context, ⟨hcom.getElem?, hcom.tid, hid ▸ hlabel,
      hcom.started⟩, ⟨row, hid ▸ hrow, hen, hun⟩, fun m hm => ?_, hnow, hread, hcontext, rfl,
      fun i hissued hplain => ?_⟩
    · rw [hid]
      exact standing_of_le hi hm hlen hrow hen hun
    · obtain ⟨m, -, hm, hk, hstored⟩ := hread.stored
      obtain ⟨haccess, hkind⟩ := access_of_secret hi hissued (hm.trans hk) hstored
        (hplain ▸ hread.presentable.hash)
      exact ⟨hkind, hid.trans haccess, hcontext.issued hi hissued haccess hkind issuer⟩

/-- The sample deployment with random text of 43 characters, as far as there is so much of it. -/
def bearerDeployment : Deployment where
  toSettings := Deployment.sample.toSettings
  registry := Deployment.sample.registry
  tokenUrlsafe := fun n => String.ofList (List.replicate n 'a' ++ List.replicate (43 - n) 'b')
  sha256 := id
  httpsHostname := fun _ => none
  registry_ne_nil := by decide
  tokenUrlsafe_injective := fun m n h => by
    have hcount := congrArg (fun s : String => s.toList.count 'a') h
    simpa [List.count_replicate] using hcount
  sha256_injective := Function.injective_id

/-- A consent of the sample user, and the presentation of its access token. -/
def bearerRun : Config sorts Call Failure Result :=
  (system bearerDeployment).play (sampleIssue ["read"] ++
    [alone (.authenticate (bearerDeployment.newMcpToken 3) (some "https://mcp.example/mcp")
      (some "https://mcp.example"))]) sampleShared

theorem bearerRun_reachable : Reachable bearerDeployment bearerRun :=
  System.reachable_play (sample_init bearerDeployment) _

theorem authenticate_sample : ∃ th k now record, bearerRun.threads[2]? = some th ∧
    th.started ≤ k ∧ Standing 5 (fun f => (5 : Uuid) ∈ bearerRun.shared.current.memberTokens f)
      (bearerRun.shared.stateAt k) ∧
    TokenRead bearerDeployment (bearerDeployment.newMcpToken 3) now
      (fun P => Serial.Between th.started k P bearerRun.shared) record := by
  have hcall : (bearerRun.threads[2]?).map (·.call) = some (.authenticate
      (bearerDeployment.newMcpToken 3) (some "https://mcp.example/mcp")
      (some "https://mcp.example")) := by
    decide +kernel
  have hend : (bearerRun.threads[2]?).map Thread.returned? = some (some (.authenticated (some
      ⟨5, 0, some (seconds 3600), ["mcp"], some "https://mcp.example/mcp",
        some "https://mcp.example", some 2⟩))) := by
    decide +kernel
  obtain ⟨th, hth, hcall, hend⟩ := Config.exists_returned hcall hend
  obtain ⟨k, e, now, record, context, ⟨-, -, -, hk⟩, -, hstanding, -, hread, -⟩ :=
    authenticate_sound bearerRun_reachable hth hcall hend
  exact ⟨th, k, now, record, hth, hk, hstanding k (Nat.le_refl k), hread⟩

end ForgejoMcp.OAuth
