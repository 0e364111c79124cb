import ForgejoMcp.OAuth.FamilyRevocation

/-!
# Failed refreshes

A refresh that fails commits nothing, unless it presents a rotated token: within the grace period it
then appends an audit event, and after it it revokes the family.  A token that is not rotated
therefore stays as it is, and so does its access token.
-/

namespace ForgejoMcp.OAuth

open Transactions

variable {d : Deployment} {c : Config sorts Call Failure Result} {g : Shared sorts} {f : Uuid}
  {e e' : Entry sorts} {t : ℕ} {th : Thread sorts Call Failure Result} {clientId : Option String}
  {tok : StoredRefreshToken} {scopes : List String} {x : Failure}

/-! ### What a failed refresh committed -/

/-- The commit of a refresh of the rotated token `tok` on the state `db` at the time `time`: an audit
event within the grace period, the revocation of the family after it. -/
def Penalty (d : Deployment) (tok : StoredRefreshToken) (db db' : Db) (time : Time) : Prop :=
  ∃ r, db.refreshTokens.get tok.recordId = some r ∧ r.rotatedAt ≠ none ∧
    ((InGrace d r time ∧ ∃ event, db' = db.audited event) ∨
    (¬ InGrace d r time ∧ ∃ now log,
      db' = (db.revokeFamily r.familyId (db.memberTokens r.familyId) now).withLog log))

/-- What the call of thread `t` committed when it has failed. -/
theorem penalty_of_failed (hc : Reachable d c) (ht : c.threads[t]? = some th)
    (hcall : th.call = .exchangeRefreshToken clientId tok scopes)
    (hend : th.prog = some (.raise x)) {k : ℕ} (he : c.shared.history[k]? = some e)
    (htid : e.tid = some t) :
    (∀ (k' : ℕ) e', c.shared.history[k']? = some e' → e'.tid = some t → k' = k) ∧
      ∃ time, (t, time) ∈ c.shared.readings ∧ Penalty d tok (c.shared.stateAt k) e.db time := by
  have hi := reachable_inv hc
  have hpost := (verified d).raised hc ht hend
  rw [hcall] at hpost
  obtain ⟨r', hr', hpost⟩ := hpost
  match r', hr' with
  | .error x', hr' =>
    obtain ⟨-, hidle | ⟨base, h, e', r, time, hcom, hread, ⟨hr, hrot⟩, hwhat⟩⟩ := hpost
    · exact absurd htid (hidle.noCommit e (List.mem_of_getElem? he))
    · obtain rfl := hcom.only k e he htid
      obtain rfl := Option.some.inj (he.symm.trans hcom.getElem?)
      rw [hcom.stateAt]
      rcases hwhat with ⟨hl, hevent, hgrace⟩ | ⟨⟨tokens, hl⟩, hlate⟩
      · exact ⟨hcom.only, time, hread, r, hr, hrot, .inl ⟨hgrace, hevent⟩⟩
      · have hstep := hcom.step hi
        simp only [serial, Step, hl] at hstep
        obtain ⟨r', now, log, hdb, hp, -, hfam, htokens⟩ := hstep
        obtain rfl := Option.some.inj (hr.symm.trans hp.record)
        exact ⟨hcom.only, time, hread, r, hr, hrot,
          .inr ⟨hlate, now, log, by rw [hdb, htokens, hfam]⟩⟩

/-! ### Unrotated tokens -/

/-- A family that no commit touches stays as it is. -/
theorem sameFamily_of_untouched (hi : (serial d).Inv g) {n m : ℕ} (hnm : n ≤ m)
    (h : ∀ k e, n ≤ k → k < m → SameFamily f (g.stateAt n) (g.stateAt k) →
      g.history[k]? = some e → Key.family f ∉ footprint d e.label) :
    SameFamily f (g.stateAt n) (g.stateAt m) := by
  induction m, hnm using Nat.le_induction with
  | base => exact .refl f _
  | succ m hnm ih =>
    have hsame := ih fun k e hk hkm => h k e hk (Nat.lt_succ_of_lt hkm)
    cases he : g.history[m]? with
    | none => rwa [stateAt_of_getElem?_eq_none he]
    | some e =>
      rw [stateAt_of_getElem? he]
      exact hsame.trans (hi.start.sameFamily (hi.valid.take m) (hi.valid.step_at he)
        (h m e hnm (Nat.lt_succ_self m) hsame he))

/-- A refresh token stays as it is with its family. -/
theorem SameFamily.refreshToken {a b : Db} {k : Uuid} {r : OAuthRefreshToken}
    (hab : SameFamily r.familyId a b) (hr : a.refreshTokens.get k = some r) :
    b.refreshTokens.get k = some r := by
  have hmem : r ∈ b.lineage r.familyId := hab.lineage ▸ Db.mem_lineage_of_get hr
  exact Table.key_of_get hr ▸ (Db.mem_lineage.1 hmem).1

/-- In an open family, the access token of the token that is not rotated is alive. -/
theorem Consistent.alive_of_unrotated {base : Db} {h : List (Entry sorts)}
    (hc : Consistent d base h) {k m : Uuid} {r : OAuthRefreshToken}
    (hr : (after base h).refreshTokens.get k = some r) (hun : r.rotatedAt = none)
    (hm : r.mcpTokenId = some m) {family : OAuthTokenFamily}
    (hf : (after base h).tokenFamilies.get r.familyId = some family)
    (hopen : family.revokedAt = none) : (after base h).Alive m := by
  obtain ⟨past, newest, hchain⟩ := hc.chains r.familyId (hf ▸ Option.some_ne_none family)
  have hnew := hchain.eq_newest hr rfl hun
  exact (hchain.live family hf hopen).2 m (hnew ▸ hm)

/-- A failed refresh leaves the family of a token that is not rotated alone: it stays as it is while
only the call itself commits changes of the family. -/
theorem sameFamily_of_failed (hc : Reachable d c) (ht : c.threads[t]? = some th)
    (hcall : th.call = .exchangeRefreshToken clientId tok scopes)
    (hend : th.prog = some (.raise x)) {n m : ℕ} (hnm : n ≤ m) {r : OAuthRefreshToken}
    (hr : (c.shared.stateAt n).refreshTokens.get tok.recordId = some r) (hun : r.rotatedAt = none)
    (hothers : ∀ k e, n ≤ k → k < m → c.shared.history[k]? = some e →
      Key.family r.familyId ∈ footprint d e.label → e.tid = some t) :
    SameFamily r.familyId (c.shared.stateAt n) (c.shared.stateAt m) := by
  refine sameFamily_of_untouched (reachable_inv hc) hnm fun k e hnk hkm hsame he hmem => ?_
  have htid := hothers k e hnk hkm he hmem
  -- what the call commits, it commits on a rotated token
  obtain ⟨-, time, -, s, hs, hrot, -⟩ := penalty_of_failed hc ht hcall hend he htid
  obtain rfl := Option.some.inj ((hsame.refreshToken hr).symm.trans hs)
  exact hrot hun

/-- A refresh that fails changes nothing but what it must: it commits at most once, on a rotated
token, an audit event within the grace period or the revocation of the family after it; a token that
is not rotated and its access token stay as they are while no other call changes their family; and
every cached pair is one that a committed rotation minted. -/
theorem failed_refresh_changes_nothing (hc : Reachable d c) (ht : c.threads[t]? = some th)
    (hcall : th.call = .exchangeRefreshToken clientId tok scopes)
    (hend : th.prog = some (.raise x)) :
    (∀ (k : ℕ) e, c.shared.history[k]? = some e → e.tid = some t →
      (∀ (k' : ℕ) e', c.shared.history[k']? = some e' → e'.tid = some t → k' = k) ∧
      ∃ time, (t, time) ∈ c.shared.readings ∧ Penalty d tok (c.shared.stateAt k) e.db time) ∧
    (∀ n m r family, n ≤ m →
      (c.shared.stateAt n).refreshTokens.get tok.recordId = some r → r.rotatedAt = none →
      (c.shared.stateAt n).tokenFamilies.get r.familyId = some family → family.revokedAt = none →
      (∀ k e, n ≤ k → k < m → c.shared.history[k]? = some e →
        Key.family r.familyId ∈ footprint d e.label → e.tid = some t) →
      (c.shared.stateAt m).refreshTokens.get tok.recordId = some r ∧
        ∀ a, r.mcpTokenId = some a → (c.shared.stateAt m).Alive a) ∧
    ∀ entry ∈ c.shared.mem.objects, ∀ pair, entry.token = some pair →
      Minted d c.shared.history entry.refreshTokenId pair := by
  have hi := reachable_inv hc
  refine ⟨fun k e he htid => penalty_of_failed hc ht hcall hend he htid, ?_, hi.side.cached⟩
  intro n m r family hnm hr hun hf hopen hothers
  have hsame := sameFamily_of_failed hc ht hcall hend hnm hr hun hothers
  have hr' := hsame.refreshToken hr
  exact ⟨hr', fun a ha => (stateAt_consistent hi m).alive_of_unrotated hr' hun ha
    (hsame.family.trans hf) hopen⟩

/-- The sample refresh token is presented for a scope it does not have. -/
def excessiveScopeScript : List (Cue sorts Call) :=
  sampleIssue ["read"] ++ [alone (.exchangeRefreshToken (some "client")
    ⟨"", "client", ["mcp"], 0, 6, 0, 2, 0, none⟩ ["admin"])]

theorem failed_refresh_sample : ∃ th x, (sampleRun excessiveScopeScript).threads[2]? = some th ∧
    th.prog = some (.raise x) ∧ (sampleRun excessiveScopeScript).shared.current.Alive 5 := by
  have hcall : ((sampleRun excessiveScopeScript).threads[2]?).map (·.call) =
      some (.exchangeRefreshToken (some "client")
        ⟨"", "client", ["mcp"], 0, 6, 0, 2, 0, none⟩ ["admin"]) := by
    decide +kernel
  have hend : ((sampleRun excessiveScopeScript).threads[2]?).map Thread.raised? = some (some
      (.tokenError "invalid_scope" "refresh token scope or audience is invalid")) := by
    decide +kernel
  obtain ⟨th, hth, hcall, hend⟩ := Config.exists_raised hcall hend
  have hlen : (sampleRun excessiveScopeScript).shared.history.length = 2 := by decide +kernel
  refine ⟨th, _, hth, hend, ?_⟩
  rw [← stateAt_length, hlen]
  refine ((failed_refresh_changes_nothing (sampleRun_reachable _) hth hcall hend).2.1 2 2
    ⟨6, "fmcp_rt_aaaa", "fmcp_rt_aaaa", 2, 0, 0, ["mcp"], "https://mcp.example/mcp", some 5,
      days 30, none, none⟩ ⟨2, none⟩ (Nat.le_refl 2) ?_ rfl ?_ rfl ?_).2 5 rfl
  · decide +kernel
  · decide +kernel
  · exact fun k e hk hk' => absurd hk' (Nat.not_lt.2 hk)

end ForgejoMcp.OAuth
