import ForgejoMcp.OAuth.Authentication
import ForgejoMcp.OAuth.SingleUse

/-!
# Consent expiry bounds the whole family

The expiry that the consent gave the code is that of every refresh token of the family, however often
the family is refreshed, and no access token outlives it.
-/

namespace ForgejoMcp.OAuth

open Transactions

variable {d : Deployment} {base : Db} {h : List (Entry sorts)} {e : Entry sorts} {f : Uuid}
  {c : Config sorts Call Failure Result} {g : Shared sorts}

/-! ### Issued pairs -/

/-- A pair lasts at least a second. -/
theorem Step.expiresIn (hs : Step d base h e) {i : Issue} (hl : e.label.issue? = some i) :
    1 ≤ i.expiresIn d := by
  cases he : e.label with
  | issued codeId j =>
    rw [he] at hl
    cases hl
    obtain ⟨code, hx⟩ := hs.exchanges he
    exact hx.issues.expiresIn
  | rotated parent oldToken readAt now j =>
    rw [he] at hl
    cases hl
    obtain ⟨r, m, -, hx⟩ := hs.rotates he
    obtain ⟨selected, hissues, -⟩ := hx.issues
    exact hissues.expiresIn
  | _ => rw [he] at hl; cases hl

theorem Issued.expiresIn (hv : Valid (Step d) base h) {i : Issue} (hi : Issued h i) :
    1 ≤ i.expiresIn d := by
  obtain ⟨e, he, hl⟩ := hi
  obtain ⟨a, ha⟩ := List.mem_iff_getElem?.1 he
  exact (hv.step_at ha).expiresIn hl

/-- A quotient truncated towards zero that is positive was truncated downwards. -/
theorem tdiv_mul_le {a : ℤ} (h : 1 ≤ a.tdiv 1000000) : a.tdiv 1000000 * 1000000 ≤ a := by
  have hpos : 0 ≤ a := by
    by_contra hneg
    have hle := Int.tdiv_nonneg (a := -a) (b := 1000000) (by omega) (by omega)
    rw [Int.neg_tdiv] at hle
    omega
  rw [Int.tdiv_eq_ediv_of_nonneg hpos] at h ⊢
  omega

/-- The announced lifetime of a pair ends before the access token does. -/
theorem Issue.now_add_expiresIn_le {i : Issue} (h : 1 ≤ i.expiresIn d) :
    i.now + i.expiresIn d * 1000000 ≤ i.accessExpiresAt d := by
  have hle : i.expiresIn d * 1000000 ≤ i.accessExpiresAt d - i.now := tdiv_mul_le h
  exact Int.add_le_of_le_sub_left hle

theorem Issue.accessExpiresAt_le (i : Issue) : i.accessExpiresAt d ≤ i.refreshExpiresAt :=
  min_le_right _ _

/-- The pairs of one family expire together. -/
theorem Start.refreshExpiresAt_eq (hs : Start base) (hv : Valid (Step d) base h) {i i' : Issue}
    (hi : Issued h i) (hi' : Issued h i') (hf : i.familyId = i'.familyId) :
    i.refreshExpiresAt = i'.refreshExpiresAt := by
  induction hv generalizing i i' with
  | nil =>
    obtain ⟨e, he, -⟩ := hi
    exact absurd he List.not_mem_nil
  | @snoc h e hv hstep ih =>
    -- a pair of this commit expires with the pairs of its family that were issued before
    have new : ∀ {j j' : Issue}, e.label.issue? = some j → Issued h j' →
        j.familyId = j'.familyId → j.refreshExpiresAt = j'.refreshExpiresAt := by
      intro j j' hl hj' hjf
      cases he : e.label with
      | issued codeId j₀ =>
        rw [he] at hl
        cases hl
        obtain ⟨code, hx⟩ := hstep.exchanges he
        refine absurd (hjf ▸ hx.familyId) fun hfresh => ?_
        obtain ⟨r, -, hget, hlater, -⟩ := hs.stored hv hj'
        have hrf : r.familyId = j'.familyId := (congrArg OAuthRefreshToken.familyId hlater.core :)
        refine (hs.consistent_of_valid hv).linked.family _ r hget ?_
        rw [hrf]
        exact (hs.consistent_of_valid hv).known.tokenFamilies.get_eq_none hfresh.not_known
      | rotated parent oldToken readAt now j₀ =>
        rw [he] at hl
        cases hl
        obtain ⟨r, m, rfl, hx⟩ := hstep.rotates he
        obtain ⟨i₀, hi₀, -, hcore⟩ := (hs.origins_of_valid hv).refresh _ r hx.presents.record
        have hexp : r.expiresAt = i₀.refreshExpiresAt :=
          (congrArg OAuthRefreshToken.expiresAt hcore :)
        have hfam : r.familyId = i₀.familyId := (congrArg OAuthRefreshToken.familyId hcore :)
        exact hx.expires.trans (hexp.trans (ih hi₀ hj' (by rw [← hfam, ← hx.familyId, hjf])))
      | _ => rw [he] at hl; cases hl
    obtain ⟨a, ha, hl⟩ := hi
    obtain ⟨a', ha', hl'⟩ := hi'
    rcases List.mem_append.1 ha with ha | ha <;> rcases List.mem_append.1 ha' with ha' | ha'
    · exact ih ⟨a, ha, hl⟩ ⟨a', ha', hl'⟩ hf
    · exact (new (List.mem_singleton.1 ha' ▸ hl') ⟨a, ha, hl⟩ hf.symm).symm
    · exact new (List.mem_singleton.1 ha ▸ hl) ⟨a', ha', hl'⟩ hf
    · rw [List.mem_singleton.1 ha] at hl
      rw [List.mem_singleton.1 ha', hl, Option.some.injEq] at hl'
      rw [hl']

/-! ### The consent of a family -/

theorem le_of_mem_options {ttl : ℕ} (h : ttl ∈ d.oauthGrantTtlOptionsDays) :
    ttl ≤ d.oauthRefreshTokenMaxTtlDays := by
  rw [Settings.oauthGrantTtlOptionsDays, List.mem_insertionSort, List.mem_filter] at h
  exact of_decide_eq_true h.2

/-- The consent that started the family `f`: the commit `e` approved a request at `now` and stored a
code whose grant lasts `ttl` days, one of the offered times, and the exchange of that code opened the
family. -/
structure ConsentOf (d : Deployment) (base : Db) (h : List (Entry sorts)) (f : Uuid)
    (e : Entry sorts) (now : Time) (ttl : ℕ) : Prop where
  mem : e ∈ h
  offered : ttl ∈ d.oauthGrantTtlOptionsDays
  code : ∃ codeId code, (∃ request selected, Approves d e request selected now codeId code) ∧
    (after base h).authorizationCodes.get codeId = some code ∧
    code.refreshExpiresAt = some (now + days ttl) ∧
    ∃ e' ∈ h, ∃ i, e'.label = .issued codeId i ∧ i.familyId = f

variable {now : Time} {ttl : ℕ}

/-- What an exchanged code says about the expiry, it says for ever. -/
theorem exchanged_code (hv : Valid (Step d) base h) {e' : Entry sorts} (he' : e' ∈ h)
    {codeId : Uuid} {i : Issue} (hl : e'.label = .issued codeId i) :
    ∃ code, (after base h).authorizationCodes.get codeId = some code ∧
      ∀ time, code.refreshExpiresAt = some time → i.refreshExpiresAt = time := by
  obtain ⟨a, ha⟩ := List.mem_iff_getElem?.1 he'
  obtain ⟨code, hx⟩ := (hv.step_at ha).exchanges hl
  have hlater := ConsentLater.of_valid hv (Nat.le_of_lt (List.getElem?_eq_some_iff.1 ha).1)
  rw [List.take_length] at hlater
  obtain ⟨code', hcode', hcore⟩ := hlater.codes codeId code hx.found
  have hsame : code'.refreshExpiresAt = code.refreshExpiresAt :=
    (congrArg OAuthAuthorizationCode.refreshExpiresAt hcore.core :)
  exact ⟨code', hcode', fun time htime => hx.expires time (hsame ▸ htime)⟩

/-- Every family has a consent. -/
theorem Start.exists_consentOf (hs : Start base) (hv : Valid (Step d) base h)
    (hf : (after base h).tokenFamilies.get f ≠ none) : ∃ e now ttl, ConsentOf d base h f e now ttl := by
  obtain ⟨e', he', codeId, i, hl, hif⟩ := hs.opened hv hf
  obtain ⟨code, hcode, -⟩ := exchanged_code hv he' hl
  obtain ⟨e, he, request, selected, now, happ⟩ := hs.approved hv hcode
  obtain ⟨ttl, httl, hexp⟩ := happ.expires
  exact ⟨e, now, ttl, he, httl, codeId, code, ⟨request, selected, happ⟩, hcode, hexp, e', he', i, hl,
    hif⟩

namespace ConsentOf

/-- Every pair of the family expires with the consent. -/
theorem issued (hco : ConsentOf d base h f e now ttl) (hs : Start base)
    (hv : Valid (Step d) base h) {i : Issue} (hi : Issued h i) (hif : i.familyId = f) :
    i.refreshExpiresAt = now + days ttl := by
  obtain ⟨codeId, code, -, hcode, hexp, e', he', i', hl, hif'⟩ := hco.code
  obtain ⟨code', hcode', hexpires⟩ := exchanged_code hv he' hl
  rw [hcode, Option.some.injEq] at hcode'
  subst hcode'
  have hi' : Issued h i' := ⟨e', he', by rw [hl]; rfl⟩
  rw [hs.refreshExpiresAt_eq hv hi hi' (hif.trans hif'.symm)]
  exact hexpires _ hexp

theorem refreshToken (hco : ConsentOf d base h f e now ttl) (hs : Start base)
    (hv : Valid (Step d) base h) (n : ℕ) {r : OAuthRefreshToken}
    (hr : r ∈ (after base (h.take n)).lineage f) : r.expiresAt = now + days ttl := by
  obtain ⟨hget, hrf⟩ := Db.mem_lineage.1 hr
  obtain ⟨i, hi, -, hcore⟩ := (hs.origins_of_valid (hv.take n)).refresh _ r hget
  have hif : r.familyId = i.familyId := (congrArg OAuthRefreshToken.familyId hcore :)
  have hall := hi.append (h.drop n)
  rw [List.take_append_drop] at hall
  exact (congrArg OAuthRefreshToken.expiresAt hcore :).trans
    (hco.issued hs hv hall (hif.symm.trans hrf))

/-- An access token of the family is that of a pair, and expires no later than the consent. -/
theorem accessToken (hco : ConsentOf d base h f e now ttl) (hs : Start base)
    (hv : Valid (Step d) base h) (n : ℕ) {m : Uuid} (hm : m ∈ (after base (h.take n)).memberTokens f)
    {token : McpToken} (htoken : (after base (h.take n)).mcpTokens.get m = some token) :
    ∃ time, token.expiresAt = some time ∧ time ≤ now + days ttl := by
  obtain ⟨i, hi, rfl, hif⟩ := (hs.mem_memberTokens (hv.take n)).1 hm
  obtain ⟨-, token', -, -, htoken', hlater⟩ := hs.stored (hv.take n) hi
  rw [htoken, Option.some.injEq] at htoken'
  subst htoken'
  have hall := hi.append (h.drop n)
  rw [List.take_append_drop] at hall
  exact ⟨i.accessExpiresAt d, (congrArg McpToken.expiresAt hlater.core :),
    hco.issued hs hv hall hif ▸ i.accessExpiresAt_le⟩

/-! ### Calls -/

/-- The days are those that the consent call was given, if it returned. -/
theorem chosen (hc : Reachable d c) (hco : ConsentOf d c.shared.base c.shared.history f e now ttl)
    {t : ℕ} {th : Thread sorts Call Failure Result} (htid : e.tid = some t)
    (ht : c.threads[t]? = some th) {interaction : String} {accountId : Uuid} {approve : Bool}
    {grantTtlDays : Option ℕ} {toolNames : List String}
    (hcall : th.call = .resolveConsent interaction accountId approve grantTtlDays toolNames)
    {r : Result} (hend : th.prog = some (.ret r)) :
    ttl = grantTtlDays.getD d.oauthRefreshTokenTtlDays := by
  have hi := reachable_inv hc
  have hpost := (verified d).returned hc ht hend
  obtain ⟨call, started, prog, session⟩ := th
  subst hcall
  obtain ⟨codeId, code, ⟨request, selected, happ⟩, hcode, hexp, -⟩ := hco.code
  obtain ⟨secret, hl⟩ := happ.label
  obtain ⟨r', hr', hpost⟩ := hpost
  match r', hr' with
  | .ok redirect, hr' =>
    obtain ⟨base, h, e', row, now', hcom, -, -, hrow, -, -, hwhat⟩ := hpost
    obtain rfl := hcom.eq_of_mem hco.mem htid
    split at hwhat
    · obtain ⟨code', secret', log, hdb, hl', hexp', -⟩ := hwhat
      rw [hl] at hl'
      cases hl'
      -- the same request was resolved at the same time
      have hnow : now' = now := by
        obtain ⟨row', hrow', hres⟩ := happ.resolved
        have hrequests : e.db.authorizationRequests =
            ((after base h).resolveRequest row.id now').authorizationRequests :=
          (congrArg Db.authorizationRequests hdb :)
        rw [hrequests, Db.get_resolveRequest hrow, Option.some.injEq] at hrow'
        rw [← hrow'] at hres
        exact Option.some.inj hres
      -- the same code was stored
      have hstored : e.db.authorizationCodes.get code'.id = some code' := by
        have hv := (hcom.valid hi).of_append
        have hstep := hcom.step hi
        have hfresh : Fresh d base h code'.id := hstep.fresh (by rw [hl]; exact List.mem_cons_self)
        rw [hdb]
        exact Table.get_insert_self (r := code') (hfresh.get_code (hcom.base ▸ hi.start) hv)
      have hlater : ConsentLater e.db c.shared.current := by
        have hof := ConsentLater.of_valid hi.valid
          (i := h.length + 1) (List.getElem?_eq_some_iff.1 hcom.getElem?).1
        rwa [List.take_length, List.take_add_one, hcom.getElem?, Option.toList_some,
          after_concat] at hof
      obtain ⟨code'', hcode'', hcore⟩ := hlater.codes _ _ hstored
      obtain rfl := Option.some.inj (hcode.symm.trans hcode'')
      have hsame : code.refreshExpiresAt = code'.refreshExpiresAt :=
        (congrArg OAuthAuthorizationCode.refreshExpiresAt hcore.core :)
      rw [hexp, hexp', hnow, Option.some.injEq] at hsame
      exact days_injective (Int.add_left_cancel hsame)
    · rw [hl] at hwhat
      cases hwhat.1

end ConsentOf

/-- The call found the token it was given to be valid: it authenticated or loaded the access token,
or gave a pair for the refresh token. -/
def Accepted : Call → Result → Prop
  | .authenticate _ _ _, .authenticated (some _) => True
  | .loadAccessToken _, .accessToken (some _) => True
  | .exchangeRefreshToken _ _ _, .token _ => True
  | _, _ => False

namespace ConsentOf

/-- An access token found with the text of a member is that member. -/
theorem unexpired (hi : (serial d).Inv g) (hco : ConsentOf d g.base g.history f e now ttl)
    {plaintext : String} {time : Time} {record : McpToken} {m : ℕ} {tokenId : Uuid}
    (hm : m ≤ g.history.length) (hrecord : (g.stateAt m).mcpTokens.get tokenId = some record)
    (hp : Presentable d plaintext time record)
    (hmember : ∃ k ∈ g.current.memberTokens f, ∃ token, g.current.mcpTokens.get k = some token ∧
      token.tokenHash = d.hashToken plaintext) : time < now + days ttl := by
  obtain ⟨k, hk, token, hget, hhash⟩ := hmember
  obtain ⟨row, hrow, hlater⟩ := (stateAt_later_current hi hm).mcpTokens _ _ hrecord
  obtain ⟨token', hget', hkind⟩ := (current_linked hi).get_memberToken hk
  rw [hget, Option.some.injEq] at hget'
  obtain rfl : k = tokenId := (current_origins hi).oauth_unique hi.valid hget (hget' ▸ hkind) hrow
    (hhash.trans (hp.hash.symm.trans (congrArg McpToken.tokenHash hlater.core :).symm))
  obtain ⟨at', hat, hle⟩ := hco.accessToken hi.start hi.valid g.history.length 
    (by rwa [List.take_length]) (by rwa [List.take_length])
  have hexp : record.expiresAt = some at' :=
    (congrArg McpToken.expiresAt hlater.core :).symm.trans hat
  exact lt_of_lt_of_le (hp.unexpired at' hexp) hle

/-- A member is accepted only before the consent expires. -/
theorem accepted (hc : Reachable d c)
    (hco : ConsentOf d c.shared.base c.shared.history f e now ttl) {t : ℕ}
    {th : Thread sorts Call Failure Result} (ht : c.threads[t]? = some th)
    (hp : PresentsMember d c.shared.current f th.call) {r : Result}
    (hend : th.prog = some (.ret r)) (hacc : Accepted th.call r) :
    ∃ time, (t, time) ∈ c.shared.readings ∧ time < now + days ttl := by
  have hi := reachable_inv hc
  have hpost := (verified d).returned hc ht hend
  obtain ⟨call, started, prog, session⟩ := th
  cases call with
  | authenticate plaintext resource issuer =>
    obtain ⟨r', hr', hpost⟩ := hpost
    match r', hr' with
    | .ok none, hr' => cases hr'; exact hacc.elim
    | .ok (some token), hr' =>
      obtain ⟨base, h, e, time, record, context, -, -, htime, hread, -⟩ := hpost
      obtain ⟨m, -, hm, hstored⟩ := hread.stored.sometime
      exact ⟨time, htime, hco.unexpired hi hm hstored hread.presentable hp⟩
  | loadAccessToken plaintext =>
    obtain ⟨r', hr', hpost⟩ := hpost
    match r', hr' with
    | .ok none, hr' => cases hr'; exact hacc.elim
    | .ok (some token), hr' =>
      obtain ⟨time, record, htime, hpresentable, -, m, -, hm, hstored⟩ := hpost
      exact ⟨time, htime, hco.unexpired hi hm hstored hpresentable hp⟩
  | exchangeRefreshToken clientId token scopes =>
    obtain ⟨r', hr', hpost⟩ := hpost
    match r', hr' with
    | .ok pair, hr' =>
      obtain ⟨base, h, e, r, time, hcom, htime, ⟨hrow, hlt⟩, -⟩ := hpost
      obtain ⟨s, hs, hid⟩ := hp
      have hlen : h.length ≤ c.shared.history.length :=
        Nat.le_of_lt (List.getElem?_eq_some_iff.1 hcom.getElem?).1
      rw [← hcom.stateAt] at hrow
      obtain ⟨r'', hrow', hlater⟩ := (stateAt_later_current hi hlen).refreshTokens _ _ hrow
      have hget := (Db.mem_lineage.1 hs).1
      rw [hid, hrow', Option.some.injEq] at hget
      subst hget
      have hexp := hco.refreshToken hi.start hi.valid c.shared.history.length
        (r := r'') (by rwa [List.take_length])
      have hsame : r''.expiresAt = r.expiresAt :=
        (congrArg OAuthRefreshToken.expiresAt hlater.core :)
      exact ⟨time, htime, by rwa [← hexp, hsame]⟩
  | loadRefreshToken clientId plaintext => cases r <;> exact hacc.elim
  | _ => exact hp.elim

end ConsentOf

/-! ### The theorem -/

/-- Consent expiry bounds the whole family.  Every family was started by a consent, of one of the
offered times and at most the configured maximum, the one the call that approved it was given.  In
every state each refresh token of the family expires exactly then and each access token no later;
every pair of the family is announced to last at least a second, and no longer than its access token;
and no call accepts a member at or after that time. -/
theorem consent_expiry_bounds_family (hc : Reachable d c)
    (hf : c.shared.current.tokenFamilies.get f ≠ none) :
    ∃ e now ttl, ConsentOf d c.shared.base c.shared.history f e now ttl ∧
      ttl ≤ d.oauthRefreshTokenMaxTtlDays ∧
      (∀ (t : ℕ) th interaction accountId approve grantTtlDays toolNames r, e.tid = some t →
        c.threads[t]? = some th →
        th.call = .resolveConsent interaction accountId approve grantTtlDays toolNames →
        th.prog = some (.ret r) → ttl = grantTtlDays.getD d.oauthRefreshTokenTtlDays) ∧
      (∀ n, ∀ r ∈ (c.shared.stateAt n).lineage f, r.expiresAt = now + days ttl) ∧
      (∀ n, ∀ m ∈ (c.shared.stateAt n).memberTokens f, ∀ token,
        (c.shared.stateAt n).mcpTokens.get m = some token →
        ∃ time, token.expiresAt = some time ∧ time ≤ now + days ttl) ∧
      (∀ i, Issued c.shared.history i → i.familyId = f → 1 ≤ (i.token d).expiresIn ∧
        ∃ token time, c.shared.current.mcpTokens.get i.accessId = some token ∧
          token.expiresAt = some time ∧ i.now + (i.token d).expiresIn * 1000000 ≤ time) ∧
      ∀ (t : ℕ) th r, c.threads[t]? = some th → PresentsMember d c.shared.current f th.call →
        th.prog = some (.ret r) → Accepted th.call r →
        ∃ time, (t, time) ∈ c.shared.readings ∧ time < now + days ttl := by
  have hi := reachable_inv hc
  obtain ⟨e, now, ttl, hco⟩ := hi.start.exists_consentOf hi.valid hf
  refine ⟨e, now, ttl, hco, le_of_mem_options hco.offered,
    fun t th interaction accountId approve grantTtlDays toolNames r htid ht hcall hend =>
      hco.chosen hc htid ht hcall hend,
    fun n r hr => hco.refreshToken hi.start hi.valid n hr,
    fun n m hm token htoken => hco.accessToken hi.start hi.valid n hm htoken,
    fun i hissued _ => ⟨hissued.expiresIn hi.valid, ?_⟩,
    fun t th r ht hp hend hacc => hco.accepted hc ht hp hend hacc⟩
  obtain ⟨-, token, -, -, htoken, hlater⟩ := hi.start.stored hi.valid hissued
  exact ⟨token, i.accessExpiresAt d, htoken, (congrArg McpToken.expiresAt hlater.core :),
    Issue.now_add_expiresIn_le (hissued.expiresIn hi.valid)⟩

/-- The sample family is refreshed. -/
def refreshedScript : List (Cue sorts Call) := sampleIssue ["read"] ++ [sampleRefresh 6]

theorem consent_expiry_sample : ∃ e now ttl,
    ConsentOf .sample (sampleRun refreshedScript).shared.base
      (sampleRun refreshedScript).shared.history 2 e now ttl ∧
    ∀ n, ∀ r ∈ ((sampleRun refreshedScript).shared.stateAt n).lineage 2,
      r.expiresAt = now + days ttl := by
  obtain ⟨e, now, ttl, hco, -, -, hrefresh, -⟩ := consent_expiry_bounds_family (f := 2)
    (sampleRun_reachable refreshedScript) (by decide +kernel)
  exact ⟨e, now, ttl, hco, hrefresh⟩

end ForgejoMcp.OAuth
