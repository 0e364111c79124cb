import ForgejoMcp.OAuth.Retry

/-!
# Consents and codes are single-use

At most one commit resolves an authorization request and at most one exchanges a code, so that an
interaction leads to at most one code and at most one family.  A call that fails commits nothing, and
a later call that meets the conditions returns.
-/

namespace ForgejoMcp.OAuth

open Transactions Rows

variable {d : Deployment} {base : Db} {h : List (Entry sorts)} {e : Entry sorts}
  {c : Config sorts Call Failure Result} {g : Shared sorts} {request : Uuid}

/-! ### What an interaction leads to -/

/-- The codes stored by the approvals of a request. -/
def codesOf (h : List (Entry sorts)) (request : Uuid) : List Uuid :=
  h.filterMap fun e => match e.label with
    | .approved r code _ _ => if r = request then some code else none
    | _ => none

/-- The denials of a request. -/
def denialsOf (h : List (Entry sorts)) (request : Uuid) : List (Entry sorts) :=
  h.filter fun e => match e.label with
    | .denied r => decide (r = request)
    | _ => false

/-- The families opened by the exchanges of the codes of a request. -/
def familiesOf (h : List (Entry sorts)) (request : Uuid) : List Uuid :=
  h.filterMap fun e => match e.label with
    | .issued code i => if code ∈ codesOf h request then some i.familyId else none
    | _ => none

theorem mem_codesOf {code : Uuid} : code ∈ codesOf h request ↔
    ∃ e ∈ h, ∃ secret tools, e.label = .approved request code secret tools := by
  rw [codesOf, List.mem_filterMap]
  refine exists_congr fun e => and_congr_right fun _ => ⟨fun he => ?_, ?_⟩
  · split at he
    · rename_i r code' secret tools hl
      split at he
      · rename_i hr
        cases he
        exact ⟨secret, tools, hr ▸ hl⟩
      · cases he
    · cases he
  · rintro ⟨secret, tools, hl⟩
    simp [hl]

theorem length_codesOf_add_denialsOf (h : List (Entry sorts)) (request : Uuid) :
    (codesOf h request).length + (denialsOf h request).length =
      h.countP fun e => decide (e.label.resolves? = some request) := by
  induction h with
  | nil => rfl
  | cons e h ih =>
    rw [codesOf, denialsOf] at ih ⊢
    rw [List.countP_cons, ← ih, List.filterMap_cons, List.filter_cons]
    cases e.label with
    | approved r code secret tools =>
      by_cases hr : r = request
      · simp [hr, Label.resolves?]
        omega
      · simp [hr, Label.resolves?]
    | denied r =>
      by_cases hr : r = request
      · simp [hr, Label.resolves?]
        omega
      · simp [hr, Label.resolves?]
    | _ => simp [Label.resolves?]

theorem length_familiesOf (h : List (Entry sorts)) (request : Uuid) :
    (familiesOf h request).length =
      h.countP fun e => (e.label.consumes?).any fun code => decide (code ∈ codesOf h request) := by
  rw [familiesOf, List.length_filterMap_eq_countP]
  refine List.countP_congr fun e _ => ?_
  cases e.label with
  | issued code i =>
    by_cases hc : code ∈ codesOf h request <;> simp [hc, Label.consumes?]
  | _ => simp [Label.consumes?]

/-- What is true at one position of a list at most is counted once at most. -/
theorem countP_le_one {β : Type} {l : List β} {p : β → Bool}
    (hp : ∀ (i j : ℕ) x y, l[i]? = some x → l[j]? = some y → p x = true → p y = true → i = j) :
    l.countP p ≤ 1 := by
  induction l with
  | nil => exact Nat.zero_le 1
  | cons a l ih =>
    have htail := ih fun i j x y hx hy hpx hpy =>
      Nat.succ.inj (hp (i + 1) (j + 1) x y hx hy hpx hpy)
    rw [List.countP_cons]
    split
    · rename_i ha
      have hzero : l.countP p = 0 := by
        rw [List.countP_eq_zero]
        intro x hx hpx
        obtain ⟨j, hj⟩ := List.mem_iff_getElem?.1 hx
        cases hp 0 (j + 1) a x rfl hj ha hpx
      omega
    · exact htail

theorem eq_of_length_le_one {β : Type} {l : List β} (hl : l.length ≤ 1) {x y : β} (hx : x ∈ l)
    (hy : y ∈ l) : x = y := by
  match l with
  | [] => exact absurd hx List.not_mem_nil
  | [z] => rw [List.mem_singleton.1 hx, List.mem_singleton.1 hy]
  | _ :: _ :: _ => simp at hl

theorem countP_resolves_le_one (hv : Valid (Step d) base h) (request : Uuid) :
    (h.countP fun e => decide (e.label.resolves? = some request)) ≤ 1 :=
  countP_le_one fun _ _ _ _ ha hb hl hl' =>
    index_eq_of_resolves hv ha hb (of_decide_eq_true hl) (of_decide_eq_true hl')

theorem length_familiesOf_le_one (hv : Valid (Step d) base h) (request : Uuid) :
    (familiesOf h request).length ≤ 1 := by
  have hone := countP_resolves_le_one hv request
  rw [← length_codesOf_add_denialsOf] at hone
  rw [length_familiesOf]
  refine countP_le_one fun i j e e' ha hb hl hl' => ?_
  obtain ⟨code, hcode, hmem⟩ := (Option.any_eq_true _ _).1 hl
  obtain ⟨code', hcode', hmem'⟩ := (Option.any_eq_true _ _).1 hl'
  -- the request has one code at most
  have hsame : code = code' := by
    have hlen : (codesOf h request).length ≤ 1 := by omega
    exact eq_of_length_le_one hlen (of_decide_eq_true hmem) (of_decide_eq_true hmem')
  exact index_eq_of_consumes hv ha hb hcode (hsame ▸ hcode')

/-! ### Rows and commits -/

/-- A stored family was opened by the exchange of a code. -/
theorem Start.opened (hs : Start base) (hv : Valid (Step d) base h) {f : Uuid}
    (hf : (after base h).tokenFamilies.get f ≠ none) :
    ∃ e ∈ h, ∃ code i, e.label = .issued code i ∧ i.familyId = f := by
  induction hv with
  | nil =>
    rw [after_nil, hs.tokenFamilies] at hf
    exact absurd rfl hf
  | @snoc h e hv hstep ih =>
    rw [after_concat] at hf
    have earlier : (after base h).tokenFamilies.get f ≠ none →
        ∃ e' ∈ h ++ [e], ∃ code i, e'.label = .issued code i ∧ i.familyId = f := fun hold => by
      obtain ⟨e', he', hrest⟩ := ih hold
      exact ⟨e', List.mem_append_left _ he', hrest⟩
    have kept : ∀ {db : Db}, SameCore db e.db →
        (db.tokenFamilies.get f = none ↔ (after base h).tokenFamilies.get f = none) →
        ∃ e' ∈ h ++ [e], ∃ code i, e'.label = .issued code i ∧ i.familyId = f :=
      fun hdb hiff => earlier fun hnone => hf (hdb.tokenFamilies ▸ hiff.2 hnone)
    have revoked : ∀ (family : Uuid) (tokens : List Uuid) (time : Time),
        (((after base h).revokeFamily family tokens time).tokenFamilies.get f = none ↔
          (after base h).tokenFamilies.get f = none) := by
      intro family tokens time
      rw [Db.revokeFamily, Table.get_update, Option.map_eq_none_iff]
    rcases hstep.coreChange with ⟨-, -, hdb⟩ | ⟨codeId, i, code, hl, -, hdb⟩ |
      ⟨parent, m, readAt, now, i, r, -, -, hdb⟩ | ⟨family, tokens, time, -, -, -, -, -, hdb⟩ |
      ⟨family, token, tokens, time, now, -, -, -, -, -, -, hdb⟩ | ⟨token, row, now, -, -, -, -, -, hdb⟩ |
      ⟨token, secret, -, -, -, -, -, hdb⟩ | ⟨token, now, -, -, hdb⟩
    · exact kept hdb Iff.rfl
    · by_cases hif : i.familyId = f
      · exact ⟨e, List.mem_append_right _ (List.mem_singleton_self e), codeId, i, hl, hif⟩
      · refine earlier fun hnone => hf ?_
        rw [hdb.tokenFamilies]
        exact (Table.get_insert_of_ne (r := ⟨i.familyId, none⟩) hif).trans hnone
    · exact kept hdb Iff.rfl
    · exact kept hdb (revoked family tokens time)
    · exact kept hdb (revoked family tokens time)
    · exact kept hdb Iff.rfl
    · exact kept hdb Iff.rfl
    · exact kept hdb Iff.rfl

theorem Start.exists_codesOf (hs : Start base) (hv : Valid (Step d) base h)
    {code : OAuthAuthorizationCode} (hcode : code ∈ (after base h).authorizationCodes) :
    ∃ request, code.id ∈ codesOf h request := by
  obtain ⟨e, he, request, selected, now, ⟨secret, hl⟩, -⟩ :=
    hs.approved hv (Table.get_of_mem hcode)
  exact ⟨request, mem_codesOf.2 ⟨e, he, secret, selected, hl⟩⟩

theorem Start.exists_familiesOf (hs : Start base) (hv : Valid (Step d) base h)
    {family : OAuthTokenFamily} (hf : family ∈ (after base h).tokenFamilies) :
    ∃ request, family.id ∈ familiesOf h request := by
  have hget := Table.get_of_mem hf
  obtain ⟨e, he, codeId, i, hl, hif⟩ := hs.opened hv (hget ▸ Option.some_ne_none family)
  obtain ⟨k, hk⟩ := List.mem_iff_getElem?.1 he
  -- the exchanged code was stored by an approval
  obtain ⟨code, hx⟩ := (hv.step_at hk).exchanges hl
  obtain ⟨e', he', request, selected, now, ⟨secret, hl'⟩, -⟩ := hs.approved (hv.take k) hx.found
  refine ⟨request, List.mem_filterMap.2 ⟨e, he, ?_⟩⟩
  have hmem : codeId ∈ codesOf h request :=
    mem_codesOf.2 ⟨e', List.mem_of_mem_take he', secret, selected, hl'⟩
  rw [hl]
  simp only [if_pos hmem, hif]

/-! ### The calls -/

/-- The interaction a consent answers, or the code an exchange presents. -/
def Call.presents? : Call → Option (String ⊕ Uuid)
  | .resolveConsent interaction _ _ _ _ => some (.inl interaction)
  | .exchangeAuthorizationCode _ code => some (.inr code.recordId)
  | _ => none

variable {t t' : ℕ} {th th' : Thread sorts Call Failure Result}

/-- A consent or an exchange that fails commits nothing. -/
theorem not_committed_of_failed (hc : Reachable d c) (ht : c.threads[t]? = some th)
    (hcall : th.call.presents? ≠ none) {x : Failure} (hend : th.prog = some (.raise x)) :
    ∀ e ∈ c.shared.history, e.tid ≠ some t := by
  have hpost := (verified d).raised hc ht hend
  obtain ⟨call, started, prog, session⟩ := th
  cases call with
  | resolveConsent interaction accountId approve ttl tools =>
    obtain ⟨r', hr', hpost⟩ := hpost
    match r', hr' with
    | .error x', hr' => exact hpost.noCommit
  | exchangeAuthorizationCode clientId code =>
    obtain ⟨r', hr', hpost⟩ := hpost
    match r', hr' with
    | .error x', hr' => exact hpost.noCommit
  | _ => exact absurd rfl hcall

/-- What a consent or an exchange that returns has committed: the resolution of the request of its
interaction, or the exchange of its code. -/
theorem committed_of_returned (hc : Reachable d c) (ht : c.threads[t]? = some th) {r : Result}
    (hend : th.prog = some (.ret r)) :
    (∀ interaction, th.call.presents? = some (.inl interaction) →
      ∃ (n m : ℕ) (e : Entry sorts) (k : Uuid), c.shared.history[n]? = some e ∧ e.tid = some t ∧
        e.label.resolves? = some k ∧
        (c.shared.stateAt m).presented (d.hashToken interaction) = some k) ∧
    (∀ code, th.call.presents? = some (.inr code) →
      ∃ (n : ℕ) (e : Entry sorts), c.shared.history[n]? = some e ∧ e.tid = some t ∧
        e.label.consumes? = some code) := by
  have hpost := (verified d).returned hc ht hend
  obtain ⟨call, started, prog, session⟩ := th
  cases call with
  | resolveConsent interaction accountId approve ttl tools =>
    refine ⟨fun _ hcall => ?_, fun _ hcall => by cases hcall⟩
    cases hcall
    obtain ⟨r', hr', hpost⟩ := hpost
    match r', hr' with
    | .ok redirect, hr' =>
      obtain ⟨base, h, e, record, now, hcom, -, ⟨m, -, -, hm⟩, -, -, -, hwhat⟩ := hpost
      refine ⟨h.length, m, e, record.id, hcom.getElem?, hcom.tid, ?_, hm⟩
      split at hwhat
      · obtain ⟨code, secret, log, -, hl, -⟩ := hwhat
        rw [hl]
        rfl
      · rw [hwhat.1]
        rfl
  | exchangeAuthorizationCode clientId code =>
    refine ⟨fun _ hcall => ?_, fun _ hcall => ?_⟩
    · cases hcall
    cases hcall
    obtain ⟨r', hr', hpost⟩ := hpost
    match r', hr' with
    | .ok pair, hr' =>
      obtain ⟨base, h, e, i, hcom, hl, -⟩ := hpost
      exact ⟨h.length, e, hcom.getElem?, hcom.tid, by rw [hl]; rfl⟩
  | _ => exact ⟨fun _ hcall => absurd hcall.symm (Option.some_ne_none _),
      fun _ hcall => absurd hcall.symm (Option.some_ne_none _)⟩

/-- An interaction has one request at any time. -/
theorem presented_unique (hi : (serial d).Inv g) {hash : String} {m m' : ℕ} {k k' : Uuid}
    (hm : (g.stateAt m).presented hash = some k) (hm' : (g.stateAt m').presented hash = some k') :
    k = k' := by
  rcases Nat.le_total m m' with hle | hle
  · exact Option.some.inj (((ConsentLater.of_valid hi.valid hle).presented hash k hm).symm.trans hm')
  · exact Option.some.inj (hm.symm.trans ((ConsentLater.of_valid hi.valid hle).presented hash k' hm'))

/-- Of the calls for one interaction, or one code, one returns at most. -/
theorem eq_of_returned (hc : Reachable d c) (ht : c.threads[t]? = some th)
    (ht' : c.threads[t']? = some th') {x : String ⊕ Uuid} (hx : th.call.presents? = some x)
    (hx' : th'.call.presents? = some x) {r r' : Result} (hend : th.prog = some (.ret r))
    (hend' : th'.prog = some (.ret r')) : t = t' := by
  have hi := reachable_inv hc
  have hret := committed_of_returned hc ht hend
  have hret' := committed_of_returned hc ht' hend'
  -- one commit is by one thread
  have tids : ∀ {n : ℕ} {e e' : Entry sorts}, c.shared.history[n]? = some e →
      c.shared.history[n]? = some e' → e.tid = some t → e'.tid = some t' → t = t' := by
    intro n e e' he he' htid htid'
    obtain rfl := Option.some.inj (he.symm.trans he')
    exact Option.some.inj (htid.symm.trans htid')
  cases x with
  | inl interaction =>
    obtain ⟨n, m, e, k, he, htid, hl, hm⟩ := hret.1 interaction hx
    obtain ⟨n', m', e', k', he', htid', hl', hm'⟩ := hret'.1 interaction hx'
    obtain rfl : k = k' := presented_unique hi hm hm'
    obtain rfl := index_eq_of_resolves hi.valid he he' hl hl'
    exact tids he he' htid htid'
  | inr code =>
    obtain ⟨n, e, he, htid, hl⟩ := hret.2 code hx
    obtain ⟨n', e', he', htid', hl'⟩ := hret'.2 code hx'
    obtain rfl := index_eq_of_consumes hi.valid he he' hl hl'
    exact tids he he' htid htid'

/-- An approval that meets the conditions returns a code, when no other call holds a lock. -/
theorem approval_succeeds (hc : Reachable d c) (hfree : ∀ th ∈ c.threads, th.session.held = [])
    {interaction : String} {accountId : Uuid} {grantTtlDays : Option ℕ} {toolNames : List String}
    {record : OAuthAuthorizationRequest} {userId : Uuid} (ha : Approvable d c.shared interaction
      accountId grantTtlDays toolNames record userId) :
    ∃ c' th redirect code, (system d).Steps c c' ∧ c'.threads[c.threads.length]? = some th ∧
      th.call = .resolveConsent interaction accountId true grantTtlDays toolNames ∧
      th.prog = some (.ret (.redirect redirect)) ∧ redirect.code = some code := by
  obtain ⟨c', th, a, -, hsteps, hth, hcall, hend, redirect, rfl, code, hcode⟩ :=
    Returns.call (system d) (.resolveConsent interaction accountId true grantTtlDays toolNames)
      (Q := fun r _ _ => ∃ redirect, r = .redirect redirect ∧
        ∃ code, redirect.code = some code)
      (Returns.bind ((ha.returns (reachable_inv hc)).mono fun redirect _ _ hq =>
        ⟨redirect, rfl, hq⟩)) hfree
  exact ⟨c', th, redirect, code, hsteps, hth, hcall, hend, hcode⟩

/-- An exchange that meets the conditions returns a pair, when no other call holds a lock. -/
theorem exchange_succeeds (hc : Reachable d c) (hfree : ∀ th ∈ c.threads, th.session.held = [])
    {clientId : Option String} {code : StoredAuthorizationCode} {record : OAuthAuthorizationCode}
    {client : OAuthClient} (ha : Exchangeable d c.shared clientId code record client) :
    ∃ c' th pair, (system d).Steps c c' ∧ c'.threads[c.threads.length]? = some th ∧
      th.call = .exchangeAuthorizationCode clientId code ∧
      th.prog = some (.ret (.token pair)) := by
  obtain ⟨c', th, a, -, hsteps, hth, hcall, hend, pair, rfl⟩ :=
    Returns.call (system d) (.exchangeAuthorizationCode clientId code)
      (Q := fun r _ _ => ∃ pair, r = .token pair)
      (Returns.bind ((ha.returns (reachable_inv hc)).mono fun pair _ _ _ => ⟨pair, rfl⟩)) hfree
  exact ⟨c', th, pair, hsteps, hth, hcall, hend⟩

/-- Consents and codes are single-use and failure-atomic.  A request leads to one code or one denial
at most and to one family at most, and every code and family comes from a request; of the calls for
one interaction, or one code, one returns at most; a call that fails commits nothing; and a later
call that meets the conditions succeeds. -/
theorem consent_code_single_use (hc : Reachable d c) :
    (∀ request, (codesOf c.shared.history request).length +
        (denialsOf c.shared.history request).length ≤ 1 ∧
      (familiesOf c.shared.history request).length ≤ 1) ∧
    (∀ code ∈ c.shared.current.authorizationCodes,
      ∃ request, code.id ∈ codesOf c.shared.history request) ∧
    (∀ family ∈ c.shared.current.tokenFamilies,
      ∃ request, family.id ∈ familiesOf c.shared.history request) ∧
    (∀ (t t' : ℕ) th th' x r r', c.threads[t]? = some th → c.threads[t']? = some th' →
      th.call.presents? = some x → th'.call.presents? = some x → th.prog = some (.ret r) →
      th'.prog = some (.ret r') → t = t') ∧
    (∀ (t : ℕ) th x, c.threads[t]? = some th → th.call.presents? ≠ none →
      th.prog = some (.raise x) → ∀ e ∈ c.shared.history, e.tid ≠ some t) ∧
    ((∀ th ∈ c.threads, th.session.held = []) →
      (∀ interaction accountId grantTtlDays toolNames record userId,
        Approvable d c.shared interaction accountId grantTtlDays toolNames record userId →
        ∃ c' th redirect code, (system d).Steps c c' ∧ c'.threads[c.threads.length]? = some th ∧
          th.call = .resolveConsent interaction accountId true grantTtlDays toolNames ∧
          th.prog = some (.ret (.redirect redirect)) ∧ redirect.code = some code) ∧
      ∀ clientId code record client, Exchangeable d c.shared clientId code record client →
        ∃ c' th pair, (system d).Steps c c' ∧ c'.threads[c.threads.length]? = some th ∧
          th.call = .exchangeAuthorizationCode clientId code ∧
          th.prog = some (.ret (.token pair))) := by
  have hi := reachable_inv hc
  refine ⟨fun request => ⟨?_, length_familiesOf_le_one hi.valid request⟩,
    fun code hcode => hi.start.exists_codesOf hi.valid hcode,
    fun family hf => hi.start.exists_familiesOf hi.valid hf,
    fun t t' th th' x r r' ht ht' hx hx' => eq_of_returned hc ht ht' hx hx',
    fun t th x ht hcall => not_committed_of_failed hc ht hcall,
    fun hfree => ⟨fun _ _ _ _ _ _ => approval_succeeds hc hfree,
      fun _ _ _ _ => exchange_succeeds hc hfree⟩⟩
  rw [length_codesOf_add_denialsOf]
  exact countP_resolves_le_one hi.valid request

/-- The sample user selects a tool that there is not, so that the consent fails. -/
def failedConsentScript : List (Cue sorts Call) :=
  [alone (.resolveConsent sampleInteraction 0 true none ["nope"])]

theorem consent_retry_sample : ∃ c' th redirect code,
    (system .sample).Steps (sampleRun failedConsentScript) c' ∧ c'.threads[1]? = some th ∧
    th.call = .resolveConsent sampleInteraction 0 true none ["read"] ∧
    th.prog = some (.ret (.redirect redirect)) ∧ redirect.code = some code := by
  have hlen : (sampleRun failedConsentScript).threads.length = 1 := by decide +kernel
  have hfree : ((sampleRun failedConsentScript).threads.all fun th => th.session.held.isEmpty) =
      true := by decide +kernel
  rw [← hlen]
  refine ((consent_code_single_use (sampleRun_reachable failedConsentScript)).2.2.2.2.2
    fun th hth => List.isEmpty_iff.1 (List.all_eq_true.1 hfree th hth)).1 _ _ _ _
    ⟨0, sampleInteraction, 0, "https://client.example/cb", true, none, "challenge", ["mcp"],
      "https://mcp.example/mcp", seconds 600, none⟩ 0 ⟨?_, ?_, ?_, ⟨⟨0, some 0, .user, false, .active⟩,
      ?_⟩, ?_, ?_, ⟨⟨⟨0, "kim", "kim", .active, none⟩, ?_, rfl⟩, ⟨0, 0, .active, none⟩,
      Table.mem_of_get (k := 0) ?_, rfl, rfl, rfl⟩, ?_, ?_⟩
  all_goals decide +kernel

end ForgejoMcp.OAuth
