import ForgejoMcp.Credentials.Completion
import ForgejoMcp.Credentials.Refinement.System

/-!
# Rotated refresh tokens

Forgejo replaces a refresh token when it accepts it.  The pair that it returns is stored unless the
identity of its user is not confirmed, so a refresh token that was accepted is lost, and sent again,
only if the answer is lost, the identity is not confirmed, or the call is killed before it has stored
the pair.
-/

namespace ForgejoMcp.Credentials

open Transactions

variable {server : Server} {c : Config sorts Call Raised Result} {g : Shared sorts}
  {accepts : ℕ → Prop} {credential : Uuid} {i j : ℕ} {q q' : Ask}

/-! ### What Forgejo does -/

/-- The refresh token that the token endpoint has returned. -/
def Ask.returned? (q : Ask) : Option String :=
  if q.query.isToken then q.answer.pair?.map (·.refreshToken) else none

/-- Every refresh token is returned once: it is new, as a token that replaces a single-use one is. -/
def SingleUse (asks : List Ask) : Prop := (asks.filterMap Ask.returned?).Nodup

/-- Request `i` is a refresh of the credential, and Forgejo has accepted it. -/
structure Rotates (accepts : ℕ → Prop) (g : Shared sorts) (i : ℕ) (q : Ask) (credential : Uuid) :
    Prop where
  accepted : accepts i
  asked : g.asks[i]? = some q
  refreshes : q.query.purpose = .refreshes credential

/-- Every refresh that Forgejo has accepted is finished: it is answered with a pair, the identity of
the user of the pair is confirmed when it is asked for, and the call is not killed before it has
stored the pair. -/
structure Finishes (server : Server) (accepts : ℕ → Prop) (c : Config sorts Call Raised Result) :
    Prop where
  answered : ∀ i q credential, Rotates accepts c.shared i q credential → q.answer.pair? ≠ none
  confirmed : ∀ i q credential, Rotates accepts c.shared i q credential → ∀ (f : ℕ) (q' : Ask) id name,
    i < f → c.shared.asks[f]? = some q' → q'.tid = q.tid →
      q'.query.purpose = .confirms credential id name → Confirms server q'.answer id name
  alive : ∀ i q credential, Rotates accepts c.shared i q credential → ∀ th,
    c.threads[q.tid]? = some th → th.prog = none →
      ∃ e ∈ c.shared.history, e.tid = some q.tid ∧ e.label.pair? ≠ none

theorem SingleUse.eq (hs : SingleUse g.asks) {i j : ℕ} {q q' : Ask} (hq : g.asks[i]? = some q)
    (hq' : g.asks[j]? = some q') (ht : q.query.isToken = true) (ht' : q'.query.isToken = true)
    {pair pair' : ForgejoOAuthTokens} (hp : q.answer.pair? = some pair)
    (hp' : q'.answer.pair? = some pair') (heq : pair.refreshToken = pair'.refreshToken) : i = j := by
  have hpairwise := List.pairwise_iff_getElem.1 (List.pairwise_filterMap.1 hs)
  obtain ⟨hi, hget⟩ := List.getElem?_eq_some_iff.1 hq
  obtain ⟨hj, hget'⟩ := List.getElem?_eq_some_iff.1 hq'
  have hr : Ask.returned? q = some pair.refreshToken := by
    rw [Ask.returned?, if_pos ht, hp, Option.map_some]
  have hr' : Ask.returned? q' = some pair.refreshToken := by
    rw [Ask.returned?, if_pos ht', hp', Option.map_some, heq]
  rcases Nat.lt_trichotomy i j with hlt | heq | hlt
  · exact absurd rfl (hpairwise i j hi hj hlt _ (hget ▸ hr) _ (hget' ▸ hr'))
  · exact heq
  · exact absurd rfl (hpairwise j i hj hi hlt _ (hget' ▸ hr') _ (hget ▸ hr))

/-- Requests that fail return no token. -/
theorem SingleUse.append {asks ext : List Ask} (hs : SingleUse asks)
    (hext : ∀ q ∈ ext, q.answer = .failed) : SingleUse (asks ++ ext) := by
  have hnil : ext.filterMap Ask.returned? = [] := by
    refine List.filterMap_eq_nil_iff.2 fun q hq => ?_
    rw [Ask.returned?, hext q hq]
    exact ite_self none
  rw [SingleUse, List.filterMap_append, hnil, List.append_nil]
  exact hs

/-! ### Finished refreshes -/

/-- A call that has ended has settled its refresh. -/
theorem settled_of_ended (hc : Reachable server c) {t : ℕ} {th : Thread sorts Call Raised Result}
    (ht : c.threads[t]? = some th) {p : P Result} (hp : th.prog = some p) (hend : p.Ended) :
    Settled server t c.shared := by
  have hi := reachable_inv hc
  have of_post : ∀ r, post server th.call th.started t r c.shared → Settled server t c.shared := by
    intro r hr
    cases hcall : th.call <;> rw [hcall] at hr
    case completeOauth =>
      obtain ⟨r', -, hno, -⟩ := hr
      exact hno.settled hi
    case accessToken => exact hr.1
    case connection => exact hr.1
    all_goals exact (NoToken.noRefresh hr).settled hi
  cases p with
  | ret a => exact of_post _ ((verified server).returned hc ht hp)
  | raise e => exact of_post _ ((verified server).raised hc ht hp)
  | act o k => exact hend.elim

/-- A call that has sent a request was killed, or is settled once it is run to its end, while its
further requests fail. -/
theorem killed_or_settled (hc : Reachable server c) (hq : q ∈ c.shared.asks) :
    (∃ th, c.threads[q.tid]? = some th ∧ th.prog = none) ∨
      ∃ c' ext, Reachable server c' ∧ c'.shared.asks = c.shared.asks ++ ext ∧
        (∀ q' ∈ ext, Ask.answer q' = .failed) ∧ Settled server q.tid c'.shared := by
  cases ht : c.threads[q.tid]? with
  | none =>
    have huntouched := ((verified server).good hc).untouched q.tid (List.getElem?_eq_none_iff.1 ht)
    exact absurd rfl (huntouched.asks q hq)
  | some th =>
    cases hprog : th.prog with
    | none => exact .inl ⟨th, rfl, hprog⟩
    | some p =>
      have hin := hc.inSession fun call => by cases call <;> exact ⟨_, rfl⟩
      have hwaits := hc.neverWaits (fun call => (body_prompt server call).neverWaits) th
        (List.mem_of_getElem? ht) p hprog
      obtain ⟨c', th', p', ext, hs, ht', -, hprog', hend, hasks, hext⟩ :=
        (system server).exists_ended (fun _ => .failed) hin ht hprog hwaits
      exact .inr ⟨c', ext, hc.steps hs, hasks, fun q' hq' => (hext q' hq').2,
        settled_of_ended (hc.steps hs) ht' hprog' hend⟩

/-! ### Refresh tokens that are sent -/

/-- What the thread of a refresh stores is for the credential. -/
theorem pairFor_of_refreshes (hi : (serial server).Inv g) (hq : g.asks[i]? = some q)
    (hp : q.query.purpose = .refreshes credential) {e : Entry sorts} (he : e ∈ g.history)
    (htid : e.tid = some q.tid) (hpair : e.label.pair? ≠ none) :
    e.label.pairFor credential ≠ none := by
  obtain ⟨x, hx⟩ := Option.ne_none_iff_exists'.1 hpair
  obtain ⟨q', hq', htid', -, htoken, hgives⟩ := hi.side.obtained e he x.1 x.2 hx
  obtain ⟨j, hj⟩ := List.mem_iff_getElem?.1 hq'
  have hij : i = j := hi.side.once i j q q' hq hj (Option.some.inj (htid.symm.trans htid'))
    (isToken_of_refreshes (hi.side.formed q (List.mem_of_getElem? hq)) hp) htoken
  subst hij
  obtain rfl := Option.some.inj (hq.symm.trans hj)
  cases hl : e.label <;> rw [hl] at hgives hx <;> try cases hx
  case credentialSaved =>
    obtain ⟨r, s, code, uri, verifier, cfg, hlinks, -⟩ := hgives
    cases hp.symm.trans hlinks
  case credentialRefreshed id pair =>
    obtain rfl : credential = id := Purpose.refreshes.inj (hp.symm.trans hgives.1)
    rw [Label.pairFor_of_some rfl, if_pos rfl]
    exact Option.some_ne_none pair

/-- The commit that stored the pair whose refresh token is sent. -/
theorem Ordered.exists_source {c : Uuid} {k : ℕ} (ho : Ordered g.history g.asks i q c k)
    {token : String} {configuration : Forgejo.ForgejoOAuthClientConfiguration}
    (hrequest : q.query.request = .token (.refreshToken token) configuration) :
    ∃ (m : ℕ) (e : Entry sorts) (pair : ForgejoOAuthTokens), m < k ∧ g.history[m]? = some e ∧
      e.label.pair? = some (c, pair) ∧ pair.refreshToken = token ∧
        ∀ (m' : ℕ) (e' : Entry sorts), m' < k → g.history[m']? = some e' →
          e'.label.pairFor c ≠ none → m' ≤ m := by
  obtain ⟨pair, cfg, hstored, hsent⟩ := ho.sends
  rw [hrequest] at hsent
  cases hsent
  obtain ⟨m, e, hm, he, hpair, hlast⟩ := exists_of_storedPair_take hstored
  exact ⟨m, e, pair, hm, he, hpair, rfl, hlast⟩

section

variable {c₁ c₂ : Uuid} {token : String}
  {configuration configuration' : Forgejo.ForgejoOAuthClientConfiguration}
  (hi : (serial server).Inv g) (hs : SingleUse g.asks) (hq : g.asks[i]? = some q)
  (hq' : g.asks[j]? = some q') (hp : q.query.purpose = .refreshes c₁)
  (hp' : q'.query.purpose = .refreshes c₂)
  (hrequest : q.query.request = .token (.refreshToken token) configuration)
  (hrequest' : q'.query.request = .token (.refreshToken token) configuration')

include hi hs hq hq' hp hp' hrequest hrequest'

/-- Two refreshes that send the same token are for one credential; and between the commits before
the one and the other no pair was stored for it. -/
theorem same_source : c₁ = c₂ ∧ ∃ k k', Ordered g.history g.asks i q c₁ k ∧
    Ordered g.history g.asks j q' c₁ k' ∧ ∀ (m : ℕ) (e : Entry sorts), m < k' →
      g.history[m]? = some e → e.label.pairFor c₁ ≠ none → m < k := by
  obtain ⟨k, ho⟩ := hi.side.ordered i q hq c₁ hp
  obtain ⟨k', ho'⟩ := hi.side.ordered j q' hq' c₂ hp'
  obtain ⟨m, e, pair, hm, he, hpair, htoken, -⟩ := ho.exists_source hrequest
  obtain ⟨m', e', pair', -, he', hpair', htoken', hlast⟩ := ho'.exists_source hrequest'
  -- both pairs are the answer to one request, whose thread has stored one pair
  obtain ⟨a, ha, htid, hanswer, hisToken, -⟩ :=
    hi.side.obtained e (List.mem_of_getElem? he) c₁ pair hpair
  obtain ⟨a', ha', htid', hanswer', hisToken', -⟩ :=
    hi.side.obtained e' (List.mem_of_getElem? he') c₂ pair' hpair'
  obtain ⟨o, ho₁⟩ := List.mem_iff_getElem?.1 ha
  obtain ⟨o', ho₁'⟩ := List.mem_iff_getElem?.1 ha'
  obtain rfl := hs.eq ho₁ ho₁' hisToken hisToken' hanswer hanswer' (htoken.trans htoken'.symm)
  obtain rfl := Option.some.inj (ho₁.symm.trans ho₁')
  obtain rfl := hi.side.storedOnce m m' e e' he he' (htid.trans htid'.symm)
    (hpair ▸ Option.some_ne_none _) (hpair' ▸ Option.some_ne_none _)
  obtain rfl := Option.some.inj (he.symm.trans he')
  obtain rfl : c₁ = c₂ := congrArg Prod.fst (Option.some.inj (hpair.symm.trans hpair'))
  exact ⟨rfl, k, k', ho, ho', fun n e₁ hn he₁ hne => (hlast n e₁ hn he₁ hne).trans_lt hm⟩

/-- A refresh token is not sent again once its thread has stored a pair. -/
theorem not_stored_of_resent (hij : i < j) {e : Entry sorts} (he : e ∈ g.history)
    (htid : e.tid = some q.tid) : e.label.pair? = none := by
  by_contra hpair
  obtain ⟨-, k, k', ho, ho', hbetween⟩ := same_source hi hs hq hq' hp hp' hrequest hrequest'
  have hne := pairFor_of_refreshes hi hq hp he htid hpair
  have htoken := isToken_of_refreshes (hi.side.formed q (List.mem_of_getElem? hq)) hp
  obtain ⟨m, hm⟩ := List.mem_iff_getElem?.1 he
  have hafter := ho.order m e hm hne i q hq htid htoken
  have hbefore := (ho'.order m e hm hne i q hq htid htoken).2 hij
  exact absurd (hafter.1 (hbetween m e hbefore hm hne)) (Nat.lt_irrefl i)

end

/-- A refresh token that Forgejo has accepted is not sent again. -/
theorem not_accepted_of_resent (hc : Reachable server c) (hs : SingleUse c.shared.asks)
    (hf : Finishes server accepts c) (hij : i < j) (hq : c.shared.asks[i]? = some q)
    (hq' : c.shared.asks[j]? = some q') {token : String}
    {configuration configuration' : Forgejo.ForgejoOAuthClientConfiguration}
    (hrequest : q.query.request = .token (.refreshToken token) configuration)
    (hrequest' : q'.query.request = .token (.refreshToken token) configuration') : ¬ accepts i := by
  intro haccepts
  have hi := reachable_inv hc
  obtain ⟨c₁, hp⟩ := (hi.side.formed q (List.mem_of_getElem? hq)).exists_refreshes hrequest
  obtain ⟨c₂, hp'⟩ := (hi.side.formed q' (List.mem_of_getElem? hq')).exists_refreshes hrequest'
  have hr : Rotates accepts c.shared i q c₁ := ⟨haccepts, hq, hp⟩
  obtain ⟨pair, hpair⟩ := Option.ne_none_iff_exists'.1 (hf.answered i q c₁ hr)
  obtain rfl : c₁ = c₂ := (same_source hi hs hq hq' hp hp' hrequest hrequest').1
  rcases killed_or_settled hc (List.mem_of_getElem? hq) with
    ⟨th, ht, hkilled⟩ | ⟨c', ext, hc', hasks, hext, hsettled⟩
  · obtain ⟨e, he, htid, hne⟩ := hf.alive i q c₁ hr th ht hkilled
    exact hne (not_stored_of_resent hi hs hq hq' hp hp' hrequest hrequest' hij he htid)
  · -- the requests are those of the run in which the call has ended
    have hlen := (List.getElem?_eq_some_iff.1 hq').1
    have hold : ∀ n, n < c.shared.asks.length → c'.shared.asks[n]? = c.shared.asks[n]? :=
      fun n hn => by rw [hasks, List.getElem?_append_left hn]
    have hq₁ := (hold i (hij.trans hlen)).trans hq
    have hq₁' := (hold j hlen).trans hq'
    have hs' : SingleUse c'.shared.asks := hasks ▸ hs.append hext
    rcases hsettled i q.query q.answer c₁ pair hq₁ hp hpair with
      ⟨e, he, htid, hl⟩ | ⟨f, query, answer, id, name, hif, hask, hpurpose, hno, hsilent⟩
    · have hnone := not_stored_of_resent (reachable_inv hc') hs' hq₁ hq₁' hp hp' hrequest hrequest'
        hij he htid
      rw [hl] at hnone
      cases hnone
    · by_cases hlt : f < c.shared.asks.length
      · exact hno (hf.confirmed i q c₁ hr f _ id name hif ((hold f hlt).symm.trans hask) rfl hpurpose)
      · exact hsilent j q' hij (hlen.trans_le (Nat.le_of_not_lt hlt)) hq₁' hp'

/-! ### Pairs that are returned -/

theorem storedPair_ne_none {h : List (Entry sorts)} {e : Entry sorts} (he : e ∈ h)
    (hne : e.label.pairFor credential ≠ none) : storedPair h credential ≠ none := by
  obtain ⟨pair, hpair⟩ := Option.ne_none_iff_exists'.1 hne
  rw [storedPair, ne_eq, List.getLast?_eq_none_iff]
  exact List.ne_nil_of_mem (List.mem_filterMap.2 ⟨e, he, hpair⟩)

/-- Commit `m` of thread `t` has stored the pair for the credential, which is active then; and while
it is active it holds this pair, or one that a later commit has stored. -/
structure Keeps (server : Server) (t m : ℕ) (credential : Uuid) (pair : ForgejoOAuthTokens)
    (g : Shared sorts) : Prop where
  committed : ∃ e, g.history[m]? = some e ∧ e.tid = some t ∧
    e.label = .credentialRefreshed credential pair
  stored : ∃ row ∈ (g.stateAt (m + 1)).forgejoCredentials, row.id = credential ∧
    row.status = .active ∧ HoldsPair server row pair
  later : ∀ n, m < n → ∀ row ∈ (g.stateAt n).forgejoCredentials, row.id = credential →
    row.status = .active → HoldsPair server row pair ∨
      ∃ (m' : ℕ) (e' : Entry sorts) (pair' : ForgejoOAuthTokens), m < m' ∧ m' < n ∧
        g.history[m']? = some e' ∧ e'.label.pair? = some (credential, pair') ∧
          HoldsPair server row pair'

theorem keeps_of_refreshed (hc : Reachable server c) {m t : ℕ} {e : Entry sorts}
    {pair : ForgejoOAuthTokens} (he : c.shared.history[m]? = some e) (htid : e.tid = some t)
    (hl : e.label = .credentialRefreshed credential pair) :
    Keeps server t m credential pair c.shared := by
  refine ⟨⟨e, he, htid, hl⟩, ?_, fun n hmn row hrow hid hactive => ?_⟩
  · have hs : Step server c.shared.base (c.shared.history.take m) e :=
      (reachable_inv hc).valid.step_at he
    unfold Step at hs
    simp only [hl] at hs
    obtain ⟨row, access, refresh, expiresAt, hdb, hget, hactive, haccess, hrefresh⟩ := hs
    have hid : row.id = credential := (Table.get_eq_some.1 hget).2
    rw [stateAt_of_getElem? he, hdb]
    refine ⟨(ForgejoCredential.storeTokens access refresh expiresAt).apply row,
      Table.mem_update.2 ⟨row, Table.mem_of_get hget, if_pos (decide_eq_true hid)⟩, hid, hactive,
      haccess, hrefresh⟩
  · have hpair : e.label.pairFor credential = some pair := by
      rw [Label.pairFor_of_some (by rw [hl]; rfl), if_pos rfl]
    have hmem : e ∈ c.shared.history.take n :=
      List.mem_of_getElem? ((List.getElem?_take_of_lt hmn).trans he)
    obtain ⟨last, hlast⟩ := Option.ne_none_iff_exists'.1
      (storedPair_ne_none hmem (hpair ▸ Option.some_ne_none pair))
    have hholds := (reachable_consistent hc n).holds row hrow hactive last (hid ▸ hlast)
    obtain ⟨m', e', hm', he', hpair', hle⟩ := exists_of_storedPair_take hlast
    rcases (hle m e hmn he (hpair ▸ Option.some_ne_none pair)).lt_or_eq with hlt | rfl
    · exact .inr ⟨m', e', last, hlt, hm', he', hpair', hholds⟩
    · obtain rfl := Option.some.inj (he.symm.trans he')
      rw [Label.pairFor_of_some hpair', if_pos rfl] at hpair
      exact .inl (Option.some.inj hpair ▸ hholds)

/-! ### The result -/

/-- In a run in which the refreshes that Forgejo accepts are finished, the pair that such a refresh
is answered with is stored once its call has ended, and stays until the credential is not active or
gets a newer one; and a refresh token that was accepted is not sent again. -/
theorem rotated_tokens_kept (hc : Reachable server c) (hs : SingleUse c.shared.asks)
    (hf : Finishes server accepts c) :
    (∀ i q credential pair, Rotates accepts c.shared i q credential → q.answer.pair? = some pair →
      ∀ th p, c.threads[q.tid]? = some th → th.prog = some p → p.Ended →
        ∃ m, Keeps server q.tid m credential pair c.shared) ∧
    ∀ (i j : ℕ) (q q' : Ask) token configuration configuration', i < j →
      c.shared.asks[i]? = some q → c.shared.asks[j]? = some q' →
      q.query.request = .token (.refreshToken token) configuration →
      q'.query.request = .token (.refreshToken token) configuration' → ¬ accepts i := by
  refine ⟨fun i q credential pair hr hpair th p ht hp hend => ?_,
    fun i j q q' token _ _ hij hq hq' hrequest hrequest' =>
      not_accepted_of_resent hc hs hf hij hq hq' hrequest hrequest'⟩
  rcases settled_of_ended hc ht hp hend i q.query q.answer credential pair hr.asked hr.refreshes
    hpair with ⟨e, he, htid, hl⟩ | ⟨f, query, answer, id, name, hif, hask, hpurpose, hno, -⟩
  · obtain ⟨m, hm⟩ := List.mem_iff_getElem?.1 he
    exact ⟨m, keeps_of_refreshed hc hm htid hl⟩
  · exact absurd (hf.confirmed i q credential hr f _ id name hif hask rfl hpurpose) hno

/-! ### Samples -/

/-- The pair of the sample user is refreshed. -/
def confirmedRefresh : List (Cue sorts Call) :=
  sampleLink ++ [sampleRefresh (samplePair "2" :: .user 7 "kim" :: quietly 30)]

theorem rotated_tokens_kept_sample : ∃ m pair, pair.refreshToken = "refresh-2" ∧
    Keeps sampleServer 2 m 7 pair (sampleRun confirmedRefresh).shared := by
  have hc : Reachable sampleServer (sampleRun confirmedRefresh) := sampleRun_reachable _
  have hasked : (sampleRun confirmedRefresh).shared.asks[2]? =
      some (2, sampleRefreshQuery, samplePair "2") := by
    decide +kernel
  have hconfirmed : ((sampleRun confirmedRefresh).shared.asks.drop 3).map (fun q =>
      (q.2.1.purpose, q.2.2)) = [(.confirms 7 7 "kim", .user 7 "kim")] := by
    decide +kernel
  have hcalled : ((sampleRun confirmedRefresh).threads[2]?).map (·.call) = some (.accessToken 0) := by
    decide +kernel
  have hreturned : ((sampleRun confirmedRefresh).threads[2]?).map Thread.returned? = some (some
      (.connection ⟨0, "https://forgejo.example", true⟩ (.oauth "access-2"))) := by
    decide +kernel
  obtain ⟨th, ht, -, hprog⟩ := Config.exists_returned hcalled hreturned
  obtain ⟨pair, hpair, htoken⟩ := Option.map_eq_some_iff.1
    (show ((samplePair "2").pair?).map (·.refreshToken) = some "refresh-2" by decide +kernel)
  have hf : Finishes sampleServer (· = 2) (sampleRun confirmedRefresh) := by
    constructor <;> rintro i q credential ⟨rfl, hq, -⟩ <;>
      obtain rfl := Option.some.inj (hasked.symm.trans hq)
    · exact hpair ▸ Option.some_ne_none pair
    · intro f q' id name hif hf' htid hpurpose
      have hmem : (q'.query.purpose, q'.answer) ∈
          ((sampleRun confirmedRefresh).shared.asks.drop 3).map fun q => (q.2.1.purpose, q.2.2) := by
        refine List.mem_map.2 ⟨q', List.mem_of_getElem? (i := f - 3) ?_, rfl⟩
        rw [List.getElem?_drop, Nat.add_sub_cancel' hif, hf']
      rw [hconfirmed, List.mem_singleton] at hmem
      obtain ⟨hp, ha⟩ := Prod.mk.inj hmem
      obtain ⟨-, rfl, rfl⟩ := Purpose.confirms.inj (hpurpose.symm.trans hp)
      rw [ha]
      exact ⟨⟨7, "kim"⟩, by decide +kernel, rfl, rfl⟩
    · intro th' ht' hkilled
      obtain rfl := Option.some.inj (ht.symm.trans ht')
      cases hprog.symm.trans hkilled
  obtain ⟨m, hm⟩ := (rotated_tokens_kept hc (by unfold SingleUse; decide +kernel) hf).1 2 _ 7 pair
    ⟨rfl, hasked, rfl⟩ hpair th _ ht hprog trivial
  exact ⟨m, pair, htoken, hm⟩

/-- The request for the identity of the sample user fails once the pair is refreshed, and the next
call refreshes it again. -/
def unconfirmedRefresh : List (Cue sorts Call) :=
  sampleLink ++ [sampleRefresh (samplePair "2" :: quietly 30),
    sampleRefresh (.status 400 :: quietly 30)]

theorem refresh_token_replayed : ∃ c : Config sorts Call Raised Result, Reachable sampleServer c ∧
    SingleUse c.shared.asks ∧ c.shared.asks[2]? = some (2, sampleRefreshQuery, samplePair "2") ∧
      (∃ e, (c.threads[2]?).map Thread.raised? = some (some e)) ∧
      (∀ e ∈ c.shared.history, e.tid ≠ some 2) ∧
      (∃ row ∈ c.shared.current.forgejoCredentials, row.id = 7 ∧ row.status = .active) ∧
      c.shared.asks[4]? = some (3, sampleRefreshQuery, .status 400) := by
  have hactive : ∃ row ∈ (sampleRun unconfirmedRefresh).shared.current.forgejoCredentials.rows,
      row.id = 7 ∧ row.status = .active := by
    decide +kernel
  refine ⟨sampleRun unconfirmedRefresh, sampleRun_reachable _, by unfold SingleUse; decide +kernel,
    by decide +kernel, ⟨.application (.externalServiceUnavailable "unable to connect to Forgejo"),
      by decide +kernel⟩, by decide +kernel, hactive, by decide +kernel⟩

end ForgejoMcp.Credentials
