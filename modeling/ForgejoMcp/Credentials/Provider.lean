import ForgejoMcp.Credentials.Serial
import ForgejoMcp.Transactions.Requests

/-!
# The requests to Forgejo

What the log of the requests has to do with the history of the commits: a stored pair is the answer
to a token request of the thread that stored it, a thread sends at most one token request, a code is
exchanged after its linking request was consumed, and a refresh sends the refresh token of the pair
that was stored last.
-/

namespace ForgejoMcp.Credentials

open Transactions

/-! ### Pairs -/

/-- The credential whose pair a commit stores, and the pair. -/
def Label.pair? : Label → Option (Uuid × ForgejoOAuthTokens)
  | .credentialSaved row _ pair _ => pair.map fun p => (row.id, p)
  | .credentialRefreshed id pair => some (id, pair)
  | _ => none

/-- The pair that a commit stores for a credential. -/
def Label.pairFor (c : Uuid) (l : Label) : Option ForgejoOAuthTokens :=
  (l.pair?.filter fun x => x.1 = c).map (·.2)

theorem Label.pairFor_eq_some {l : Label} {c : Uuid} {pair : ForgejoOAuthTokens} :
    l.pairFor c = some pair ↔ l.pair? = some (c, pair) := by
  rw [Label.pairFor]
  cases l.pair? with
  | none => simp
  | some x =>
    obtain ⟨c', p⟩ := x
    by_cases hc : c' = c <;> simp [Option.filter, hc]

theorem Label.pairFor_of_none {l : Label} (h : l.pair? = none) (c : Uuid) : l.pairFor c = none := by
  rw [Label.pairFor, h]
  rfl

theorem Label.pairFor_of_some {l : Label} {id : Uuid} {pair : ForgejoOAuthTokens}
    (h : l.pair? = some (id, pair)) (c : Uuid) :
    l.pairFor c = if c = id then some pair else none := by
  rw [Label.pairFor, h]
  by_cases hc : c = id
  · simp [Option.filter, hc]
  · simp [Option.filter, hc, Ne.symm hc]

/-- The pair that was stored last for a credential. -/
def storedPair (h : List (Entry sorts)) (c : Uuid) : Option ForgejoOAuthTokens :=
  (h.filterMap fun e => e.label.pairFor c).getLast?

theorem storedPair_concat (h : List (Entry sorts)) (e : Entry sorts) (c : Uuid) :
    storedPair (h ++ [e]) c = (e.label.pairFor c).or (storedPair h c) := by
  rw [storedPair, List.filterMap_append, storedPair]
  cases hp : e.label.pairFor c with
  | none => simp [hp]
  | some pair => simp [hp]

/-- The last commit that stored a pair for the credential. -/
theorem exists_of_storedPair {h : List (Entry sorts)} {c : Uuid} {pair : ForgejoOAuthTokens}
    (hs : storedPair h c = some pair) : ∃ (m : ℕ) (e : Entry sorts), h[m]? = some e ∧
      e.label.pair? = some (c, pair) ∧ ∀ (m' : ℕ) (e' : Entry sorts), m < m' → h[m']? = some e' →
        e'.label.pairFor c = none := by
  induction h using List.reverseRecOn with
  | nil => cases hs
  | append_singleton h e ih =>
    rw [storedPair_concat] at hs
    cases hp : e.label.pairFor c with
    | some p =>
      rw [hp, Option.some_or] at hs
      refine ⟨h.length, e, List.getElem?_concat_length, ?_, fun m' e' hm he' => ?_⟩
      · rw [← Label.pairFor_eq_some, hp, hs]
      · rcases getElem?_concat_eq_some.1 he' with he' | ⟨rfl, -⟩
        · exact absurd (List.getElem?_eq_some_iff.1 he').1 (by omega)
        · exact absurd hm (Nat.lt_irrefl _)
    | none =>
      rw [hp, Option.none_or] at hs
      obtain ⟨m, e₁, he₁, hpair, hlast⟩ := ih hs
      refine ⟨m, e₁, getElem?_concat_eq_some.2 (.inl he₁), hpair, fun m' e' hlt he' => ?_⟩
      rcases getElem?_concat_eq_some.1 he' with he' | ⟨-, rfl⟩
      · exact hlast m' e' hlt he'
      · exact hp

/-- The last of the first `k` commits that stored a pair for the credential. -/
theorem exists_of_storedPair_take {h : List (Entry sorts)} {c : Uuid} {pair : ForgejoOAuthTokens}
    {k : ℕ} (hs : storedPair (h.take k) c = some pair) : ∃ (m : ℕ) (e : Entry sorts), m < k ∧
      h[m]? = some e ∧ e.label.pair? = some (c, pair) ∧ ∀ (m' : ℕ) (e' : Entry sorts), m' < k →
        h[m']? = some e' → e'.label.pairFor c ≠ none → m' ≤ m := by
  obtain ⟨m, e, he, hpair, hlast⟩ := exists_of_storedPair hs
  have hm : m < k := by
    have hlt := (List.getElem?_eq_some_iff.1 he).1
    rw [List.length_take] at hlt
    exact hlt.trans_le (Nat.min_le_left _ _)
  refine ⟨m, e, hm, (List.getElem?_take_of_lt hm).symm.trans he, hpair, fun m' e' hm' he' hne => ?_⟩
  by_contra hlt
  exact hne (hlast m' e' (Nat.lt_of_not_le hlt) ((List.getElem?_take_of_lt hm').trans he'))

/-! ### Requests -/

/-- A request with its thread and its answer. -/
abbrev Ask := ℕ × Query × Answer

namespace Ask

variable (q : Ask)

/-- The thread that asked. -/
abbrev tid : ℕ := q.1

/-- What it asked. -/
abbrev query : Query := q.2.1

/-- What it was answered. -/
abbrev answer : Answer := q.2.2

end Ask

/-- The request is one of the token endpoint. -/
def Query.isToken (q : Query) : Bool :=
  match q.request with
  | .token _ _ => true
  | _ => false

/-- A token request is for a link or a refresh, by its grant; no other request is. -/
def Query.Formed (q : Query) : Prop :=
  match q.purpose with
  | .links _ _ => ∃ code uri verifier cfg, q.request = .token (.authorizationCode code uri verifier) cfg
  | .refreshes _ => ∃ token cfg, q.request = .token (.refreshToken token) cfg
  | _ => q.isToken = false

/-- A request with a refresh token refreshes a credential. -/
theorem Query.Formed.exists_refreshes {q : Query} (hf : q.Formed) {token : String}
    {configuration : Forgejo.ForgejoOAuthClientConfiguration}
    (hq : q.request = .token (.refreshToken token) configuration) :
    ∃ credential, q.purpose = .refreshes credential := by
  unfold Query.Formed at hf
  cases hp : q.purpose with
  | refreshes credential => exact ⟨credential, rfl⟩
  | links r s =>
    simp only [hp, hq] at hf
    obtain ⟨code, uri, verifier, cfg, hgrant⟩ := hf
    cases hgrant
  | _ =>
    simp only [hp, Query.isToken, hq] at hf
    cases hf

/-- The request gives the pair that a commit with the label stores. -/
def Query.Gives (q : Query) : Label → Prop
  | .credentialSaved row _ _ _ => ∃ r s code uri verifier cfg, q.purpose = .links r s ∧
      q.request = .token (.authorizationCode code uri verifier) cfg ∧
      row.oauthBaseUrl = some q.baseUrl ∧ row.oauthClientId = some cfg.clientId
  | .credentialRefreshed id _ => q.purpose = .refreshes id ∧ q.isToken = true
  | _ => False

/-- The request exchanges a code with what the linking request was started with. -/
def ForgejoOAuthRequest.ExchangedBy (flow : ForgejoOAuthRequest) (q : Query) : Prop :=
  q.baseUrl = flow.baseUrl ∧ ∃ code verifier cfg,
    q.request = .token (.authorizationCode code flow.redirectUrl verifier) cfg ∧
      cfg.clientId = flow.clientId ∧ cfg.redirectUrl = flow.redirectUrl ∧
      cfg.revision = flow.configRevision

/-- A code is exchanged for a linking request that the thread has consumed. -/
def Exchanges (q : Ask) (request session : Uuid) (e : Entry sorts) : Prop :=
  e.tid = some q.tid ∧ ∃ flow time, e.label = .requestConsumed flow time ∧ flow.id = request ∧
    flow.sessionId = session ∧ flow.ExchangedBy q.query

/-- A refresh sends the refresh token of the pair that was stored last after `k` commits: those that
store the pair of an earlier token request, and no other. -/
structure Ordered (h : List (Entry sorts)) (asks : List Ask) (j : ℕ) (q : Ask) (c : Uuid) (k : ℕ) :
    Prop where
  le : k ≤ h.length
  sends : ∃ pair cfg, storedPair (h.take k) c = some pair ∧
    q.query.request = .token (.refreshToken pair.refreshToken) cfg
  order : ∀ (m : ℕ) e, h[m]? = some e → e.label.pairFor c ≠ none → ∀ (o : ℕ) q', asks[o]? = some q' →
    e.tid = some q'.tid → q'.query.isToken = true → (m < k ↔ o < j)

/-- What ties the log of the requests to the history. -/
structure Side (h : List (Entry sorts)) (asks : List Ask) : Prop where
  formed : ∀ q ∈ asks, q.query.Formed
  obtained : ∀ e ∈ h, ∀ c pair, e.label.pair? = some (c, pair) → ∃ q ∈ asks, e.tid = some q.tid ∧
    q.answer.pair? = some pair ∧ q.query.isToken = true ∧ q.query.Gives e.label
  once : ∀ (i j : ℕ) q q', asks[i]? = some q → asks[j]? = some q' → q.tid = q'.tid →
    q.query.isToken = true → q'.query.isToken = true → i = j
  storedOnce : ∀ (i j : ℕ) e e', h[i]? = some e → h[j]? = some e' → e.tid = e'.tid →
    e.label.pair? ≠ none → e'.label.pair? ≠ none → i = j
  exchanges : ∀ q ∈ asks, ∀ r s, q.query.purpose = .links r s → ∃ e ∈ h, Exchanges q r s e
  ordered : ∀ (j : ℕ) q, asks[j]? = some q → ∀ c, q.query.purpose = .refreshes c →
    ∃ k, Ordered h asks j q c k

namespace Side

variable {h : List (Entry sorts)} {asks : List Ask}

theorem empty : Side [] [] where
  formed := fun _ hq => absurd hq List.not_mem_nil
  obtained := fun _ he => absurd he List.not_mem_nil
  once := fun _ _ _ _ hi => by cases hi
  storedOnce := fun _ _ _ _ hi => by cases hi
  exchanges := fun _ hq => absurd hq List.not_mem_nil
  ordered := fun _ _ hj => by cases hj

/-- Who has stored a pair has sent a token request. -/
theorem pair?_eq_none (hs : Side h asks) {t : ℕ}
    (hfirst : ∀ q ∈ asks, q.tid = t → q.query.isToken = false) :
    ∀ e ∈ h, e.tid = some t → e.label.pair? = none := by
  intro e he ht
  cases hp : e.label.pair? with
  | none => rfl
  | some x =>
    obtain ⟨q, hq, htid, -, htoken, -⟩ := hs.obtained e he x.1 x.2 hp
    have hfalse := hfirst q hq (Option.some.inj (htid.symm.trans ht))
    rw [htoken] at hfalse
    cases hfalse

/-- A commit that stores no pair. -/
theorem commit (hs : Side h asks) {e : Entry sorts} (hp : e.label.pair? = none) :
    Side (h ++ [e]) asks where
  formed := hs.formed
  obtained := fun e' he' c pair hpair => by
    rcases List.mem_append.1 he' with he' | he'
    · exact hs.obtained e' he' c pair hpair
    · rw [List.mem_singleton.1 he', hp] at hpair
      cases hpair
  once := hs.once
  storedOnce := fun i j e₁ e₂ hi hj htid h₁ h₂ => by
    rw [getElem?_concat_eq_some] at hi hj
    rcases hi with hi | ⟨-, rfl⟩
    · rcases hj with hj | ⟨-, rfl⟩
      · exact hs.storedOnce i j e₁ e₂ hi hj htid h₁ h₂
      · exact absurd hp h₂
    · exact absurd hp h₁
  exchanges := fun q hq r s hpurpose => by
    obtain ⟨e', he', hex⟩ := hs.exchanges q hq r s hpurpose
    exact ⟨e', List.mem_append_left _ he', hex⟩
  ordered := fun j q hj c hc => by
    obtain ⟨k, hk⟩ := hs.ordered j q hj c hc
    refine ⟨k, ?_, ?_, fun m e' hm hpair o q' ho htid htoken => ?_⟩
    · rw [List.length_append]
      exact Nat.le_trans hk.le (Nat.le_add_right _ _)
    · rw [List.take_append_of_le_length hk.le]
      exact hk.sends
    · rw [getElem?_concat_eq_some] at hm
      rcases hm with hm | ⟨-, rfl⟩
      · exact hk.order m e' hm hpair o q' ho htid htoken
      · exact absurd (Label.pairFor_of_none hp c) hpair

/-- A commit that stores the answer to a token request of its thread, after which no other request
has been about the credential. -/
theorem store (hs : Side h asks) {e : Entry sorts} {c : Uuid} {pair : ForgejoOAuthTokens}
    (hp : e.label.pair? = some (c, pair)) {o : ℕ} {q : Ask} (hq : asks[o]? = some q)
    (htid : e.tid = some q.tid) (hanswer : q.answer.pair? = some pair)
    (htoken : q.query.isToken = true) (hgives : q.query.Gives e.label)
    (hfirst : ∀ e' ∈ h, e'.tid = e.tid → e'.label.pair? = none)
    (hsilent : ∀ (j : ℕ) q', asks[j]? = some q' → q'.query.purpose = .refreshes c → j ≤ o) :
    Side (h ++ [e]) asks where
  formed := hs.formed
  obtained := fun e' he' c' pair' hpair => by
    rcases List.mem_append.1 he' with he' | he'
    · exact hs.obtained e' he' c' pair' hpair
    · obtain rfl := List.mem_singleton.1 he'
      rw [hp, Option.some.injEq, Prod.mk.injEq] at hpair
      exact ⟨q, List.mem_of_getElem? hq, htid, hpair.2 ▸ hanswer, htoken, hgives⟩
  once := hs.once
  storedOnce := fun i j e₁ e₂ hi hj heq h₁ h₂ => by
    rw [getElem?_concat_eq_some] at hi hj
    rcases hi with hi | ⟨rfl, rfl⟩
    · rcases hj with hj | ⟨rfl, rfl⟩
      · exact hs.storedOnce i j e₁ e₂ hi hj heq h₁ h₂
      · exact absurd (hfirst e₁ (List.mem_of_getElem? hi) heq) h₁
    · rcases hj with hj | ⟨rfl, rfl⟩
      · exact absurd (hfirst e₂ (List.mem_of_getElem? hj) heq.symm) h₂
      · rfl
  exchanges := fun q hq r s hpurpose => by
    obtain ⟨e', he', hex⟩ := hs.exchanges q hq r s hpurpose
    exact ⟨e', List.mem_append_left _ he', hex⟩
  ordered := fun j q' hj c' hc => by
    obtain ⟨k, hk⟩ := hs.ordered j q' hj c' hc
    refine ⟨k, ?_, ?_, fun m e' hm hpair o' q₁ ho htid₁ htoken₁ => ?_⟩
    · rw [List.length_append]
      exact Nat.le_trans hk.le (Nat.le_add_right _ _)
    · rw [List.take_append_of_le_length hk.le]
      exact hk.sends
    · rw [getElem?_concat_eq_some] at hm
      rcases hm with hm | ⟨rfl, rfl⟩
      · exact hk.order m e' hm hpair o' q₁ ho htid₁ htoken₁
      · -- the commit is later than the request, and so is the request it answers
        have hc' : c = c' := by
          by_contra hne
          exact hpair (by rw [Label.pairFor_of_some hp, if_neg (Ne.symm hne)])
        have ho' : o' = o := hs.once o' o q₁ q ho hq
          (Option.some.inj (htid₁.symm.trans htid)) htoken₁ htoken
        have hj' := hsilent j q' hj (hc' ▸ hc)
        have hkle := hk.le
        constructor <;> intro hlt <;> omega

/-- A request. If it is a token request it is the first one of its thread; a code is exchanged for a
request that was consumed; and a refresh sends the refresh token that was stored last. -/
theorem ask (hs : Side h asks) {q : Ask} (hformed : q.query.Formed)
    (hfirst : q.query.isToken = true → ∀ q' ∈ asks, q'.tid = q.tid → q'.query.isToken = false)
    (hlink : ∀ r s, q.query.purpose = .links r s → ∃ e ∈ h, Exchanges q r s e)
    (hrefresh : ∀ c, q.query.purpose = .refreshes c → ∃ pair cfg, storedPair h c = some pair ∧
      q.query.request = .token (.refreshToken pair.refreshToken) cfg) :
    Side h (asks ++ [q]) where
  formed := fun q' hq' => by
    rcases List.mem_append.1 hq' with hq' | hq'
    · exact hs.formed q' hq'
    · rw [List.mem_singleton.1 hq']
      exact hformed
  obtained := fun e he c pair hpair => by
    obtain ⟨q', hq', hobt⟩ := hs.obtained e he c pair hpair
    exact ⟨q', List.mem_append_left _ hq', hobt⟩
  once := fun i j q₁ q₂ hi hj htid h₁ h₂ => by
    rw [getElem?_concat_eq_some] at hi hj
    rcases hi with hi | ⟨rfl, rfl⟩
    · rcases hj with hj | ⟨rfl, rfl⟩
      · exact hs.once i j q₁ q₂ hi hj htid h₁ h₂
      · rw [hfirst h₂ q₁ (List.mem_of_getElem? hi) htid] at h₁
        cases h₁
    · rcases hj with hj | ⟨rfl, rfl⟩
      · rw [hfirst h₁ q₂ (List.mem_of_getElem? hj) htid.symm] at h₂
        cases h₂
      · rfl
  storedOnce := hs.storedOnce
  exchanges := fun q' hq' r s hpurpose => by
    rcases List.mem_append.1 hq' with hq' | hq'
    · exact hs.exchanges q' hq' r s hpurpose
    · obtain rfl := List.mem_singleton.1 hq'
      exact hlink r s hpurpose
  ordered := fun j q' hj c hc => by
    -- the thread of the new request has stored no pair
    have new : ∀ e ∈ h, e.label.pairFor c ≠ none → e.tid = some q.tid →
        q.query.isToken = true → False := by
      intro e he hpair htid htoken
      exact hpair (Label.pairFor_of_none (hs.pair?_eq_none (hfirst htoken) e he htid) c)
    rw [getElem?_concat_eq_some] at hj
    rcases hj with hj | ⟨rfl, rfl⟩
    · obtain ⟨k, hk⟩ := hs.ordered j q' hj c hc
      refine ⟨k, hk.le, hk.sends, fun m e hm hpair o q₁ ho htid htoken => ?_⟩
      rcases getElem?_concat_eq_some.1 ho with ho | ⟨-, rfl⟩
      · exact hk.order m e hm hpair o q₁ ho htid htoken
      · exact (new e (List.mem_of_getElem? hm) hpair htid htoken).elim
    · obtain ⟨pair, cfg, hpair, hrequest⟩ := hrefresh c hc
      refine ⟨h.length, Nat.le_refl _, ⟨pair, cfg, by rw [List.take_length, hpair], hrequest⟩,
        fun m e hm hpair o q₁ ho htid htoken => ?_⟩
      rcases getElem?_concat_eq_some.1 ho with ho | ⟨-, rfl⟩
      · exact iff_of_true (List.getElem?_eq_some_iff.1 hm).1 (List.getElem?_eq_some_iff.1 ho).1
      · exact (new e (List.mem_of_getElem? hm) hpair htid htoken).elim

end Side

end ForgejoMcp.Credentials
