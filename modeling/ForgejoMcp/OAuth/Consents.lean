import ForgejoMcp.OAuth.Changes

/-!
# Authorization requests and codes

A request is resolved, and a code consumed, by at most one commit.  A stored code is the one that the
approval of a request stored, but for its consumption.
-/

namespace ForgejoMcp.OAuth

open Transactions

variable {d : Deployment} {base : Db} {h : List (Entry sorts)} {e e' : Entry sorts} {k : Uuid}

/-! ### Rows only move forward -/

/-- A request keeps its columns, and stays resolved. -/
structure RequestLater (r s : OAuthAuthorizationRequest) : Prop where
  core : { s with resolvedAt := none } = { r with resolvedAt := none }
  resolved : r.resolvedAt ≠ none → s.resolvedAt ≠ none

/-- A code keeps its columns, and stays consumed. -/
structure CodeLater (r s : OAuthAuthorizationCode) : Prop where
  core : { s with consumedAt := none } = { r with consumedAt := none }
  consumed : r.consumedAt ≠ none → s.consumedAt ≠ none

theorem RequestLater.refl (r : OAuthAuthorizationRequest) : RequestLater r r := ⟨rfl, id⟩

theorem CodeLater.refl (r : OAuthAuthorizationCode) : CodeLater r r := ⟨rfl, id⟩

/-- The request found by the hash of an interaction. -/
def Db.presented (db : Db) (hash : String) : Option Uuid :=
  ((db.authorizationRequests.select fun r => r.requestTokenHash = hash).head?).map (·.id)

/-- The requests and codes of `a`, moved forward, are in `b`, and an interaction keeps its request. -/
structure ConsentLater (a b : Db) : Prop where
  requests : Table.Grows RequestLater a.authorizationRequests b.authorizationRequests
  codes : Table.Grows CodeLater a.authorizationCodes b.authorizationCodes
  presented : ∀ hash k, a.presented hash = some k → b.presented hash = some k

namespace ConsentLater

variable {a b c : Db}

theorem of_eq (hr : b.authorizationRequests = a.authorizationRequests)
    (hc : b.authorizationCodes = a.authorizationCodes) : ConsentLater a b where
  requests := hr ▸ .refl RequestLater.refl _
  codes := hc ▸ .refl CodeLater.refl _
  presented := fun hash k hk => by rwa [Db.presented, hr]

theorem trans (hab : ConsentLater a b) (hbc : ConsentLater b c) : ConsentLater a c where
  requests := hab.requests.trans
    (fun _ _ _ h h' => ⟨h'.core.trans h.core, h'.resolved ∘ h.resolved⟩) hbc.requests
  codes := hab.codes.trans
    (fun _ _ _ h h' => ⟨h'.core.trans h.core, h'.consumed ∘ h.consumed⟩) hbc.codes
  presented := fun hash k hk => hbc.presented hash k (hab.presented hash k hk)

theorem addRequest (request : OAuthAuthorizationRequest)
    (hr : b.authorizationRequests = a.authorizationRequests.insert request)
    (hc : b.authorizationCodes = a.authorizationCodes) : ConsentLater a b where
  requests := hr ▸ .insert RequestLater.refl _
  codes := hc ▸ .refl CodeLater.refl _
  presented := fun hash k hk => by
    rw [Db.presented, hr]
    cases hget : a.authorizationRequests.get request.id with
    | some r => rwa [Table.insert_of_get hget]
    | none =>
      obtain ⟨r, hr, hk⟩ := Option.map_eq_some_iff.1 hk
      rw [Table.select_insert hget, List.head?_append, hr, Option.some_or, Option.map_some, hk]

theorem resolveRequest (k : Uuid) (now : Time)
    (hr : b.authorizationRequests = (a.resolveRequest k now).authorizationRequests) (hc :
      Table.Grows CodeLater a.authorizationCodes b.authorizationCodes) : ConsentLater a b where
  requests := hr ▸ .update RequestLater.refl fun _ _ _ => ⟨rfl, fun _ => Option.some_ne_none _⟩
  codes := hc
  presented := fun hash k hk => by
    rw [Db.presented, hr, Db.resolveRequest, Table.select_update (fun _ => rfl), List.head?_map,
      Option.map_map]
    obtain ⟨r, hr, hk⟩ := Option.map_eq_some_iff.1 hk
    rw [hr, Option.map_some, Function.comp_apply, ← hk]
    split <;> rfl

/-- A step moves the requests and codes forward. -/
theorem step (hs : Step d base h e) : ConsentLater (after base h) e.db := by
  cases hs.consentChange with
  | same hr hc => exact .of_eq hr hc
  | requested request hr hc => exact .addRequest request hr hc
  | denied request now _ hr hc => exact .resolveRequest request now hr (hc ▸ .refl CodeLater.refl _)
  | approved request code secret tools now _ _ _ _ hr hc =>
    exact .resolveRequest request now hr (hc ▸ .insert CodeLater.refl _)
  | consumed codeId i now _ hr hc =>
    refine ⟨hr ▸ .refl RequestLater.refl _, ?_, fun hash k hk => by rwa [Db.presented, hr]⟩
    rw [hc]
    exact .update CodeLater.refl fun _ _ _ => ⟨rfl, fun _ => Option.some_ne_none _⟩

theorem of_valid (hv : Valid (Step d) base h) {i j : ℕ} (hij : i ≤ j) :
    ConsentLater (after base (h.take i)) (after base (h.take j)) :=
  hv.monotone ConsentLater (fun _ => .of_eq rfl rfl) (fun _ _ _ => .trans) (fun _ _ _ => .step) hij

end ConsentLater

/-! ### The origin of a code -/

theorem Db.get_resolveRequest {db : Db} {r : OAuthAuthorizationRequest} {now : Time}
    (hr : db.authorizationRequests.get k = some r) :
    (db.resolveRequest k now).authorizationRequests.get k =
      some { r with resolvedAt := some now } := by
  rw [Db.resolveRequest, Table.get_update, hr, Option.map_some,
    if_pos (decide_eq_true (Table.key_of_get hr))]

/-- The commit is the approval of `request` at the time `now` that stored the code `codeId`: it is
for the selected tools and valid for one of the offered times. -/
structure Approves (d : Deployment) (e : Entry sorts) (request : Uuid) (selected : List String)
    (now : Time) (codeId : Uuid) (code : OAuthAuthorizationCode) : Prop where
  label : ∃ secret, e.label = .approved request codeId secret selected
  resolved : ∃ r, e.db.authorizationRequests.get request = some r ∧ r.resolvedAt = some now
  toolNames : code.toolNames = sorted selected
  expires : ∃ ttl ∈ d.oauthGrantTtlOptionsDays, code.refreshExpiresAt = some (now + days ttl)

/-- A stored code was stored by an approval. -/
theorem Start.approved (hs : Start base) (hv : Valid (Step d) base h) {codeId : Uuid}
    {code : OAuthAuthorizationCode}
    (hcode : (after base h).authorizationCodes.get codeId = some code) :
    ∃ e ∈ h, ∃ request selected now, Approves d e request selected now codeId code := by
  induction hv generalizing code with
  | nil =>
    rw [after_nil, hs.authorizationCodes] at hcode
    cases hcode
  | @snoc h e hv hstep ih =>
    have earlier : ∀ {code' : OAuthAuthorizationCode},
        (after base h).authorizationCodes.get codeId = some code' → CodeLater code' code →
        ∃ e' ∈ h ++ [e], ∃ request selected now, Approves d e' request selected now codeId code := by
      intro code' hget hlater
      obtain ⟨e', he', request, selected, now, ha⟩ := ih hget
      have htools : code.toolNames = code'.toolNames :=
        (congrArg OAuthAuthorizationCode.toolNames hlater.core :)
      have hexp : code.refreshExpiresAt = code'.refreshExpiresAt :=
        (congrArg OAuthAuthorizationCode.refreshExpiresAt hlater.core :)
      exact ⟨e', List.mem_append_left _ he', request, selected, now, ha.label, ha.resolved,
        htools.trans ha.toolNames, hexp ▸ ha.expires⟩
    rw [after_concat] at hcode
    cases hstep.consentChange with
    | same _ hcodes => exact earlier (hcodes ▸ hcode) (.refl code)
    | requested _ _ hcodes => exact earlier (hcodes ▸ hcode) (.refl code)
    | denied _ _ _ _ hcodes => exact earlier (hcodes ▸ hcode) (.refl code)
    | approved request code' secret selected now hl hfresh htools hexp hrequests hcodes =>
      rw [hcodes] at hcode
      rcases Table.mem_or_eq_of_mem_insert (Table.mem_of_get hcode) with hold | rfl
      · exact earlier (Table.key_of_get hcode ▸ Table.get_of_mem hold) (.refl code)
      · have hid : code.id = codeId := Table.key_of_get hcode
        refine ⟨e, List.mem_append_right _ (List.mem_singleton_self e), request, selected, now,
          ⟨secret, hid ▸ hl⟩, ?_, htools, hexp⟩
        have hstep' := hstep
        unfold Step at hstep'
        rw [hl] at hstep'
        obtain ⟨-, -, -, -, ⟨r, hr, -⟩, -⟩ := hstep'
        exact ⟨{ r with resolvedAt := some now }, hrequests ▸ Db.get_resolveRequest hr, rfl⟩
    | consumed codeId' i now _ _ hcodes =>
      rw [hcodes, Db.consumeCode, Table.get_update] at hcode
      obtain ⟨code', hget, rfl⟩ := Option.map_eq_some_iff.1 hcode
      refine earlier hget ?_
      split
      · exact ⟨rfl, fun _ => Option.some_ne_none _⟩
      · exact .refl code'

/-- A fresh number is no code. -/
theorem Fresh.get_code (hf : Fresh d base h k) (hs : Start base) (hv : Valid (Step d) base h) :
    (after base h).authorizationCodes.get k = none := by
  by_contra hne
  obtain ⟨code, hcode⟩ := Option.ne_none_iff_exists'.1 hne
  obtain ⟨e, he, request, selected, now, ⟨secret, hl⟩, -⟩ := hs.approved hv hcode
  exact hf.2 e he (by rw [hl]; exact List.mem_cons_self)

/-! ### At most once -/

/-- The request a commit resolved, if any. -/
def Label.resolves? : Label → Option Uuid
  | .denied request => some request
  | .approved request _ _ _ => some request
  | _ => none

/-- The code a commit consumed, if any. -/
def Label.consumes? : Label → Option Uuid
  | .issued code _ => some code
  | _ => none

/-- The request is stored and resolved. -/
def Db.Resolved (db : Db) (k : Uuid) : Prop :=
  ∃ r, db.authorizationRequests.get k = some r ∧ r.resolvedAt ≠ none

/-- The code is stored and consumed. -/
def Db.Consumed (db : Db) (k : Uuid) : Prop :=
  ∃ r, db.authorizationCodes.get k = some r ∧ r.consumedAt ≠ none

theorem ConsentLater.resolved {a b : Db} (hab : ConsentLater a b) (ha : a.Resolved k) :
    b.Resolved k := by
  obtain ⟨r, hr, hres⟩ := ha
  obtain ⟨s, hs, hlater⟩ := hab.requests k r hr
  exact ⟨s, hs, hlater.resolved hres⟩

theorem ConsentLater.consumed {a b : Db} (hab : ConsentLater a b) (ha : a.Consumed k) :
    b.Consumed k := by
  obtain ⟨r, hr, hcon⟩ := ha
  obtain ⟨s, hs, hlater⟩ := hab.codes k r hr
  exact ⟨s, hs, hlater.consumed hcon⟩

theorem Db.resolved_resolveRequest {db : Db} {r : OAuthAuthorizationRequest} {now : Time}
    (hr : db.authorizationRequests.get k = some r) : (db.resolveRequest k now).Resolved k :=
  ⟨{ r with resolvedAt := some now }, Db.get_resolveRequest hr, Option.some_ne_none now⟩

/-- A resolution finds its request open and leaves it resolved. -/
theorem Step.resolves (hs : Step d base h e) (hl : e.label.resolves? = some k) :
    ¬ (after base h).Resolved k ∧ e.db.Resolved k := by
  have open' : ∀ {r : OAuthAuthorizationRequest},
      (after base h).authorizationRequests.get k = some r → r.resolvedAt = none →
      ¬ (after base h).Resolved k := by
    rintro r hr hopen ⟨s, hs, hres⟩
    rw [hr, Option.some.injEq] at hs
    exact hres (hs ▸ hopen)
  unfold Step at hs
  cases he : e.label with
  | denied request =>
    rw [he] at hs hl
    cases hl
    obtain ⟨now, log, hdb, r, hr, hopen⟩ := hs
    exact ⟨open' hr hopen, hdb ▸ Db.resolved_resolveRequest hr⟩
  | approved request code secret tools =>
    rw [he] at hs hl
    cases hl
    obtain ⟨code, now, log, hdb, ⟨r, hr, hopen⟩, -⟩ := hs
    exact ⟨open' hr hopen, hdb ▸ Db.resolved_resolveRequest hr⟩
  | _ => rw [he] at hl; cases hl

/-- An exchange finds its code open and leaves it consumed. -/
theorem Step.consumes (hs : Step d base h e) (hl : e.label.consumes? = some k) :
    ¬ (after base h).Consumed k ∧ e.db.Consumed k := by
  unfold Step at hs
  cases he : e.label with
  | issued code i =>
    rw [he] at hs hl
    cases hl
    obtain ⟨r, now, log, hdb, hx⟩ := hs
    refine ⟨?_, hdb ▸ ⟨{ r with consumedAt := some now }, ?_, Option.some_ne_none now⟩⟩
    · rintro ⟨s, hs, hcon⟩
      rw [hx.found, Option.some.injEq] at hs
      exact hcon (hs ▸ hx.unconsumed)
    · have hget : ((after base h).consumeCode k now).authorizationCodes.get k =
          some { r with consumedAt := some now } := by
        rw [Db.consumeCode, Table.get_update, hx.found, Option.map_some,
          if_pos (decide_eq_true (Table.key_of_get hx.found))]
      exact hget
  | _ => rw [he] at hl; cases hl

/-- A request is resolved by at most one commit. -/
theorem index_eq_of_resolves (hv : Valid (Step d) base h) {a b : ℕ} (ha : h[a]? = some e)
    (hb : h[b]? = some e') (hl : e.label.resolves? = some k) (hl' : e'.label.resolves? = some k) :
    a = b :=
  hv.index_eq_of_once (fun db => db.Resolved k) (fun l => l.resolves? = some k)
    (fun _ _ hs => (ConsentLater.step hs).resolved) (fun _ _ hs => hs.resolves) ha hb hl hl'

/-- A code is exchanged by at most one commit. -/
theorem index_eq_of_consumes (hv : Valid (Step d) base h) {a b : ℕ} (ha : h[a]? = some e)
    (hb : h[b]? = some e') (hl : e.label.consumes? = some k) (hl' : e'.label.consumes? = some k) :
    a = b :=
  hv.index_eq_of_once (fun db => db.Consumed k) (fun l => l.consumes? = some k)
    (fun _ _ hs => (ConsentLater.step hs).consumed) (fun _ _ hs => hs.consumes) ha hb hl hl'

end ForgejoMcp.OAuth
