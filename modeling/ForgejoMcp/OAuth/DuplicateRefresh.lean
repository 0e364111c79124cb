import ForgejoMcp.OAuth.FamilyRevocation

/-!
# Duplicate refreshes are safe

At most one pair is minted from a refresh token, every call that succeeds returns that pair, and a
call that presents a rotated token too late fails and leaves its family revoked.
-/

namespace ForgejoMcp.OAuth

open Transactions

variable {d : Deployment} {base : Db} {h : List (Entry sorts)} {e e' : Entry sorts}
  {c : Config sorts Call Failure Result} {g : Shared sorts}

/-! ### Rotations -/

/-- The refresh token a commit rotated, if any. -/
def Label.rotates? : Label → Option Uuid
  | .rotated parent _ _ _ _ => some parent
  | _ => none

/-- A rotated refresh token is marked. -/
theorem Step.rotatedAt_ne_none (hs : Step d base h e) {k : Uuid} (hl : e.label.rotates? = some k) :
    ∃ r, e.db.refreshTokens.get k = some r ∧ r.rotatedAt ≠ none := by
  cases he : e.label with
  | rotated parent oldToken readAt now i =>
    rw [he] at hl
    cases hl
    unfold Step at hs
    rw [he] at hs
    obtain ⟨r, m, log, -, hdb, hx⟩ := hs
    have hmark : ((after base h).markRotated k now).refreshTokens.get k =
        some { r with rotatedAt := some now } := by
      rw [Db.markRotated, Table.get_update, hx.presents.record, Option.map_some,
        if_pos (decide_eq_true (Table.key_of_get hx.presents.record))]
    refine ⟨{ r with rotatedAt := some now }, ?_, Option.some_ne_none now⟩
    rw [hdb]
    exact Table.get_insert_of_get hmark
  | _ => rw [he] at hl; cases hl

/-- A rotation finds its token unrotated. -/
theorem Step.unrotated (hs : Step d base h e) {k : Uuid} (hl : e.label.rotates? = some k) :
    ∃ r, (after base h).refreshTokens.get k = some r ∧ r.rotatedAt = none := by
  cases he : e.label with
  | rotated parent oldToken readAt now i =>
    rw [he] at hl
    cases hl
    unfold Step at hs
    rw [he] at hs
    obtain ⟨r, m, log, -, -, hx⟩ := hs
    exact ⟨r, hx.presents.record, hx.unrotated⟩
  | _ => rw [he] at hl; cases hl

/-- A refresh token is rotated by at most one commit. -/
theorem index_eq_of_rotates (hv : Valid (Step d) base h) {a b : ℕ} {k : Uuid}
    (ha : h[a]? = some e) (hb : h[b]? = some e') (hl : e.label.rotates? = some k)
    (hl' : e'.label.rotates? = some k) : a = b := by
  have not_lt : ∀ {a b : ℕ} {e e' : Entry sorts}, h[a]? = some e → h[b]? = some e' →
      e.label.rotates? = some k → e'.label.rotates? = some k → ¬ a < b := by
    intro a b e e' ha hb hl hl' hab
    -- the token is marked after the earlier commit, and still so before the later one
    obtain ⟨r, hr, hrot⟩ := (hv.step_at ha).rotatedAt_ne_none hl
    obtain ⟨s, hs, hun⟩ := (hv.step_at hb).unrotated hl'
    have hstate : after base (h.take (a + 1)) = e.db := by
      rw [List.take_add_one, ha, Option.toList_some, after_concat]
    obtain ⟨r', hr', hlater⟩ := (Later.of_valid hv (Nat.succ_le_of_lt hab)).refreshTokens k r
      (by rw [hstate, hr])
    rw [hs, Option.some.injEq] at hr'
    rw [hr', hlater.rotated hrot] at hun
    exact hrot hun
  have hab := not_lt ha hb hl hl'
  have hba := not_lt hb ha hl' hl
  omega

/-- Pairs minted from one refresh token are one pair. -/
theorem Minted.unique (hv : Valid (Step d) base h) {k : Uuid} {pair pair' : OAuthToken}
    (hm : Minted d h k pair) (hm' : Minted d h k pair') : pair = pair' := by
  obtain ⟨e, he, oldToken, readAt, now, i, hl, rfl⟩ := hm
  obtain ⟨e', he', oldToken', readAt', now', i', hl', rfl⟩ := hm'
  obtain ⟨a, ha⟩ := List.mem_iff_getElem?.1 he
  obtain ⟨b, hb⟩ := List.mem_iff_getElem?.1 he'
  obtain rfl := index_eq_of_rotates hv ha hb (by rw [hl]; rfl) (by rw [hl']; rfl)
  rw [ha, Option.some.injEq] at hb
  rw [← hb, hl] at hl'
  cases hl'
  rfl

/-! ### Calls that succeed -/

/-- The refresh token a call presents, if it is a refresh. -/
def Call.presented? : Call → Option Uuid
  | .exchangeRefreshToken _ token _ => some token.recordId
  | _ => none

/-- A refresh that succeeds returns the pair minted from its token. -/
theorem Refreshed.minted {tok : StoredRefreshToken} {t n : ℕ} {pair : OAuthToken}
    (hr : Refreshed d tok t n pair g) (hi : (serial d).Inv g) :
    Minted d g.history tok.recordId pair := by
  obtain ⟨base, h, e, r, time, hcom, -, -, hlabel⟩ := hr
  obtain ⟨ext, hext⟩ := hcom.isPrefix
  rcases hlabel with ⟨oldToken, readAt, now, i, hl, hpair, -⟩ | ⟨hl, -⟩
  · refine ⟨e, ?_, oldToken, readAt, now, i, hl, hpair⟩
    rw [← hext]
    exact List.mem_append_left _ (List.mem_append_right _ (List.mem_singleton_self e))
  · have hstep := hcom.step hi
    simp only [serial, Step, hl] at hstep
    obtain ⟨r, log, -, -, -, hm⟩ := hstep
    rw [← hext, List.append_assoc]
    exact hm.append _

theorem minted_of_ret (hc : Reachable d c) {t : ℕ} {th : Thread sorts Call Failure Result}
    {k : Uuid} {r : Result} (ht : c.threads[t]? = some th) (hk : th.call.presented? = some k)
    (hend : th.prog = some (.ret r)) : ∃ pair, r = .token pair ∧ Minted d c.shared.history k pair := by
  have hpost := (verified d).returned hc ht hend
  obtain ⟨call, started, prog, session⟩ := th
  cases call with
  | exchangeRefreshToken clientId tok scopes =>
    cases hk
    obtain ⟨r', hr', hpost⟩ := hpost
    match r', hr' with
    | .ok pair, hr' =>
      cases hr'
      exact ⟨pair, rfl, Refreshed.minted hpost (reachable_inv hc)⟩
  | _ => cases hk

/-! ### Late replays -/

/-- A client keeps its `client_id`. -/
def ClientLater (r s : OAuthClient) : Prop := s.clientId = r.clientId

theorem ClientLater.refl (r : OAuthClient) : ClientLater r r := rfl

theorem ClientLater.trans (r s u : OAuthClient) (hrs : ClientLater r s) (hsu : ClientLater s u) :
    ClientLater r u :=
  Eq.trans hsu hrs

/-- Clients stay registered. -/
theorem Step.clients (hs : Step d base h e) :
    Table.Grows ClientLater (after base h).oauthClients e.db.oauthClients := by
  have refl : ∀ {db : Db}, e.db.oauthClients = db.oauthClients →
      Table.Grows ClientLater db.oauthClients e.db.oauthClients :=
    fun heq => heq ▸ .refl ClientLater.refl _
  unfold Step at hs
  cases he : e.label with
  | dashboard token family =>
    rw [he] at hs
    cases family with
    | none =>
      obtain ⟨now, log, row, hdb, -⟩ := hs
      exact refl (congrArg Db.oauthClients hdb :)
    | some family =>
      obtain ⟨now, time, log, hdb, -⟩ := hs
      exact refl (congrArg Db.oauthClients hdb :)
  | environment =>
    rw [he] at hs
    obtain ⟨change, hdb⟩ := hs
    cases change with
    | register client =>
      have heq : e.db.oauthClients = _ := (congrArg Db.oauthClients hdb :)
      rw [heq]
      exact .trans ClientLater.trans (.update ClientLater.refl fun _ _ _ => by exact rfl)
        (.insert ClientLater.refl client)
    | _ => exact refl (congrArg Db.oauthClients hdb :)
  | _ =>
    rw [he] at hs
    first
      | obtain ⟨_, _, hdb⟩ := hs; exact refl (congrArg Db.oauthClients hdb :)
      | obtain ⟨_, _, hdb, -⟩ := hs; exact refl (congrArg Db.oauthClients hdb :)
      | obtain ⟨_, _, _, hdb, -⟩ := hs; exact refl (congrArg Db.oauthClients hdb :)
      | obtain ⟨_, _, _, -, hdb, -⟩ := hs; exact refl (congrArg Db.oauthClients hdb :)

theorem stateAt_clients (hi : (serial d).Inv g) {m n : ℕ} (hmn : m ≤ n) :
    Table.Grows ClientLater (g.stateAt m).oauthClients (g.stateAt n).oauthClients :=
  hi.valid.monotone (fun a b => Table.Grows ClientLater a.oauthClients b.oauthClients)
    (fun _ => .refl ClientLater.refl _) (fun _ _ _ => .trans ClientLater.trans)
    (fun _ _ _ hs => hs.clients) hmn

/-- Thread `t` presents the rotated token `r`, of an admissible scope and by the matching client, and
every time it reads is before the expiry of the token and after its grace period, if there is one. -/
structure LateReplay (d : Deployment) (g : Shared sorts) (t : ℕ)
    (th : Thread sorts Call Failure Result) (r : OAuthRefreshToken) (rotatedAt : Time) : Prop where
  call : ∃ client tok scopes, th.call = .exchangeRefreshToken (some client.clientId) tok scopes ∧
    (g.stateAt th.started).refreshTokens.get tok.recordId = some r ∧ tok.familyId = r.familyId ∧
    (g.stateAt th.started).oauthClients.get r.clientId = some client ∧ scopes ⊆ r.scopes
  rotated : r.rotatedAt = some rotatedAt
  unexpired : ∀ time, (t, time) ∈ g.readings → time < r.expiresAt
  late : 0 < d.oauthRefreshTokenReuseGraceSeconds → ∀ time, (t, time) ∈ g.readings →
    seconds d.oauthRefreshTokenReuseGraceSeconds < time - rotatedAt

variable {t : ℕ} {th : Thread sorts Call Failure Result} {r : OAuthRefreshToken} {rotatedAt : Time}

theorem LateReplay.not_inGrace (hl : LateReplay d g t th r rotatedAt) {r' : OAuthRefreshToken}
    (hr' : r'.rotatedAt = r.rotatedAt) {time : Time} (hread : (t, time) ∈ g.readings) :
    ¬ InGrace d r' time := by
  rintro ⟨rotatedAt', hrot, hpos, hle⟩
  rw [hr', hl.rotated, Option.some.injEq] at hrot
  have hlt := hl.late hpos time hread
  exact absurd hle (not_le.2 (hrot ▸ hlt))

theorem LateReplay.not_ret (hc : Reachable d c) (hl : LateReplay d c.shared t th r rotatedAt)
    (ht : c.threads[t]? = some th) (res : Result) : th.prog ≠ some (.ret res) := by
  intro hend
  have hi := reachable_inv hc
  have hpost := (verified d).returned hc ht hend
  obtain ⟨client, tok, scopes, hcall, hr, -⟩ := hl.call
  rw [hcall] at hpost
  obtain ⟨r', hr', hpost⟩ := hpost
  match r', hr' with
  | .ok pair, hr' =>
    obtain ⟨base, h, e, s', time, hcom, hread, ⟨hs', -⟩, hlabel⟩ := hpost
    have hprefix : h <+: c.shared.history := (List.prefix_append h [e]).trans hcom.isPrefix
    have hstate : c.shared.stateAt h.length = after base h := by
      rw [Shared.stateAt, ← List.prefix_iff_eq_take.1 hprefix, hcom.base]
    obtain ⟨s, hs, hlater⟩ := (stateAt_later hi hcom.started).refreshTokens _ _ hr
    rw [hstate] at hs
    have hrot : s.rotatedAt = r.rotatedAt := hlater.rotated (hl.rotated ▸ Option.some_ne_none _)
    rcases hlabel with ⟨oldToken, readAt, now, i, he, -⟩ | ⟨he, hgrace⟩
    · obtain ⟨s', hs', hun⟩ := Step.unrotated (hcom.step hi) (k := tok.recordId) (by rw [he]; rfl)
      rw [hs, Option.some.injEq] at hs'
      rw [← hs', hrot, hl.rotated] at hun
      cases hun
    · rw [hs, Option.some.injEq] at hs'
      exact hl.not_inGrace (hs' ▸ hrot) hread hgrace

theorem LateReplay.revoked (hc : Reachable d c) (hl : LateReplay d c.shared t th r rotatedAt)
    (ht : c.threads[t]? = some th) {x : Failure} (hend : th.prog = some (.raise x)) :
    Revoked c.shared.current r.familyId := by
  have hi := reachable_inv hc
  have hpost := (verified d).raised hc ht hend
  obtain ⟨client, tok, scopes, hcall, hr, hfam, hclient, hscopes⟩ := hl.call
  rw [hcall] at hpost
  obtain ⟨r', hr', hpost⟩ := hpost
  match r', hr' with
  | .error x', hr' =>
    obtain ⟨⟨time, hread, m, hsm, hm, hwhy⟩, -⟩ := hpost
    obtain ⟨s, hs, hlater⟩ := (stateAt_later hi hsm).refreshTokens _ _ hr
    have hsf : s.familyId = r.familyId := (congrArg OAuthRefreshToken.familyId hlater.core :)
    have hsc : s.clientId = r.clientId := (congrArg OAuthRefreshToken.clientId hlater.core :)
    have hrot : s.rotatedAt = r.rotatedAt := hlater.rotated (hl.rotated ▸ Option.some_ne_none _)
    obtain ⟨client', hclient', hcl⟩ := stateAt_clients hi hsm _ _ hclient
    have close : ∀ family, (c.shared.stateAt m).tokenFamilies.get r.familyId = some family →
        family.revokedAt ≠ none → Revoked c.shared.current r.familyId := fun family hf hrev =>
      stateAt_length c.shared ▸ revoked_of_le hi hf hrev hm
    have hstored : (c.shared.stateAt m).tokenFamilies.get r.familyId ≠ none :=
      hsf ▸ (stateAt_consistent hi m).linked.family _ s hs
    cases hwhy with
    | noFamily hnone => exact absurd hnone (hfam ▸ hstored)
    | revokedFamily family hf hrev => exact close family (hfam ▸ hf) hrev
    | noRecord hnone => rw [hs] at hnone; cases hnone
    | record s' hs' hwhy =>
      rw [hs, Option.some.injEq] at hs'
      subst hs'
      cases hwhy with
      | family hne => exact absurd (hsf.trans hfam.symm) hne
      | expired hle =>
        have hse : s.expiresAt = r.expiresAt := (congrArg OAuthRefreshToken.expiresAt hlater.core :)
        exact absurd (hl.unexpired time hread) (not_lt.2 (hse ▸ hle))
      | revoked hrev =>
        -- the tokens of an open family are not revoked
        obtain ⟨family, hf⟩ := Option.ne_none_iff_exists'.1 hstored
        refine close family hf fun hopen => ?_
        obtain ⟨past, newest, hchain⟩ := (stateAt_consistent hi m).chains r.familyId hstored
        have hmem : s ∈ past ++ [newest] := hchain.lineage ▸ hsf ▸ Db.mem_lineage_of_get hs
        exact hrev ((hchain.live family hf hopen).1 s hmem)
      | resource hne =>
        exact absurd ((hi.start.origins_of_valid (hi.valid.take m)).resource _ _ hs) hne
      | scopes hnot =>
        have hss : s.scopes = r.scopes := (congrArg OAuthRefreshToken.scopes hlater.core :)
        exact absurd hscopes (hss ▸ hnot)
      | noClient hnone => rw [hsc, hclient'] at hnone; cases hnone
      | client client'' hget hne =>
        rw [hsc, hclient', Option.some.injEq] at hget
        exact absurd (congrArg some (hget ▸ hcl)) hne
      | unrotated hun => rw [hrot, hl.rotated] at hun; cases hun
      | inGrace hgrace => exact absurd hgrace (hl.not_inGrace hrot hread)

/-! ### The result -/

/-- Duplicate refreshes are safe: one refresh token is rotated at most once; all calls that present it
and succeed return the one pair minted from it; and a late replay does not succeed, and leaves the
family revoked when it has failed. -/
theorem duplicate_refresh_safe (hc : Reachable d c) :
    (∀ (k : Uuid) (a b : ℕ) (e e' : Entry sorts), c.shared.history[a]? = some e →
      c.shared.history[b]? = some e' → e.label.rotates? = some k → e'.label.rotates? = some k →
      a = b) ∧
    (∀ (k : Uuid) (t t' : ℕ) th th' r r', c.threads[t]? = some th → c.threads[t']? = some th' →
      th.call.presented? = some k → th'.call.presented? = some k → th.prog = some (.ret r) →
      th'.prog = some (.ret r') → r = r' ∧ ∃ pair, r = .token pair ∧
        Minted d c.shared.history k pair) ∧
    ∀ (t : ℕ) th r rotatedAt, c.threads[t]? = some th → LateReplay d c.shared t th r rotatedAt →
      (∀ res, th.prog ≠ some (.ret res)) ∧
      ∀ x, th.prog = some (.raise x) → Revoked c.shared.current r.familyId := by
  have hi := reachable_inv hc
  refine ⟨fun k a b e e' ha hb hl hl' => index_eq_of_rotates hi.valid ha hb hl hl',
    fun k t t' th th' r r' ht ht' hk hk' hend hend' => ?_,
    fun t th r rotatedAt ht hl => ⟨hl.not_ret hc ht, fun x hend => hl.revoked hc ht hend⟩⟩
  obtain ⟨pair, rfl, hm⟩ := minted_of_ret hc ht hk hend
  obtain ⟨pair', rfl, hm'⟩ := minted_of_ret hc ht' hk' hend'
  exact ⟨congrArg Result.token (hm.unique hi.valid hm'), pair, rfl, hm⟩

/-- The sample refresh token is rotated, and presented again after the grace period. -/
def lateReplayScript : List (Cue sorts Call) :=
  sampleIssue ["read"] ++ [sampleRefresh 6, .tick (seconds 11), sampleRefresh 6]

theorem duplicate_refresh_sample :
    ∃ th x, (sampleRun lateReplayScript).threads[3]? = some th ∧ th.prog = some (.raise x) ∧
      Revoked (sampleRun lateReplayScript).shared.current 2 := by
  have hsome : ((sampleRun lateReplayScript).threads[3]?).isSome = true := by decide +kernel
  obtain ⟨th, hth⟩ := Option.isSome_iff_exists.1 hsome
  have view : ∀ {β : Type} (f : Thread sorts Call Failure Result → β) (b : β),
      ((sampleRun lateReplayScript).threads[3]?).map f = some b → f th = b := fun f b hb => by
    rw [hth] at hb
    exact Option.some.inj hb
  have hcall : th.call = refreshOf 6 := view _ _ (by decide +kernel)
  have hstarted : th.started = 3 := view _ _ (by decide +kernel)
  have hraise : th.raised? = some (invalidGrant "refresh token reuse was detected") :=
    view _ _ (by decide +kernel)
  have hread : ∀ x ∈ (sampleRun lateReplayScript).shared.readings, x.1 = 3 → x.2 = seconds 11 := by
    decide +kernel
  refine ⟨th, _, hth, Thread.prog_of_raised? hraise, ?_⟩
  refine ((duplicate_refresh_safe (sampleRun_reachable _)).2.2 3 th
    ⟨6, "fmcp_rt_aaaa", "fmcp_rt_aaaa", 2, 0, 0, ["mcp"], "https://mcp.example/mcp", some 5,
      days 30, some 0, none⟩ 0 hth ⟨⟨⟨0, "client", "client", none⟩, _, _, hcall, ?_, rfl, ?_, ?_⟩,
      rfl, fun time ht => ?_, fun _ time ht => ?_⟩).2 _ (Thread.prog_of_raised? hraise)
  · rw [hstarted]
    decide +kernel
  · rw [hstarted]
    decide +kernel
  · exact List.Subset.refl _
  · have htime : time = seconds 11 := hread _ ht rfl
    rw [htime]
    decide
  · have htime : time = seconds 11 := hread _ ht rfl
    rw [htime]
    decide

end ForgejoMcp.OAuth
