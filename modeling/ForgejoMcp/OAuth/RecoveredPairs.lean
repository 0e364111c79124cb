import ForgejoMcp.OAuth.DuplicateRefresh
import ForgejoMcp.OAuth.FamilyChain

/-!
# Which returned pairs are usable

A refresh that rotates its token returns a pair that is live.  A refresh that recovers a pair from
the cache returns the pair of the first rotation, which is live as long as that rotation is the last
one of the family.
-/

namespace ForgejoMcp.OAuth

open Transactions

variable {d : Deployment} {base : Db} {h : List (Entry sorts)} {e : Entry sorts} {f : Uuid}
  {c : Config sorts Call Failure Result} {g : Shared sorts} {pair : OAuthToken}

/-- The access token of the pair is enabled and not revoked, its refresh token neither rotated nor
revoked. -/
structure Usable (d : Deployment) (db : Db) (pair : OAuthToken) : Prop where
  access : ∃ token ∈ db.mcpTokens, token.tokenHash = d.hashToken pair.accessToken ∧
    token.enabled = true ∧ token.revokedAt = none
  refresh : ∃ r ∈ db.refreshTokens, r.tokenHash = d.hashToken pair.refreshToken ∧
    r.rotatedAt = none ∧ r.revokedAt = none

/-- The access token of the pair is disabled and revoked, and its refresh token rotated. -/
structure Superseded (d : Deployment) (db : Db) (pair : OAuthToken) : Prop where
  access : ∃ token ∈ db.mcpTokens, token.tokenHash = d.hashToken pair.accessToken ∧
    token.enabled = false ∧ token.revokedAt ≠ none
  refresh : ∃ r ∈ db.refreshTokens, r.tokenHash = d.hashToken pair.refreshToken ∧
    r.rotatedAt ≠ none

/-- The refresh token that the last committed rotation of a family presented. -/
def lastRotated (h : List (Entry sorts)) (f : Uuid) : Option Uuid :=
  (rotations h f).getLast?.map Prod.fst

/-- A rotation mints a usable pair. -/
theorem Step.usable (hk : KnownRows (Known d base h) (after base h)) (hs : Step d base h e)
    {i : Issue} (hl : e.label.issue? = some i) : Usable d e.db (i.token d) := by
  obtain ⟨hr, hm⟩ := hs.stored hk hl
  exact ⟨⟨_, Table.mem_of_get hm, rfl, rfl, rfl⟩, ⟨_, Table.mem_of_get hr, rfl, rfl, rfl⟩⟩

/-! ### The pair of the last rotation -/

theorem rotations_nodup (hs : Start base) (hv : Valid (Step d) base h) (f : Uuid) :
    ((rotations h f).map Prod.fst).Nodup ∧ ((rotations h f).map Prod.snd).Nodup := by
  rw [rotations_eq_neighbours hs hv, map_fst_neighbours, map_snd_neighbours]
  exact ⟨(Db.lineageIds_nodup f).sublist (List.dropLast_sublist _),
    (Db.lineageIds_nodup f).sublist (List.tail_sublist _)⟩

/-- The token minted by a rotation is the newest of its family exactly if the rotation is the last. -/
theorem eq_newest_iff_lastRotated (hs : Start base) (hv : Valid (Step d) base h)
    {past : List OAuthRefreshToken} {newest : OAuthRefreshToken}
    (hchain : Chain (after base h) f past newest) {k k' : Uuid} (hk : (k, k') ∈ rotations h f) :
    k' = newest.id ↔ lastRotated h f = some k := by
  have hids : (after base h).lineageIds f = past.map (·.id) ++ [newest.id] := by
    rw [Db.lineageIds, hchain.lineage, List.map_append, List.map_singleton]
  have hlinks := rotations_eq_neighbours hs hv f
  obtain ⟨hfst, hsnd⟩ := rotations_nodup hs hv f
  rcases List.eq_nil_or_concat past with rfl | ⟨past', parent, rfl⟩
  · -- a family of one token has no rotations
    rw [hlinks, hids] at hk
    exact absurd hk List.not_mem_nil
  · have hlast : rotations h f = neighbours (past'.map (·.id) ++ [parent.id]) ++
        [(parent.id, newest.id)] := by
      rw [hlinks, hids, List.concat_eq_append, List.map_append, List.map_singleton,
        neighbours_concat]
    have hmem : (parent.id, newest.id) ∈ rotations h f :=
      hlast ▸ List.mem_append_right _ (List.mem_singleton_self _)
    have hlast' : lastRotated h f = some parent.id := by
      rw [lastRotated, hlast, List.getLast?_concat, Option.map_some]
    rw [hlast', Option.some.injEq]
    constructor
    · rintro rfl
      exact (congrArg Prod.fst (List.inj_on_of_nodup_map hsnd hk hmem rfl)).symm
    · rintro rfl
      exact congrArg Prod.snd (List.inj_on_of_nodup_map hfst hk hmem rfl)

/-- In an open family, the pair minted from a token is usable if its rotation is the last of the
family, and superseded otherwise. -/
theorem Presents.usable_or_superseded (hs : Start base) (hv : Valid (Step d) base h) {k : Uuid}
    {r : OAuthRefreshToken} (hp : Presents base h k r) (hm : Minted d h k pair) :
    (lastRotated h r.familyId = some k ∧ Usable d (after base h) pair) ∨
      (lastRotated h r.familyId ≠ some k ∧ Superseded d (after base h) pair) := by
  obtain ⟨e, he, oldToken, readAt, now, i, hl, rfl⟩ := hm
  obtain ⟨family, hfam, hopen⟩ := hp.family
  obtain ⟨past, newest, hchain⟩ :=
    (hs.consistent_of_valid hv).chains r.familyId (hfam ▸ Option.some_ne_none family)
  obtain ⟨s, token, hsget, hslater, htoken, htlater⟩ :=
    hs.stored hv (i := i) ⟨e, he, by rw [hl]; rfl⟩
  have hsid : s.id = i.refreshId := Table.key_of_get hsget
  have hsm : s.mcpTokenId = some i.accessId :=
    (congrArg OAuthRefreshToken.mcpTokenId hslater.core :)
  have hshash : s.tokenHash = d.hashToken (i.token d).refreshToken :=
    (congrArg OAuthRefreshToken.tokenHash hslater.core :)
  have hthash : token.tokenHash = d.hashToken (i.token d).accessToken :=
    (congrArg McpToken.tokenHash htlater.core :)
  -- the pair was minted in the family of the presented token
  have hif : i.familyId = r.familyId := by
    obtain ⟨a, ha⟩ := List.mem_iff_getElem?.1 he
    have hstep := hv.step_at ha
    unfold Step at hstep
    rw [hl] at hstep
    obtain ⟨r', m, log, -, -, hx⟩ := hstep
    have hlater : Later (after base (h.take a)) (after base h) := by
      have hof := Later.of_valid hv (List.getElem?_eq_some_iff.1 ha).1.le
      rwa [List.take_length] at hof
    obtain ⟨r'', hr'', hcore⟩ := hlater.refreshTokens _ _ hx.presents.record
    rw [hp.record, Option.some.injEq] at hr''
    rw [hx.familyId, hr'']
    exact (congrArg OAuthRefreshToken.familyId hcore.core :).symm
  have hsf : s.familyId = r.familyId :=
    (congrArg OAuthRefreshToken.familyId hslater.core :).trans hif
  have hmem : s ∈ past ++ [newest] := hchain.lineage ▸ hsf ▸ Db.mem_lineage_of_get hsget
  have hrot : (k, s.id) ∈ rotations h r.familyId := by
    refine List.mem_filterMap.2 ⟨e, he, ?_⟩
    rw [hl, hsid]
    exact if_pos hif
  have hiff := eq_newest_iff_lastRotated hs hv hchain hrot
  obtain ⟨hunrev, halive⟩ := hchain.live family hfam hopen
  rcases List.mem_append.1 hmem with hpast | hnew
  · refine .inr ⟨fun hlast => ?_, ?_⟩
    · have hsn : s = newest := by
        have hnewest : newest ∈ (after base h).lineage r.familyId :=
          hchain.lineage ▸ List.mem_append_right _ (List.mem_singleton_self _)
        have hget := (Db.mem_lineage.1 hnewest).1
        rw [← hiff.2 hlast, hsid, hsget, Option.some.injEq] at hget
        exact hget
      exact hchain.rotated s hpast (hsn ▸ hchain.unrotated)
    · obtain ⟨⟨dead, hdead, hdis, hrev⟩, -⟩ := hchain.superseded s hpast _ hsm
      rw [htoken, Option.some.injEq] at hdead
      exact ⟨⟨token, Table.mem_of_get htoken, hthash, hdead ▸ hdis, hdead ▸ hrev⟩,
        ⟨s, Table.mem_of_get hsget, hshash, hchain.rotated s hpast⟩⟩
  · obtain rfl := List.mem_singleton.1 hnew
    refine .inl ⟨hiff.1 rfl, ?_⟩
    obtain ⟨⟨alive, hal, hen, hrev⟩, -⟩ := halive _ hsm
    rw [htoken, Option.some.injEq] at hal
    exact ⟨⟨token, Table.mem_of_get htoken, hthash, hal ▸ hen, hal ▸ hrev⟩,
      ⟨s, Table.mem_of_get hsget, hshash, hchain.unrotated, hunrev s hmem⟩⟩

/-- A superseded pair is not usable: its tokens are the only ones with their hashes. -/
theorem Superseded.not_usable (hs : Start base) (hv : Valid (Step d) base h)
    (hp : Superseded d (after base h) pair) : ¬ Usable d (after base h) pair := by
  rintro ⟨-, r, hr, hhash, hun, -⟩
  obtain ⟨r', hr', hhash', hrot⟩ := hp.refresh
  have hget := Table.get_of_mem hr
  have hget' := Table.get_of_mem hr'
  have hid := (hs.origins_of_valid hv).refresh_unique hv hget hget' (hhash.trans hhash'.symm)
  rw [hid, hget', Option.some.injEq] at hget
  exact hrot (hget ▸ hun)

/-! ### The result -/

/-- The pair of every refresh that has returned one is usable at the commit of the refresh. -/
def ReturnsUsable (d : Deployment) (c : Config sorts Call Failure Result) : Prop :=
  ∀ (t : ℕ) th pair, c.threads[t]? = some th → th.call.presented? ≠ none →
    th.prog = some (.ret (.token pair)) →
    ∀ e ∈ c.shared.history, e.tid = some t → Usable d e.db pair

/-- A refresh that returns a pair has committed once, after `n` commits. Either it minted the pair,
which it leaves usable; or it recovered the pair minted from its token, which is usable if no later
rotation of the family was committed before, and superseded otherwise. -/
theorem returned_pair_usable_or_superseded (hc : Reachable d c) {t : ℕ}
    {th : Thread sorts Call Failure Result} {k : Uuid} (ht : c.threads[t]? = some th)
    (hk : th.call.presented? = some k) (hend : th.prog = some (.ret (.token pair))) :
    ∃ n e, c.shared.history[n]? = some e ∧ e.tid = some t ∧
      (∀ e' ∈ c.shared.history, e'.tid = some t → e' = e) ∧
      ((e.label.rotates? = some k ∧ Usable d e.db pair) ∨
        (e.label = .recovered k pair ∧ Minted d (c.shared.history.take n) k pair ∧
          ∃ r, (c.shared.stateAt n).refreshTokens.get k = some r ∧
            (Usable d e.db pair ↔ lastRotated (c.shared.history.take n) r.familyId = some k) ∧
            (¬ Usable d e.db pair → Superseded d e.db pair))) := by
  have hi := reachable_inv hc
  have hpost := (verified d).returned hc ht hend
  obtain ⟨call, started, prog, session⟩ := th
  cases call with
  | exchangeRefreshToken clientId tok scopes =>
    cases hk
    obtain ⟨r', hr', hpost⟩ := hpost
    match r', hr' with
    | .ok pair, hr' =>
      cases hr'
      obtain ⟨base, h, e, r, time, hcom, -, -, hlabel⟩ := hpost
      obtain rfl := hcom.base
      obtain ⟨ext, hext⟩ := hcom.isPrefix
      have hv : Valid (Step d) c.shared.base h := (hcom.valid hi).of_append
      have hstep : Step d c.shared.base h e := hcom.step hi
      have htake : c.shared.history.take h.length = h := by
        rw [← hext, List.append_assoc, List.take_left]
      refine ⟨h.length, e, ?_, hcom.tid, fun _ => hcom.eq_of_mem, ?_⟩
      · rw [← hext, List.append_assoc, List.getElem?_append_right (Nat.le_refl _), Nat.sub_self]
        rfl
      rw [Shared.stateAt, htake]
      rcases hlabel with ⟨oldToken, readAt, now, i, hl, rfl, -⟩ | ⟨hl, -⟩
      · exact .inl ⟨by rw [hl]; rfl, hstep.usable (hi.start.consistent_of_valid hv).known
          (by rw [hl]; rfl)⟩
      · refine .inr ⟨hl, ?_⟩
        unfold Step at hstep
        rw [hl] at hstep
        obtain ⟨r, log, hdb, hp, -, hm⟩ := hstep
        refine ⟨hm, r, hp.record, ?_⟩
        -- the audit event is all that the commit adds
        have usable : Usable d e.db pair ↔ Usable d (after c.shared.base h) pair :=
          hdb ▸ ⟨fun hu => ⟨hu.access, hu.refresh⟩, fun hu => ⟨hu.access, hu.refresh⟩⟩
        rw [usable]
        rcases hp.usable_or_superseded hi.start hv hm with ⟨hlast, hu⟩ | ⟨hlast, hsup⟩
        · exact ⟨iff_of_true hu hlast, fun hnot => absurd hu hnot⟩
        · exact ⟨iff_of_false (hsup.not_usable hi.start hv) hlast,
            fun _ => hdb ▸ ⟨hsup.access, hsup.refresh⟩⟩
  | _ => cases hk

/-- The refresh token of the sample is rotated, so is the token minted from it, and then the first one
is presented again, all within the grace period. -/
def supersededPairScript : List (Cue sorts Call) :=
  sampleIssue ["read"] ++ [sampleRefresh 6, sampleRefresh 10, sampleRefresh 6]

theorem superseded_pair_returned : Reachable .sample (sampleRun supersededPairScript) ∧
    ¬ ReturnsUsable .sample (sampleRun supersededPairScript) := by
  refine ⟨sampleRun_reachable _, fun hall => ?_⟩
  have hsome : ((sampleRun supersededPairScript).threads[4]?).isSome = true := by decide +kernel
  obtain ⟨th, hth⟩ := Option.isSome_iff_exists.1 hsome
  have hcall : ((sampleRun supersededPairScript).threads[4]?).map (·.call) = some (refreshOf 6) := by
    decide +kernel
  have hret : ((sampleRun supersededPairScript).threads[4]?).map (·.returned?) = some (some (.token
      ⟨"fmcp_aaaaaaa", "Bearer", 3600, "mcp", "fmcp_rt_aaaaaaaa"⟩)) := by
    decide +kernel
  rw [hth, Option.map_some, Option.some.injEq] at hcall hret
  have hlast : ((sampleRun supersededPairScript).shared.history[4]?).isSome = true := by
    decide +kernel
  obtain ⟨e, he⟩ := Option.isSome_iff_exists.1 hlast
  have htid : ((sampleRun supersededPairScript).shared.history[4]?).map (·.tid) = some (some 4) := by
    decide +kernel
  have hrot : ((sampleRun supersededPairScript).shared.history[4]?).all fun e => decide
      (∀ r ∈ e.db.refreshTokens.rows, r.tokenHash = "fmcp_rt_aaaaaaaa" → r.rotatedAt ≠ none) := by
    decide +kernel
  rw [he] at htid hrot
  obtain ⟨-, r, hr, hhash, hun, -⟩ := hall 4 th _ hth (by rw [hcall]; exact Option.some_ne_none _)
    (Thread.prog_of_returned? hret) e (List.mem_of_getElem? he) (Option.some.inj htid)
  exact of_decide_eq_true hrot r hr hhash hun

theorem returned_pair_sample : ∃ th pair, ∃ (n : ℕ) (e : Entry sorts),
    (sampleRun supersededPairScript).threads[2]? = some th ∧
    th.prog = some (.ret (.token pair)) ∧
    (sampleRun supersededPairScript).shared.history[n]? = some e ∧ e.tid = some 2 ∧
    (Usable .sample e.db pair ∨ e.label = .recovered 6 pair) := by
  have hsome : ((sampleRun supersededPairScript).threads[2]?).isSome = true := by decide +kernel
  obtain ⟨th, hth⟩ := Option.isSome_iff_exists.1 hsome
  have hcall : ((sampleRun supersededPairScript).threads[2]?).map (·.call) = some (refreshOf 6) := by
    decide +kernel
  have hret : ((sampleRun supersededPairScript).threads[2]?).map (·.returned?) = some (some (.token
      ⟨"fmcp_aaaaaaa", "Bearer", 3600, "mcp", "fmcp_rt_aaaaaaaa"⟩)) := by
    decide +kernel
  rw [hth, Option.map_some, Option.some.injEq] at hcall hret
  obtain ⟨n, e, hn, he, -, hcases⟩ := returned_pair_usable_or_superseded (k := 6)
    (sampleRun_reachable supersededPairScript) hth (by rw [hcall]; rfl)
    (Thread.prog_of_returned? hret)
  exact ⟨th, _, n, e, hth, Thread.prog_of_returned? hret, hn, he,
    hcases.imp (fun hx => hx.2) fun hx => hx.1⟩

end ForgejoMcp.OAuth
