import ForgejoMcp.OAuth.FamilyRevocation

/-!
# Token families are linear chains

The rotations committed in a family are the consecutive pairs of its refresh tokens, in the order in
which these were minted; at most the newest of them is live, and only its access token may be.
-/

namespace ForgejoMcp.OAuth

open Transactions

variable {d : Deployment} {base : Db} {h : List (Entry sorts)} {e : Entry sorts} {f : Uuid}
  {c : Config sorts Call Failure Result}

/-! ### Lineages -/

namespace Db

variable (db : Db)

/-- The identifiers of the refresh tokens of a family, in the order in which they were minted. -/
def lineageIds (f : Uuid) : List Uuid := (db.lineage f).map (·.id)

/-- The token is enabled and not revoked. -/
def Live (m : Uuid) : Prop :=
  ∃ token, db.mcpTokens.get m = some token ∧ token.enabled = true ∧ token.revokedAt = none

variable {db}

theorem lineageIds_nodup (f : Uuid) : (db.lineageIds f).Nodup :=
  db.refreshTokens.nodup.sublist (List.filter_sublist.map _)

theorem lineageIds_markRotated (k : Uuid) (now : Time) :
    (db.markRotated k now).lineageIds f = db.lineageIds f := by
  rw [lineageIds, SameFamily.lineage_markRotated, List.map_map, lineageIds]
  refine List.map_congr_left fun r _ => ?_
  simp only [Function.comp_apply]
  split <;> rfl

theorem lineageIds_revokeFamily (f' : Uuid) (tokens : List Uuid) (time : Time) :
    (db.revokeFamily f' tokens time).lineageIds f = db.lineageIds f := by
  have hsel : (db.revokeFamily f' tokens time).lineage f = (db.lineage f).map fun r =>
      if decide (r.familyId = f') then { r with revokedAt := some time } else r :=
    Table.select_update fun _ => rfl
  rw [lineageIds, hsel, List.map_map, lineageIds]
  refine List.map_congr_left fun r _ => ?_
  simp only [Function.comp_apply]
  split <;> rfl

theorem lineageIds_issue {i : Issue} (hR : db.refreshTokens.get i.refreshId = none) :
    (db.issue d i).lineageIds f =
      db.lineageIds f ++ if i.familyId = f then [i.refreshId] else [] := by
  have hins : (db.issue d i).lineage f =
      db.lineage f ++ [i.refreshRecord d].filter fun r => r.familyId = f :=
    Table.select_insert (r := i.refreshRecord d) hR
  rw [lineageIds, hins, List.map_append, lineageIds]
  congr 1
  by_cases hf : i.familyId = f <;> simp [Issue.refreshRecord, hf]

theorem lineageIds_congr {a b : Db} (hab : SameCore a b) : b.lineageIds f = a.lineageIds f := by
  rw [lineageIds, hab.lineage, lineageIds]

end Db

/-- The refresh token a commit minted in the family `f`. -/
def Label.minted (f : Uuid) (l : Label) : List Uuid :=
  match l.issue? with
  | some i => if i.familyId = f then [i.refreshId] else []
  | none => []

/-- A step appends what it minted to the lineage. -/
theorem Step.lineageIds (hk : KnownRows (Known d base h) (after base h)) (hs : Step d base h e) :
    e.db.lineageIds f = (after base h).lineageIds f ++ e.label.minted f := by
  have unminted : e.label.issue? = none → e.label.minted f = [] := fun hl => by
    rw [Label.minted, hl]
  rcases hs.coreChange with ⟨hl, -, hdb⟩ | ⟨codeId, i, code, hl, hx, hdb⟩ |
    ⟨parent, m, readAt, now, i, r, hl, hx, hdb⟩ | ⟨f', tokens, time, hl, -, -, -, -, hdb⟩ |
    ⟨f', token, tokens, time, now, hl, -, -, -, -, -, hdb⟩ |
    ⟨token, row, now, hl, -, -, -, -, hdb⟩ | ⟨token, secret, hl, -, -, -, -, hdb⟩ |
    ⟨token, now, hl, -, hdb⟩
  · rw [unminted hl, List.append_nil, Db.lineageIds_congr hdb]
  · have hnone : ((after base h).openFamily i.familyId).refreshTokens.get i.refreshId = none :=
      hk.refreshTokens.get_eq_none hx.issues.refreshId.not_known
    rw [Db.lineageIds_congr hdb, Db.lineageIds_issue hnone, hl]
    rfl
  · obtain ⟨selected, hi, -⟩ := hx.issues
    have hnone := ((hk.markRotated parent now).revokeToken m now).refreshTokens.get_eq_none
      hi.refreshId.not_known
    have hmark : (((after base h).markRotated parent now).revokeToken m now).lineageIds f =
        (after base h).lineageIds f := Db.lineageIds_markRotated parent now
    rw [Db.lineageIds_congr hdb, Db.lineageIds_issue hnone, hmark, hl]
    rfl
  · rw [unminted hl, List.append_nil, Db.lineageIds_congr hdb, Db.lineageIds_revokeFamily]
  · have hdis : (((after base h).revokeFamily f' tokens time).disableToken token now).lineageIds f =
        ((after base h).revokeFamily f' tokens time).lineageIds f := rfl
    rw [unminted hl, List.append_nil, Db.lineageIds_congr hdb, hdis, Db.lineageIds_revokeFamily]
  · rw [unminted hl, List.append_nil, Db.lineageIds_congr hdb]
    rfl
  · rw [unminted (by rw [hl]; rfl), List.append_nil, Db.lineageIds_congr hdb]
    rfl
  · rw [unminted hl, List.append_nil, Db.lineageIds_congr hdb]
    rfl

/-! ### Rotations -/

/-- The rotations of a family, in the order in which they were committed: the token that was rotated
and the token that was minted. -/
def rotations (h : List (Entry sorts)) (f : Uuid) : List (Uuid × Uuid) :=
  h.filterMap fun e => match e.label with
    | .rotated parent _ _ _ i => if i.familyId = f then some (parent, i.refreshId) else none
    | _ => none

theorem rotations_snoc (h : List (Entry sorts)) (e : Entry sorts) (f : Uuid) :
    rotations (h ++ [e]) f = rotations h f ++ rotations [e] f :=
  List.filterMap_append

/-- The pairs of neighbours of a list. -/
def neighbours {α : Type} (l : List α) : List (α × α) := l.zip l.tail

theorem neighbours_concat {α : Type} (l : List α) (a b : α) :
    neighbours (l ++ [a] ++ [b]) = neighbours (l ++ [a]) ++ [(a, b)] := by
  induction l with
  | nil => rfl
  | cons x l ih =>
    cases l with
    | nil => rfl
    | cons y l =>
      have hcons : ∀ l' : List α, neighbours (x :: y :: l') = (x, y) :: neighbours (y :: l') :=
        fun _ => rfl
      simp only [List.cons_append] at ih ⊢
      rw [hcons, hcons, ih, List.cons_append]

/-- The rotations of a family are the pairs of neighbours of its lineage. -/
theorem rotations_eq_neighbours (hs : Start base) (hv : Valid (Step d) base h) (f : Uuid) :
    rotations h f = neighbours ((after base h).lineageIds f) := by
  induction hv with
  | nil =>
    rw [after_nil, Db.lineageIds, Db.lineage, hs.refreshTokens]
    rfl
  | @snoc h e hv hstep ih =>
    have hcon := hs.consistent_of_valid hv
    rw [after_concat, hstep.lineageIds hcon.known, rotations_snoc, ih]
    have silent : rotations [e] f = [] → e.label.minted f = [] →
        neighbours ((after base h).lineageIds f) ++ rotations [e] f =
          neighbours ((after base h).lineageIds f ++ e.label.minted f) := fun hr hm => by
      rw [hr, hm, List.append_nil, List.append_nil]
    cases he : e.label with
    | issued codeId i =>
      by_cases hf : i.familyId = f
      · -- the family is new, so its lineage was empty
        have hx : ∃ code, ExchangesCode d base h e codeId i code := by
          unfold Step at hstep
          rw [he] at hstep
          obtain ⟨code, now, log, -, hx⟩ := hstep
          exact ⟨code, hx⟩
        obtain ⟨code, hx⟩ := hx
        have hempty : (after base h).lineageIds f = [] := by
          refine List.map_eq_nil_iff.2 (List.eq_nil_iff_forall_not_mem.2 fun r hr => ?_)
          obtain ⟨hget, hrf⟩ := Db.mem_lineage.1 hr
          refine hcon.linked.family _ r hget ?_
          rw [hrf, ← hf]
          exact hcon.known.tokenFamilies.get_eq_none hx.familyId.not_known
        simp [hempty, rotations, he, Label.minted, Label.issue?, hf, neighbours]
      · rw [← he]
        exact silent (by simp [rotations, he]) (by simp [Label.minted, he, Label.issue?, hf])
    | rotated parent oldToken readAt now i =>
      by_cases hf : i.familyId = f
      · unfold Step at hstep
        rw [he] at hstep
        obtain ⟨r, m, log, -, -, hx⟩ := hstep
        obtain ⟨family, hfam, -⟩ := hx.presents.family
        obtain ⟨past, newest, hchain⟩ := hcon.chains r.familyId (hfam ▸ Option.some_ne_none family)
        have hnew := hchain.eq_newest hx.presents.record rfl hx.unrotated
        have hids : (after base h).lineageIds f = past.map (·.id) ++ [parent] := by
          rw [← hf, hx.familyId, Db.lineageIds, hchain.lineage, List.map_append, List.map_singleton,
            ← hnew, Table.key_of_get hx.presents.record]
        have hone : rotations [e] f = [(parent, i.refreshId)] := by simp [rotations, he, hf]
        have hmint : (Label.rotated parent oldToken readAt now i).minted f = [i.refreshId] := by
          simp [Label.minted, Label.issue?, hf]
        rw [hone, hmint, hids, neighbours_concat]
      · rw [← he]
        exact silent (by simp [rotations, he, hf]) (by simp [Label.minted, he, Label.issue?, hf])
    | _ =>
      rw [← he]
      exact silent (by simp [rotations, he]) (by simp [Label.minted, he, Label.issue?])

/-! ### The chain of a family -/

/-- The refresh tokens of the family `f` form a chain whose links are the rotations `rots`, and only
its end is live, with the access token linked to it. -/
structure LinearChain (db : Db) (f : Uuid) (rots : List (Uuid × Uuid)) : Prop where
  distinct : (db.lineageIds f).Nodup
  links : rots = neighbours (db.lineageIds f)
  rotatedOnce : (rots.map Prod.fst).Nodup
  oneSuccessor : (rots.map Prod.snd).Nodup
  rotated : ∀ r ∈ db.lineage f, r.rotatedAt ≠ none ↔ r.id ∈ rots.map Prod.fst
  liveRefresh : ∀ r ∈ db.lineage f, ∀ s ∈ db.lineage f, r.rotatedAt = none → r.revokedAt = none →
    s.rotatedAt = none → s.revokedAt = none → r = s
  liveAccess : ∀ m ∈ db.memberTokens f, ∀ m' ∈ db.memberTokens f, db.Live m → db.Live m' → m = m'
  linked : ∀ m ∈ db.memberTokens f, db.Live m → ∃ r ∈ db.lineage f, r.mcpTokenId = some m ∧
    r.rotatedAt = none ∧ r.revokedAt = none

theorem map_fst_neighbours {α : Type} (l : List α) : (neighbours l).map Prod.fst = l.dropLast := by
  induction l with
  | nil => rfl
  | cons x l ih =>
    cases l with
    | nil => rfl
    | cons y l => exact congrArg (x :: ·) ih

theorem map_snd_neighbours {α : Type} (l : List α) : (neighbours l).map Prod.snd = l.tail := by
  rw [neighbours, List.map_snd_zip (by rw [List.length_tail]; omega)]

theorem Db.Dead.not_live {db : Db} {m : Uuid} (hd : db.Dead m) : ¬ db.Live m := by
  rintro ⟨token, htoken, hen, -⟩
  obtain ⟨⟨token', htoken', hdis, -⟩, -⟩ := hd
  rw [htoken, Option.some.injEq] at htoken'
  rw [← htoken', hen] at hdis
  cases hdis

/-- A live access token of a chain is that of its newest refresh token, in an open family. -/
theorem Chain.eq_newest_of_live {db : Db} {past : List OAuthRefreshToken}
    {newest : OAuthRefreshToken} (hc : Chain db f past newest) (hf : db.tokenFamilies.get f ≠ none)
    {m : Uuid} (hm : m ∈ db.memberTokens f) (hlive : db.Live m) :
    newest.mcpTokenId = some m ∧ newest.revokedAt = none := by
  obtain ⟨family, hfam⟩ := Option.ne_none_iff_exists'.1 hf
  obtain ⟨r, hr, hrm⟩ := Db.mem_memberTokens.1 hm
  rw [hc.lineage] at hr
  by_cases hopen : family.revokedAt = none
  · refine ⟨?_, (hc.live family hfam hopen).1 newest
      (List.mem_append_right _ (List.mem_singleton_self _))⟩
    rcases List.mem_append.1 hr with hp | hn
    · exact absurd hlive (hc.superseded r hp m hrm).not_live
    · exact List.mem_singleton.1 hn ▸ hrm
  · exact absurd hlive ((hc.closed family hfam hopen r hr).2 m hrm).not_live

/-- In every state of every run the refresh tokens of a family form a linear chain. -/
theorem family_linear_chain (hc : Reachable d c) (n : ℕ) (f : Uuid) :
    LinearChain (c.shared.stateAt n) f (rotations (c.shared.history.take n) f) := by
  have hi := reachable_inv hc
  have hcon := stateAt_consistent hi n
  have hlinks := rotations_eq_neighbours hi.start (hi.valid.take n) f
  have hdistinct : ((c.shared.stateAt n).lineageIds f).Nodup := Db.lineageIds_nodup f
  by_cases hstored : (c.shared.stateAt n).tokenFamilies.get f = none
  · -- a family that is not stored has no tokens
    have hempty : (c.shared.stateAt n).lineage f = [] :=
      List.eq_nil_iff_forall_not_mem.2 fun r hr =>
        hcon.linked.family _ r (Db.mem_lineage.1 hr).1 ((Db.mem_lineage.1 hr).2 ▸ hstored)
    have hmembers : (c.shared.stateAt n).memberTokens f = [] := by
      rw [Db.memberTokens, hempty, List.filterMap_nil]
    refine ⟨hdistinct, hlinks, ?_, ?_, ?_, ?_, ?_, ?_⟩
    · rw [hlinks, map_fst_neighbours]
      exact hdistinct.sublist (List.dropLast_sublist _)
    · rw [hlinks, map_snd_neighbours]
      exact hdistinct.sublist (List.tail_sublist _)
    · rw [hempty]; exact fun _ hr => absurd hr List.not_mem_nil
    · rw [hempty]; exact fun _ hr => absurd hr List.not_mem_nil
    · rw [hmembers]; exact fun _ hm => absurd hm List.not_mem_nil
    · rw [hmembers]; exact fun _ hm => absurd hm List.not_mem_nil
  · obtain ⟨past, newest, hchain⟩ := hcon.chains f hstored
    have hchain : Chain (c.shared.stateAt n) f past newest := hchain
    have hids : (c.shared.stateAt n).lineageIds f = past.map (·.id) ++ [newest.id] := by
      rw [Db.lineageIds, hchain.lineage, List.map_append, List.map_singleton]
    have hend : ∀ r ∈ (c.shared.stateAt n).lineage f, r.rotatedAt = none → r = newest :=
      fun r hr hun => hchain.eq_newest (Db.mem_lineage.1 hr).1 (Db.mem_lineage.1 hr).2 hun
    refine ⟨hdistinct, hlinks, ?_, ?_, fun r hr => ?_, ?_, ?_, ?_⟩
    · rw [hlinks, map_fst_neighbours]
      exact hdistinct.sublist (List.dropLast_sublist _)
    · rw [hlinks, map_snd_neighbours]
      exact hdistinct.sublist (List.tail_sublist _)
    · rw [hlinks, map_fst_neighbours]
      have hnodup := hdistinct
      change _ ↔ r.id ∈ ((c.shared.stateAt n).lineageIds f).dropLast
      rw [hids] at hnodup ⊢
      rw [List.dropLast_concat]
      rw [hchain.lineage] at hr
      rcases List.mem_append.1 hr with hp | hn
      · exact iff_of_true (hchain.rotated r hp) (List.mem_map_of_mem hp)
      · rw [List.mem_singleton.1 hn]
        refine iff_of_false (fun hrot => hrot hchain.unrotated) fun hmem => ?_
        exact (List.nodup_append.1 hnodup).2.2 _ hmem _ (List.mem_singleton_self _) rfl
    · exact fun r hr s hs hr' _ hs' _ => (hend r hr hr').trans (hend s hs hs').symm
    · intro m hm m' hm' hlive hlive'
      exact Option.some.inj ((hchain.eq_newest_of_live hstored hm hlive).1.symm.trans
        (hchain.eq_newest_of_live hstored hm' hlive').1)
    · intro m hm hlive
      obtain ⟨hlink, hrev⟩ := hchain.eq_newest_of_live hstored hm hlive
      exact ⟨newest, hchain.lineage ▸ List.mem_append_right _ (List.mem_singleton_self _), hlink,
        hchain.unrotated, hrev⟩

theorem family_linear_chain_sample :
    LinearChain ((sampleRun (sampleIssue ["read"] ++ [sampleRefresh 6])).shared.stateAt 3) 2
      (rotations ((sampleRun (sampleIssue ["read"] ++ [sampleRefresh 6])).shared.history.take 3) 2) :=
  family_linear_chain (sampleRun_reachable _) 3 2

end ForgejoMcp.OAuth
