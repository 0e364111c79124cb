import ForgejoMcp.OAuth.DuplicateRefresh
import ForgejoMcp.OAuth.FamilyChain
import ForgejoMcp.OAuth.Grants

/-!
# Whether a tightening of the grants is kept

A rotation copies the grants of the old access token to the new one.  Grants that the Dashboard
replaces stay replaced along the chain if every rotation of the token read its grants after the
replacement; a rotation that overlaps the replacement carries the old grants on.
-/

namespace ForgejoMcp.OAuth

open Transactions

variable {d : Deployment} {base : Db} {h : List (Entry sorts)} {e : Entry sorts} {f : Uuid}
  {c : Config sorts Call Failure Result} {g : Shared sorts}

/-- A refresh token that is marked rotated was rotated by a commit. -/
theorem Start.exists_rotates (hs : Start base) (hv : Valid (Step d) base h) {r : OAuthRefreshToken}
    (hr : r ∈ (after base h).lineage f) (hrot : r.rotatedAt ≠ none) :
    ∃ e ∈ h, e.label.rotates? = some r.id := by
  have hstored : (after base h).tokenFamilies.get f ≠ none :=
    (Db.mem_lineage.1 hr).2 ▸ (hs.consistent_of_valid hv).linked.family _ r (Db.mem_lineage.1 hr).1
  obtain ⟨past, newest, hchain⟩ := (hs.consistent_of_valid hv).chains f hstored
  have hpast : r ∈ past := by
    rw [hchain.lineage] at hr
    rcases List.mem_append.1 hr with hp | hn
    · exact hp
    · exact absurd (List.mem_singleton.1 hn ▸ hchain.unrotated) hrot
  have hfst : r.id ∈ (rotations h f).map Prod.fst := by
    rw [rotations_eq_neighbours hs hv, map_fst_neighbours, Db.lineageIds, hchain.lineage,
      List.map_append, List.map_singleton, List.dropLast_concat]
    exact List.mem_map_of_mem hpast
  obtain ⟨⟨k, k'⟩, hk, hid⟩ := List.mem_map.1 hfst
  obtain ⟨e, he, hpair⟩ := List.mem_filterMap.1 hk
  refine ⟨e, he, ?_⟩
  cases hl : e.label with
  | rotated parent oldToken readAt now i =>
    rw [hl] at hpair
    dsimp only at hpair
    split at hpair
    · cases hpair
      exact congrArg some hid
    · cases hpair
  | _ => rw [hl] at hpair; cases hpair

/-! ### The replacement and the rotations -/

/-- Commit `j` replaced the grants of the token `token` of the family `f` by `tools`. -/
structure Replaces (g : Shared sorts) (j : ℕ) (f token : Uuid) (tools : List String) : Prop where
  commit : ∃ e ownedAt, g.history[j]? = some e ∧ e.label = .grants token tools ownedAt
  member : token ∈ (g.stateAt j).memberTokens f

/-- Every rotation of the token read its grants after commit `j`. -/
def RotatedAfter (g : Shared sorts) (j : ℕ) (token : Uuid) : Prop :=
  ∀ (a : ℕ) e parent readAt now i, g.history[a]? = some e →
    e.label = .rotated parent (some token) readAt now i → j < readAt

/-- A commit after commit `j`, among the first `n`, granted the tool to a token of the family. -/
def Regranted (g : Shared sorts) (j n : ℕ) (f : Uuid) (tool : String) : Prop :=
  ∃ b e m tools ownedAt, j < b ∧ b < n ∧ g.history[b]? = some e ∧
    e.label = .grants m tools ownedAt ∧ m ∈ (g.stateAt b).memberTokens f ∧ tool ∈ tools

theorem Regranted.mono {j n n' : ℕ} {tool : String} (hr : Regranted g j n f tool) (hn : n ≤ n') :
    Regranted g j n' f tool := by
  obtain ⟨b, e, m, tools, ownedAt, hj, hb, hrest⟩ := hr
  exact ⟨b, e, m, tools, ownedAt, hj, hb.trans_le hn, hrest⟩

theorem mem_memberTokens_stateAt (hi : (serial d).Inv g) {n : ℕ} {m : Uuid} :
    m ∈ (g.stateAt n).memberTokens f ↔
      ∃ i, Issued (g.history.take n) i ∧ i.accessId = m ∧ i.familyId = f :=
  hi.start.mem_memberTokens (hi.valid.take n)

theorem Issued.take_mono {i : Issue} {m n : ℕ} (hi : Issued (h.take m) i) (hmn : m ≤ n) :
    Issued (h.take n) i := by
  obtain ⟨e, he, hl⟩ := hi
  exact ⟨e, (List.take_prefix_take_left hmn).subset he, hl⟩

namespace Replaces

variable {j : ℕ} {token : Uuid} {tools : List String}

/-- The state after the replacement: the refresh token of the token is the end of the chain. -/
theorem newest (hr : Replaces g j f token tools) (hi : (serial d).Inv g)
    (hcond : RotatedAfter g j token) :
    ∃ past newest, Chain (g.stateAt (j + 1)) f past newest ∧ newest.mcpTokenId = some token := by
  have hv := hi.valid.take (j + 1)
  have hmem : token ∈ (g.stateAt (j + 1)).memberTokens f := by
    obtain ⟨i, hissued, hrest⟩ := (mem_memberTokens_stateAt hi).1 hr.member
    exact (mem_memberTokens_stateAt hi).2 ⟨i, hissued.take_mono (Nat.le_succ j), hrest⟩
  obtain ⟨r, hrow, hrm⟩ := Db.mem_memberTokens.1 hmem
  obtain ⟨hget, hrf⟩ := Db.mem_lineage.1 hrow
  have hcon := stateAt_consistent hi (j + 1)
  obtain ⟨past, newest, hchain⟩ := hcon.chains f (hrf ▸ hcon.linked.family _ r hget)
  refine ⟨past, newest, hchain, ?_⟩
  by_cases hrot : r.rotatedAt = none
  · rw [← hchain.eq_newest hget hrf hrot]
    exact hrm
  · -- a rotation up to the replacement read the grants before it
    exfalso
    obtain ⟨e, he, hl⟩ := hi.start.exists_rotates hv hrow hrot
    obtain ⟨a, ha⟩ := List.mem_iff_getElem?.1 he
    have haj : a < j + 1 := by
      have hlt := (List.getElem?_eq_some_iff.1 ha).1
      rw [List.length_take] at hlt
      omega
    rw [List.getElem?_take_of_lt haj] at ha
    cases hlabel : e.label with
    | rotated parent oldToken readAt now i =>
      rw [hlabel] at hl
      cases hl
      obtain ⟨r', m, rfl, hx⟩ := Step.rotates (hi.valid.step_at ha) hlabel
      have hlater : Later (g.stateAt a) (g.stateAt (j + 1)) := stateAt_later hi haj.le
      obtain ⟨r'', hr'', hcore⟩ := hlater.refreshTokens _ _ hx.presents.record
      rw [hget, Option.some.injEq] at hr''
      have hm : r'.mcpTokenId = some token := by
        rw [← hrm, hr'']
        exact (congrArg OAuthRefreshToken.mcpTokenId hcore.core :).symm
      rw [hx.oldToken_eq, Option.some.injEq] at hm
      have hread := hcond a e r.id readAt now i ha (hm ▸ hlabel)
      have hle := hx.readAt_le
      rw [List.length_take] at hle
      omega
    | _ => rw [hlabel] at hl; cases hl

/-- The family is stored once its token is a member. -/
theorem stored (hr : Replaces g j f token tools) (hi : (serial d).Inv g) {n : ℕ} (hjn : j ≤ n) :
    (g.stateAt n).tokenFamilies.get f ≠ none := by
  obtain ⟨i, hissued, hrest⟩ := (mem_memberTokens_stateAt hi).1 hr.member
  have hmem : token ∈ (g.stateAt n).memberTokens f :=
    (mem_memberTokens_stateAt hi).2 ⟨i, hissued.take_mono hjn, hrest⟩
  obtain ⟨r, hrow, -⟩ := Db.mem_memberTokens.1 hmem
  obtain ⟨hget, hrf⟩ := Db.mem_lineage.1 hrow
  exact hrf ▸ (stateAt_consistent hi n).linked.family _ r hget

/-- A rotation in the family, after the replacement, replaces the token or one minted after the
replacement, and read the grants of it after the replacement. -/
theorem parent (hr : Replaces g j f token tools) (hi : (serial d).Inv g)
    (hcond : RotatedAfter g j token) {n : ℕ} (hjn : j < n) (he : g.history[n]? = some e)
    {parent m : Uuid} {readAt : ℕ} {now : Time} {i : Issue} {r : OAuthRefreshToken}
    (hl : e.label = .rotated parent (some m) readAt now i) (hif : i.familyId = f)
    (hx : Rotates d g.base (g.history.take n) e parent (some m) readAt now i r) :
    j < readAt ∧ readAt ≤ n ∧ ∃ i₀, Issued (g.history.take readAt) i₀ ∧ i₀.accessId = m ∧
      i₀.familyId = f ∧ (m = token ∨ m ∉ (g.stateAt (j + 1)).memberTokens f) := by
  have hle : readAt ≤ n := hx.readAt_le.trans (List.length_take_le n g.history)
  obtain ⟨i₀, hissued, -, hm₀, hf₀⟩ := hx.parent_issued hi.start (hi.valid.take n)
  rw [List.take_take, Nat.min_eq_left hle] at hissued
  by_cases hmem : m ∈ (g.stateAt (j + 1)).memberTokens f
  · -- the presented token is unrotated, so it was the end of the chain
    obtain ⟨past, newest, hchain, hnewest⟩ := hr.newest hi hcond
    obtain ⟨r₁, hrow, hrm⟩ := Db.mem_memberTokens.1 hmem
    obtain ⟨hget, hrf⟩ := Db.mem_lineage.1 hrow
    obtain ⟨r₂, hget₂, hlater⟩ := (stateAt_later hi hjn).refreshTokens _ _ hget
    have hrm₂ : r₂.mcpTokenId = some m :=
      (congrArg OAuthRefreshToken.mcpTokenId hlater.core :).trans hrm
    have hsame : r₂ = r := (stateAt_consistent hi n).linked.eq_of_mcpTokenId hget₂
      hx.presents.record hrm₂ hx.oldToken_eq
    have hun : r₁.rotatedAt = none := by
      by_contra hrot
      have hkept := hlater.rotated hrot
      rw [hsame, hx.unrotated] at hkept
      exact hrot hkept.symm
    have hmt : m = token := by
      rw [hchain.eq_newest hget hrf hun, hnewest, Option.some.injEq] at hrm
      exact hrm.symm
    exact ⟨hcond n e parent readAt now i he (hmt ▸ hl), hle, i₀, hissued, hm₀, hf₀.trans hif,
      .inl hmt⟩
  · refine ⟨?_, hle, i₀, hissued, hm₀, hf₀.trans hif, .inr hmem⟩
    by_contra hnot
    exact hmem ((mem_memberTokens_stateAt hi).2
      ⟨i₀, hissued.take_mono (by omega), hm₀, hf₀.trans hif⟩)

/-- The grants of the token and of all tokens minted after the replacement are those of the
replacement, or were granted later. -/
theorem bounds (hr : Replaces g j f token tools) (hi : (serial d).Inv g)
    (hcond : RotatedAfter g j token) {n : ℕ} (hjn : j < n) :
    ∀ i, Issued (g.history.take n) i → i.familyId = f →
      (i.accessId = token ∨ i.accessId ∉ (g.stateAt (j + 1)).memberTokens f) →
      ∀ tool, (g.stateAt n).Granted i.accessId tool → tool ∈ tools ∨ Regranted g j n f tool := by
  induction n using Nat.strong_induction_on with
  | _ n ih =>
    obtain ⟨n, rfl⟩ : ∃ k, n = k + 1 := ⟨n - 1, by omega⟩
    intro i hissued hif hnew tool hg
    cases he : g.history[n]? with
    | none =>
      -- the history has ended before, but not before the replacement
      obtain ⟨e, ownedAt, hje, -⟩ := hr.commit
      have hjlt := (List.getElem?_eq_some_iff.1 hje).1
      have hnge := List.getElem?_eq_none_iff.1 he
      have htake : g.history.take (n + 1) = g.history.take n := by
        rw [List.take_add_one, he, Option.toList_none, List.append_nil]
      rw [stateAt_of_getElem?_eq_none he] at hg
      exact (ih n (Nat.lt_succ_self n) (by omega) i (htake ▸ hissued) hif hnew tool hg).imp_right
        fun hre => hre.mono (Nat.le_succ n)
    | some e =>
      have htake : g.history.take (n + 1) = g.history.take n ++ [e] := by
        rw [List.take_add_one, he, Option.toList_some]
      have hstep : Step d g.base (g.history.take n) e := hi.valid.step_at he
      rw [stateAt_of_getElem? he] at hg
      rw [htake] at hissued
      by_cases hjn' : n = j
      · -- the replacement itself
        subst hjn'
        obtain ⟨e', ownedAt, hje, hl⟩ := hr.commit
        rw [he, Option.some.injEq] at hje
        subst hje
        have hid : i.accessId = token := by
          rcases hnew with hid | hout
          · exact hid
          · exact absurd ((mem_memberTokens_stateAt hi).2 ⟨i, htake ▸ hissued, rfl, hif⟩) hout
        rw [hid] at hg
        rcases hstep.grantOrigin hg with ⟨-, hexp, -⟩ | ⟨k, hk, -, -⟩ | ⟨tools', ownedAt', hl', hmem⟩
        · exact absurd hl (hexp tools ownedAt)
        · rw [hl] at hk
          cases hk
        · rw [hl] at hl'
          cases hl'
          exact .inl hmem
      · have hjn'' : j < n := by omega
        have earlier : e.label.issue? ≠ some i → Issued (g.history.take n) i := by
          intro hne
          obtain ⟨e', he', hl'⟩ := hissued
          rcases List.mem_append.1 he' with hold | hlast
          · exact ⟨e', hold, hl'⟩
          · exact absurd (List.mem_singleton.1 hlast ▸ hl') hne
        have fresh : ∀ k, e.label.issue? = some k →
            Fresh d g.base (g.history.take n) k.accessId := fun k hk =>
          hstep.fresh (mem_ids_of_issue? hk (by simp [Issue.numbers]))
        rcases hstep.grantOrigin hg with ⟨hwas, -, -⟩ | ⟨k, hk, hid, hmem⟩ | ⟨tools', ownedAt', hl', hmem⟩
        · -- the grant was there before, so the token was issued before
          have hold : Issued (g.history.take n) i := earlier fun hl =>
            (fresh i hl).not_granted hi.start (hi.valid.take n) hwas
          exact (ih n (Nat.lt_succ_self n) hjn'' i hold hif hnew tool hwas).imp_right
            fun hre => hre.mono (Nat.le_succ n)
        · -- the token is minted by this commit, a rotation
          have hki : k = i := by
            by_contra hne
            have hold := earlier fun hl => hne (Option.some.inj (hk.symm.trans hl))
            obtain ⟨e', he', hl'⟩ := hold
            exact (fresh k hk).2 e' he' (hid ▸ mem_ids_of_issue? hl' (by simp [Issue.numbers]))
          subst hki
          cases hl : e.label with
          | issued codeId k' =>
            rw [hl] at hk
            cases hk
            obtain ⟨code, hx⟩ := hstep.exchanges hl
            refine absurd ?_ (hr.stored hi hjn''.le)
            rw [← hif]
            exact (stateAt_consistent hi n).known.tokenFamilies.get_eq_none hx.familyId.not_known
          | rotated parent oldToken readAt now k' =>
            rw [hl] at hk
            cases hk
            obtain ⟨r, m, rfl, hx⟩ := hstep.rotates hl
            obtain ⟨hjr, hrn, i₀, hi₀, rfl, hf₀, hcase⟩ := hr.parent hi hcond hjn'' he hl hif hx
            obtain ⟨names, hissues, hread⟩ := hx.issues
            obtain ⟨m', hm', hwas⟩ := hread tool (hissues.subset_selected hmem)
            rw [Option.some.injEq] at hm'
            subst hm'
            rw [List.take_take, Nat.min_eq_left hrn] at hwas
            exact (ih readAt (by omega) hjr i₀ hi₀ hf₀ hcase tool hwas).imp_right
              fun hre => hre.mono (by omega)
          | _ => rw [hl] at hk; cases hk
        · have hold : Issued (g.history.take n) i := earlier fun hl => by
            rw [hl'] at hl
            cases hl
          exact .inr ⟨n, e, i.accessId, tools', ownedAt', hjn'', Nat.lt_succ_self n, he, hl',
            (mem_memberTokens_stateAt hi).2 ⟨i, hold, rfl, hif⟩, hmem⟩

end Replaces

/-! ### The result -/

/-- After commit `j`, the live access tokens of the family and all those minted later have no other
grants than `tools` and what was granted to tokens of the family after commit `j`. -/
def TighteningKept (g : Shared sorts) (j : ℕ) (f : Uuid) (tools : List String) : Prop :=
  ∀ n, j < n → ∀ m ∈ (g.stateAt n).memberTokens f,
    ((g.stateAt n).Live m ∨ m ∉ (g.stateAt (j + 1)).memberTokens f) →
    ∀ tool, (g.stateAt n).Granted m tool → tool ∈ tools ∨ Regranted g j n f tool

/-- A replacement of the grants of a token is kept along its family if every rotation of the token read
its grants after the replacement. -/
theorem tightening_kept (hc : Reachable d c) {j : ℕ} {token : Uuid} {tools : List String}
    (hr : Replaces c.shared j f token tools) (hcond : RotatedAfter c.shared j token) :
    TighteningKept c.shared j f tools := by
  have hi := reachable_inv hc
  intro n hjn m hm hlive tool hg
  obtain ⟨i, hissued, rfl, hif⟩ := (mem_memberTokens_stateAt hi).1 hm
  refine hr.bounds hi hcond hjn i hissued hif ?_ tool hg
  rcases hlive with hlive | hnew
  · by_cases hmem : i.accessId ∈ (c.shared.stateAt (j + 1)).memberTokens f
    · -- of the tokens minted before, only the end of the chain may be live
      obtain ⟨past, newest, hchain, hnewest⟩ := hr.newest hi hcond
      obtain ⟨r, hrow, hrm⟩ := Db.mem_memberTokens.1 hmem
      rw [hchain.lineage] at hrow
      rcases List.mem_append.1 hrow with hp | hn
      · have hdead := (hchain.superseded r hp _ hrm).later (stateAt_later hi hjn)
        exact absurd hlive hdead.not_live
      · rw [List.mem_singleton.1 hn, hnewest, Option.some.injEq] at hrm
        exact .inl hrm.symm
    · exact .inr hmem
  · exact .inr hnew

/-- The label of a replacement of the grants of the token by `tools`. -/
def Label.replaces (token : Uuid) (tools : List String) : Label → Bool
  | .grants token' tools' _ => decide (token' = token ∧ tools' = tools)
  | _ => false

theorem Label.replaces_eq_true {label : Label} {token : Uuid} {tools : List String}
    (h : label.replaces token tools = true) : ∃ ownedAt, label = .grants token tools ownedAt := by
  unfold Label.replaces at h
  split at h
  · rename_i ownedAt
    obtain ⟨rfl, rfl⟩ := of_decide_eq_true h
    exact ⟨ownedAt, rfl⟩
  · cases h

/-- A refresh reads the grants of the sample token, these are replaced, and the refresh goes on. -/
def overlappedTighteningScript : List (Cue sorts Call) :=
  sampleIssue ["read", "write"] ++ [.call (refreshOf 6) (List.replicate 10 ()),
    alone (.replaceTokenGrants 0 0 5 ["read"]), .resume 2 (List.replicate 60 ())]

theorem tightening_lost : Reachable .sample (sampleRun overlappedTighteningScript) ∧
    Replaces (sampleRun overlappedTighteningScript).shared 2 2 5 ["read"] ∧
    ¬ TighteningKept (sampleRun overlappedTighteningScript).shared 2 2 ["read"] := by
  have hmem : (5 : ℕ) ∈ ((sampleRun overlappedTighteningScript).shared.stateAt 2).memberTokens 2 := by
    decide +kernel
  have hlabel : ((sampleRun overlappedTighteningScript).shared.history[2]?).map
      (fun e => e.label.replaces 5 ["read"]) = some true := by
    decide +kernel
  obtain ⟨e, he, hl⟩ := Option.map_eq_some_iff.1 hlabel
  refine ⟨sampleRun_reachable _, ⟨⟨e, ?_⟩, hmem⟩, fun hkept => ?_⟩
  · obtain ⟨ownedAt, hgrants⟩ := Label.replaces_eq_true hl
    exact ⟨ownedAt, he, hgrants⟩
  · have hminted : (9 : ℕ) ∈
        ((sampleRun overlappedTighteningScript).shared.stateAt 4).memberTokens 2 := by
      decide +kernel
    have hnew : (9 : ℕ) ∉
        ((sampleRun overlappedTighteningScript).shared.stateAt 3).memberTokens 2 := by
      decide +kernel
    have hg : (⟨9, "write"⟩ : McpTokenToolGrant) ∈
        ((sampleRun overlappedTighteningScript).shared.stateAt 4).mcpTokenToolGrants.rows := by
      decide +kernel
    rcases hkept 4 (by decide) 9 hminted (.inr hnew) "write" hg with hread | hre
    · exact absurd hread (by decide)
    · -- the commit after the replacement is the rotation
      obtain ⟨b, e', m, tools, ownedAt, h2, h4, hb, hl', -⟩ := hre
      obtain rfl : b = 3 := by omega
      have hrot : ((sampleRun overlappedTighteningScript).shared.history[3]?).all (fun e =>
          (e.label.issue?).isSome) = true := by
        decide +kernel
      rw [hb, Option.all_some, hl'] at hrot
      cases hrot

/-- A rotation with this label read the grants after commit `j`. -/
def Label.readAfter (j : ℕ) : Label → Bool
  | .rotated _ _ readAt _ _ => decide (j < readAt)
  | _ => true

/-- The grants of the sample token are replaced, and then it is rotated. -/
def tighteningScript : List (Cue sorts Call) :=
  sampleIssue ["read", "write"] ++ [alone (.replaceTokenGrants 0 0 5 ["read"]), sampleRefresh 6]

theorem tightening_kept_sample : TighteningKept (sampleRun tighteningScript).shared 2 2 ["read"] := by
  have hmem : (5 : ℕ) ∈ ((sampleRun tighteningScript).shared.stateAt 2).memberTokens 2 := by
    decide +kernel
  have hlabel : ((sampleRun tighteningScript).shared.history[2]?).map
      (fun e => e.label.replaces 5 ["read"]) = some true := by
    decide +kernel
  obtain ⟨e, he, hl⟩ := Option.map_eq_some_iff.1 hlabel
  have hread : ∀ e ∈ (sampleRun tighteningScript).shared.history, e.label.readAfter 2 = true := by
    decide +kernel
  refine tightening_kept (sampleRun_reachable _) (show Replaces _ 2 2 5 _ from ⟨⟨e, ?_⟩, hmem⟩)
    fun a e' parent readAt now i ha hl' => ?_
  · obtain ⟨ownedAt, hgrants⟩ := Label.replaces_eq_true hl
    exact ⟨ownedAt, he, hgrants⟩
  · have hlt := hread e' (List.mem_of_getElem? ha)
    rw [hl'] at hlt
    exact of_decide_eq_true hlt

end ForgejoMcp.OAuth
