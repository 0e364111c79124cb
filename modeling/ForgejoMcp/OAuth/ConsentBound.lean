import ForgejoMcp.OAuth.FamilyRevocation
import ForgejoMcp.OAuth.Grants
import ForgejoMcp.OAuth.Consents

/-!
# Consent bounds the grants of a family

Issuance and rotation only narrow the tools selected at the consent.  Replacing the grants of an
access token in the Dashboard may widen them: the bound holds exactly in the runs in which no such
replacement grants a tool that was not selected.
-/

namespace ForgejoMcp.OAuth

open Transactions

variable {d : Deployment} {base : Db} {h : List (Entry sorts)} {e : Entry sorts} {f : Uuid}
  {selected : List String} {c : Config sorts Call Failure Result} {g : Shared sorts}

/-! ### The consent of a family -/

/-- The tools were selected at the consent that created the authorization code from which the family
was issued. -/
def Consented (h : List (Entry sorts)) (f : Uuid) (selected : List String) : Prop :=
  ∃ e ∈ h, ∃ codeId i, e.label = .issued codeId i ∧ i.familyId = f ∧
    ∃ e' ∈ h, ∃ request secret, e'.label = .approved request codeId secret selected

theorem Consented.append (hc : Consented h f selected) (ext : List (Entry sorts)) :
    Consented (h ++ ext) f selected := by
  obtain ⟨e, he, codeId, i, hl, hf, e', he', hrest⟩ := hc
  exact ⟨e, List.mem_append_left _ he, codeId, i, hl, hf, e', List.mem_append_left _ he', hrest⟩

/-- A family has one consent. -/
theorem Consented.unique (hv : Valid (Step d) base h) {selected' : List String}
    (hc : Consented h f selected) (hc' : Consented h f selected') : selected = selected' := by
  obtain ⟨e₁, he₁, codeId, i, hl₁, rfl, e₂, he₂, request, secret, hl₂⟩ := hc
  obtain ⟨e₁', he₁', codeId', i', hl₁', hf, e₂', he₂', request', secret', hl₂'⟩ := hc'
  have same : ∀ {e e' : Entry sorts} {n : ℕ}, e ∈ h → e' ∈ h → n ∈ ids e.label →
      n ∈ ids e'.label → e = e' := by
    intro e e' n he he' hn hn'
    obtain ⟨a, ha⟩ := List.mem_iff_getElem?.1 he
    obtain ⟨b, hb⟩ := List.mem_iff_getElem?.1 he'
    obtain rfl := index_eq_of_mem_ids hv ha hb hn hn'
    exact Option.some.inj (ha.symm.trans hb)
  have hissued := same he₁ he₁' (n := i.familyId) (by rw [hl₁]; exact List.mem_cons_self)
    (by rw [hl₁', ← hf]; exact List.mem_cons_self)
  rw [hissued, hl₁'] at hl₁
  cases hl₁
  have happroved := same he₂ he₂' (n := codeId) (by rw [hl₂]; exact List.mem_cons_self)
    (by rw [hl₂']; exact List.mem_cons_self)
  rw [happroved, hl₂'] at hl₂
  cases hl₂
  rfl

/-! ### Steps and runs -/

/-- After the history, every access token of every family has only grants of tools selected at the
consent of its family. -/
def GrantsConsented (base : Db) (h : List (Entry sorts)) : Prop :=
  ∀ i, Issued h i → ∃ selected, Consented h i.familyId selected ∧
    ∀ tool, (after base h).Granted i.accessId tool → tool ∈ selected

/-- A commit keeps the grants within the consents, unless it replaces the grants of a token by others
than were selected. -/
theorem Step.grantsConsented (hs : Start base) (hv : Valid (Step d) base h)
    (hstep : Step d base h e) (hprev : ∀ n ≤ h.length, GrantsConsented base (h.take n))
    (hgrants : ∀ m tools ownedAt, e.label = .grants m tools ownedAt → ∀ i, Issued h i →
      i.accessId = m → ∀ selected, Consented h i.familyId selected → tools ⊆ selected) :
    GrantsConsented base (h ++ [e]) := by
  have hnow : GrantsConsented base h := by
    have hfull := hprev h.length (Nat.le_refl _)
    rwa [List.take_length] at hfull
  intro i hi
  rw [after_concat]
  obtain ⟨e', he', hl'⟩ := hi
  rcases List.mem_append.1 he' with hold | hnew
  · -- a token issued before
    have hi : Issued h i := ⟨e', hold, hl'⟩
    obtain ⟨selected, hsel, hbound⟩ := hnow i hi
    refine ⟨selected, hsel.append [e], fun tool hg => ?_⟩
    rcases hstep.grantOrigin hg with ⟨hwas, -, -⟩ | ⟨j, hl, hid, -⟩ | ⟨tools, ownedAt, hl, hmem⟩
    · exact hbound tool hwas
    · refine absurd hold fun hold => ?_
      have hfresh := hstep.fresh (mem_ids_of_issue? hl (n := j.accessId) (by simp [Issue.numbers]))
      exact hfresh.2 e' hold (hid ▸ mem_ids_of_issue? hl' (by simp [Issue.numbers]))
    · exact hgrants _ tools ownedAt hl i hi rfl selected hsel hmem
  · -- the token this commit issues
    obtain rfl := List.mem_singleton.1 hnew
    have hfresh := hstep.fresh (mem_ids_of_issue? hl' (n := i.accessId) (by simp [Issue.numbers]))
    have own : ∀ tool, e'.db.Granted i.accessId tool → tool ∈ i.toolNames := by
      intro tool hg
      rcases hstep.grantOrigin hg with ⟨hwas, -, -⟩ | ⟨j, hl, -, hmem⟩ | ⟨tools, ownedAt, hl, -⟩
      · exact absurd hwas (hfresh.not_granted hs hv)
      · rw [hl', Option.some.injEq] at hl
        exact hl ▸ hmem
      · rw [hl] at hl'
        cases hl'
    have hat := hstep
    unfold Step at hat
    cases hl : e'.label with
    | issued codeId j =>
      rw [hl] at hat hl'
      cases hl'
      obtain ⟨code, now, log, -, hx⟩ := hat
      obtain ⟨e'', he'', request, selected, now, ⟨secret, happ⟩, -, htools, -⟩ := hs.approved hv hx.found
      refine ⟨selected, ⟨e', he', codeId, i, hl, rfl, e'', List.mem_append_left _ he'', request,
        secret, happ⟩, fun tool hg => ?_⟩
      exact mem_sorted.1 (htools ▸ hx.issues.subset_selected (own tool hg))
    | rotated parent oldToken readAt now j =>
      rw [hl] at hat hl'
      cases hl'
      obtain ⟨r, m, log, rfl, -, hx⟩ := hat
      obtain ⟨names, hissues, hread⟩ := hx.issues
      obtain ⟨i₀, hbefore, -, rfl, hf⟩ := hx.parent_issued hs hv
      obtain ⟨selected, hsel, hbound⟩ := hprev readAt hx.readAt_le i₀ hbefore
      refine ⟨selected, ?_, fun tool hg => ?_⟩
      · rw [← hf]
        have hall := (hsel.append (h.drop readAt)).append [e']
        rwa [List.take_append_drop] at hall
      · obtain ⟨m', hm', hwas⟩ := hread tool (hissues.subset_selected (own tool hg))
        rw [Option.some.injEq] at hm'
        exact hbound tool (hm' ▸ hwas)
    | _ => rw [hl] at hl'; cases hl'

/-- In the state after `n` commits, the grants of every access token of every family are tools
selected at the one consent of the family. -/
def WithinConsent (g : Shared sorts) (n : ℕ) : Prop :=
  ∀ f, ∀ m ∈ (g.stateAt n).memberTokens f, ∃ selected, Consented (g.history.take n) f selected ∧
    (∀ other, Consented (g.history.take n) f other → other = selected) ∧
    ∀ tool, (g.stateAt n).Granted m tool → tool ∈ selected

/-- The commits that replace the grants of an access token of a family grant only tools that were
selected at the consent of the family. -/
def ReplacesWithinConsent (g : Shared sorts) : Prop :=
  ∀ (a : ℕ) e token tools ownedAt, g.history[a]? = some e → e.label = .grants token tools ownedAt →
    ∀ f, token ∈ (g.stateAt a).memberTokens f → ∀ selected, Consented (g.history.take a) f selected →
      tools ⊆ selected

theorem grantsConsented_take (hi : (serial d).Inv g) (hcond : ReplacesWithinConsent g) (n : ℕ) :
    GrantsConsented g.base (g.history.take n) := by
  induction n using Nat.strong_induction_on with
  | _ n ih =>
    cases n with
    | zero =>
      rintro i ⟨e, he, -⟩
      rw [List.take_zero] at he
      cases he
    | succ n =>
      cases he : g.history[n]? with
      | none =>
        -- the history has ended before
        rw [List.take_add_one, he, Option.toList_none, List.append_nil]
        exact ih n (Nat.lt_succ_self n)
      | some e =>
        have hv := hi.valid.take n
        rw [List.take_add_one, he, Option.toList_some]
        refine (hi.valid.step_at he).grantsConsented hi.start hv (fun k hk => ?_) ?_
        · have hle : k ≤ n := hk.trans (List.length_take_le n g.history)
          rw [List.take_take, Nat.min_eq_left hle]
          exact ih k (Nat.lt_succ_of_le hle)
        · intro m tools ownedAt hl i hissued hid selected hsel
          exact hcond n e m tools ownedAt he hl i.familyId
            ((hi.start.mem_memberTokens hv).2 ⟨i, hissued, hid, rfl⟩) selected hsel

/-! ### The result -/

/-- The consents bound the grants in every state of a run exactly if no commit of the run replaces the
grants of an access token of a family by tools that were not selected. -/
theorem consent_bounds_grants_iff (hc : Reachable d c) :
    (∀ n, WithinConsent c.shared n) ↔ ReplacesWithinConsent c.shared := by
  have hi := reachable_inv hc
  constructor
  · intro hall a e token tools ownedAt ha hl f hm selected hsel tool htool
    have hstep := hi.valid.step_at ha
    have htake : c.shared.history.take (a + 1) = c.shared.history.take a ++ [e] := by
      rw [List.take_add_one, ha, Option.toList_some]
    have hm' : token ∈ (c.shared.stateAt (a + 1)).memberTokens f := by
      obtain ⟨i, hissued, hrest⟩ := (hi.start.mem_memberTokens (hi.valid.take a)).1 hm
      refine (hi.start.mem_memberTokens (hi.valid.take (a + 1))).2 ⟨i, ?_, hrest⟩
      rw [htake]
      exact hissued.append [e]
    obtain ⟨selected', -, honly, hbound⟩ := hall (a + 1) f token hm'
    rw [honly selected (by rw [htake]; exact hsel.append [e])]
    refine hbound tool ?_
    rw [stateAt_of_getElem? ha]
    exact hstep.granted_of_explicit hl htool
  · intro hcond n f m hm
    have hv := hi.valid.take n
    obtain ⟨i, hissued, rfl, rfl⟩ := (hi.start.mem_memberTokens hv).1 hm
    obtain ⟨selected, hsel, hbound⟩ := grantsConsented_take hi hcond n i hissued
    exact ⟨selected, hsel, fun other hother => hother.unique hv hsel, hbound⟩

/-- The sample user selects one tool, and then grants the access token both. -/
def widenedGrantsScript : List (Cue sorts Call) :=
  sampleIssue ["read"] ++ [alone (.replaceTokenGrants 0 0 5 ["read", "write"])]

theorem grants_widened_after_consent : Reachable .sample (sampleRun widenedGrantsScript) ∧
    ¬ WithinConsent (sampleRun widenedGrantsScript).shared 3 := by
  refine ⟨sampleRun_reachable _, fun hall => ?_⟩
  have hm : (5 : ℕ) ∈ ((sampleRun widenedGrantsScript).shared.stateAt 3).memberTokens 2 := by
    decide +kernel
  have hg : (⟨5, "write"⟩ : McpTokenToolGrant) ∈
      ((sampleRun widenedGrantsScript).shared.stateAt 3).mcpTokenToolGrants.rows := by
    decide +kernel
  obtain ⟨selected, ⟨e, he, codeId, i, hl, -, e', he', request, secret, hl'⟩, -, hbound⟩ :=
    hall 2 5 hm
  have hwrite : "write" ∈ selected := hbound "write" hg
  -- the only consent of the run selected one tool
  have hread : ∀ e ∈ (sampleRun widenedGrantsScript).shared.history, (match e.label with
      | .approved _ _ _ selected => decide (selected = ["read"])
      | _ => true) = true := by
    decide +kernel
  have hsel := hread e' (List.mem_of_mem_take he')
  rw [hl'] at hsel
  rw [of_decide_eq_true hsel] at hwrite
  exact absurd hwrite (by decide)

theorem consent_bounds_grants_sample :
    (∀ n, WithinConsent (sampleRun (sampleIssue ["read"])).shared n) ↔
      ReplacesWithinConsent (sampleRun (sampleIssue ["read"])).shared :=
  consent_bounds_grants_iff (sampleRun_reachable _)

end ForgejoMcp.OAuth
