import ForgejoMcp.OAuth.FamilyRevocation
import ForgejoMcp.OAuth.Grants

/-!
# Whether grants stay within the allowances

Changes of grants and allowances exclude each other by the locks on the tool registry; the issuance of
a pair takes none of them.  The grants of every token stay within the allowances of its owner as long
as no issuance for a user overlaps a replacement that takes a tool away from the user.  And a tool that
was taken away comes back by a change of the grants that began later, as long as no change that grants
it was waiting for the locks meanwhile.
-/

namespace ForgejoMcp.OAuth

open Transactions

variable {d : Deployment} {base : Db} {h : List (Entry sorts)} {e : Entry sorts}
  {c : Config sorts Call Failure Result} {g : Shared sorts} {b : ℕ} {m user : Uuid} {tool : String}

theorem Db.grantsAllowed_iff {db : Db} : db.GrantsAllowed ↔ ∀ m tool user, db.Granted m tool →
    db.owner m = some user → db.Allowed user tool := by
  constructor
  · intro hdb m tool user hg ho
    obtain ⟨token, htoken, rfl⟩ := Option.map_eq_some_iff.1 ho
    obtain ⟨row, hrow⟩ := Option.ne_none_iff_exists'.1 (hdb ⟨m, tool⟩ hg token htoken)
    have hkey := Table.key_of_get hrow
    have hsame : row = ⟨token.userId, tool⟩ := by
      cases row
      cases hkey
      rfl
    rw [Db.Allowed, ← hsame]
    exact Table.mem_of_get hrow
  · intro hdb grant hg token htoken
    have hrow := hdb grant.mcpTokenId grant.toolName token.userId hg
      (by rw [Db.owner, htoken, Option.map_some])
    exact (Table.get_of_mem hrow :) ▸ Option.some_ne_none _

theorem Db.allowed_of_effective {db : Db} (ht : tool ∈ db.effectiveToolNames user) :
    db.Allowed user tool := by
  obtain ⟨row, hrow, rfl⟩ := List.mem_map.1 ht
  obtain ⟨hmem, huser⟩ := Table.mem_select.1 hrow
  obtain ⟨rfl, -⟩ := of_decide_eq_true huser
  exact hmem

/-! ### Between two states of a run -/

/-- What holds at first and no longer at last ceases at some step. -/
theorem exists_ceases {P : ℕ → Prop} {k n : ℕ} (hkn : k ≤ n) (hk : P k) (hn : ¬ P n) :
    ∃ b, k ≤ b ∧ b < n ∧ P b ∧ ¬ P (b + 1) := by
  induction n, hkn using Nat.le_induction with
  | base => exact absurd hk hn
  | succ n hkn ih =>
    by_cases hP : P n
    · exact ⟨n, hkn, Nat.lt_succ_self n, hP, hn⟩
    · obtain ⟨b, hkb, hbn, hb⟩ := ih hP
      exact ⟨b, hkb, hbn.trans (Nat.lt_succ_self n), hb⟩

/-- A token that gets a grant between two states is issued with it, or its grants are replaced. -/
theorem exists_granting (hi : (serial d).Inv g) {k n : ℕ} (hkn : k ≤ n)
    (hk : ¬ (g.stateAt k).Granted m tool) (hn : (g.stateAt n).Granted m tool) :
    ∃ a e, k ≤ a ∧ a < n ∧ g.history[a]? = some e ∧
      ((∃ i, e.label.issue? = some i ∧ i.accessId = m) ∨
        ∃ tools ownedAt, e.label = .grants m tools ownedAt ∧ tool ∈ tools) := by
  obtain ⟨a, hka, han, hnot, hg⟩ := exists_ceases (P := fun n => ¬ (g.stateAt n).Granted m tool)
    hkn hk (not_not.2 hn)
  rw [not_not] at hg
  cases he : g.history[a]? with
  | none => exact absurd (stateAt_of_getElem?_eq_none he ▸ hg) hnot
  | some e =>
    rw [stateAt_of_getElem? he] at hg
    have hstep : Step d g.base (g.history.take a) e := hi.valid.step_at he
    refine ⟨a, e, hka, han, he, ?_⟩
    rcases hstep.grantOrigin hg with ⟨hwas, -, -⟩ | ⟨i, hl, hid, -⟩ | ⟨tools, ownedAt, hl, hmem⟩
    · exact absurd hwas hnot
    · exact .inl ⟨i, hl, hid⟩
    · exact .inr ⟨tools, ownedAt, hl, hmem⟩

/-- A user who loses a tool between two states loses it by a replacement of the allowances. -/
theorem exists_takesAway (hi : (serial d).Inv g) {k n : ℕ} (hkn : k ≤ n)
    (hk : (g.stateAt k).Allowed user tool) (hn : ¬ (g.stateAt n).Allowed user tool) :
    ∃ b e tools prunedAt, k ≤ b ∧ b < n ∧ g.history[b]? = some e ∧
      e.label = .allowances user tools prunedAt ∧ (g.stateAt b).Allowed user tool ∧ tool ∉ tools := by
  obtain ⟨b, hkb, hbn, hallowed, hnot⟩ :=
    exists_ceases (P := fun n => (g.stateAt n).Allowed user tool) hkn hk hn
  cases he : g.history[b]? with
  | none => exact absurd (stateAt_of_getElem?_eq_none he ▸ hallowed) hnot
  | some e =>
    rw [stateAt_of_getElem? he] at hnot
    have hstep : Step d g.base (g.history.take b) e := hi.valid.step_at he
    by_cases hl : ∃ tools prunedAt, e.label = .allowances user tools prunedAt
    · obtain ⟨tools, prunedAt, hl⟩ := hl
      exact ⟨b, e, tools, prunedAt, hkb, hbn, he, hl, hallowed,
        fun hmem => hnot ((hstep.allowed_of_replaced hl).2 hmem)⟩
    · exact absurd ((hstep.allowed fun tools prunedAt he => hl ⟨tools, prunedAt, he⟩).2 hallowed)
        hnot

/-! ### Overlapping transactions -/

/-- Commit `b` replaced the allowances of a user and took a tool away; it pruned the grants it found
after `prunedAt` commits. -/
def TakesAway (g : Shared sorts) (b : ℕ) (user : Uuid) (prunedAt : ℕ) : Prop :=
  ∃ e tools, g.history[b]? = some e ∧ e.label = .allowances user tools prunedAt ∧
    ∃ tool, (g.stateAt b).Allowed user tool ∧ tool ∉ tools

/-- No replacement that takes a tool away from a user commits while a pair is issued for the user, and
no pair is issued for the user between the pruning of such a replacement and its commit. -/
def IssuesApart (g : Shared sorts) : Prop :=
  ∀ (a : ℕ) e i b prunedAt, g.history[a]? = some e → e.label.issue? = some i →
    TakesAway g b i.userId prunedAt → ¬ (e.began ≤ b ∧ b < a) ∧ ¬ (prunedAt ≤ a ∧ a < b)

/-- Commit `b` took the tool away from the user. -/
structure Removes (g : Shared sorts) (b : ℕ) (user : Uuid) (tool : String) : Prop where
  commit : ∃ e tools prunedAt, g.history[b]? = some e ∧ e.label = .allowances user tools prunedAt ∧
    tool ∉ tools
  allowed : (g.stateAt b).Allowed user tool

/-- No replacement that takes a tool away from a user commits while the grants of a token of the user
are replaced by grants that include the tool. -/
def GrantsApart (g : Shared sorts) : Prop :=
  ∀ (a : ℕ) e m tools ownedAt b user tool, g.history[a]? = some e →
    e.label = .grants m tools ownedAt → tool ∈ tools → (g.stateAt a).owner m = some user →
    Removes g b user tool → ¬ (e.began ≤ b ∧ b < a)

/-- A replacement of the grants of a token grants what its owner may use. -/
theorem exists_owner_of_grants (hi : (serial d).Inv g) {a : ℕ} {tools : List String} {ownedAt : ℕ}
    (he : g.history[a]? = some e) (hl : e.label = .grants m tools ownedAt) :
    e.began ≤ a ∧ ∃ user, (g.stateAt a).owner m = some user ∧
      ∀ tool ∈ tools, (g.stateAt a).Allowed user tool := by
  have hstep : Step d g.base (g.history.take a) e := hi.valid.step_at he
  obtain ⟨user, hx⟩ := hstep.regrants hl
  have hle : ownedAt ≤ a := by
    refine hx.ownedAt_le.trans ?_
    rw [List.length_take]
    exact Nat.min_le_left _ _
  obtain ⟨token, htoken, rfl, -⟩ := hx.owned
  rw [List.take_take, Nat.min_eq_left hle] at htoken
  refine ⟨hx.began_le.trans hle, token.userId, (stateAt_later hi hle).owner ?_, hx.allowed⟩
  rw [Db.owner]
  exact congrArg (Option.map (·.userId)) htoken

/-- The owner of an issued token. -/
theorem owner_of_issue (hi : (serial d).Inv g) {a n : ℕ} {i : Issue} (he : g.history[a]? = some e)
    (hl : e.label.issue? = some i) (han : a < n) :
    (g.stateAt n).owner i.accessId = some i.userId := by
  refine (stateAt_later hi (Nat.succ_le_of_lt han)).owner ?_
  have hstep : Step d g.base (g.history.take a) e := hi.valid.step_at he
  rw [stateAt_of_getElem? he, Db.owner, (hstep.stored (stateAt_consistent hi a).known hl).2]
  rfl

/-- The commit `n` keeps the grants within the allowances. -/
theorem IssuesApart.step (hcond : IssuesApart g) (hi : (serial d).Inv g) {n : ℕ}
    (hprev : (g.stateAt n).GrantsAllowed) (he : g.history[n]? = some e) :
    (g.stateAt (n + 1)).GrantsAllowed := by
  have hstep : Step d g.base (g.history.take n) e := hi.valid.step_at he
  have hlen : (g.history.take n).length = n := by
    rw [List.length_take, Nat.min_eq_left (List.getElem?_eq_some_iff.1 he).1.le]
  have hlater : Later (g.stateAt n) e.db := Later.step hstep
  rw [Db.grantsAllowed_iff] at hprev ⊢
  rw [stateAt_of_getElem? he]
  intro m tool user hg ho
  rcases hstep.grantOrigin hg with ⟨hwas, -, hpruned⟩ | ⟨i, hl, rfl, hmem⟩ | ⟨tools, ownedAt, hl, hmem⟩
  · -- the grant was there before, and allowed
    have allowed : ∀ k, k ≤ n → (g.stateAt k).Granted m tool → (g.stateAt k).owner m = some user := by
      intro k hkn hgranted
      have hstored := hi.start.stored_of_granted (hi.valid.take k) hgranted
      obtain ⟨token, htoken⟩ := Option.ne_none_iff_exists'.1 hstored
      have hown : (g.stateAt k).owner m = some token.userId := by
        rw [Db.owner]
        exact congrArg (Option.map (·.userId)) htoken
      have hsame := ((stateAt_later hi hkn).trans hlater).owner hown
      rw [ho, Option.some.injEq] at hsame
      rw [hsame]
      exact hown
    have hbefore : (g.stateAt n).Allowed user tool := hprev m tool user hwas
      (allowed n (Nat.le_refl n) hwas)
    by_cases hreplaced : ∃ tools prunedAt, e.label = .allowances user tools prunedAt
    · obtain ⟨tools, prunedAt, hl⟩ := hreplaced
      refine (hstep.allowed_of_replaced hl).2 ?_
      by_contra hout
      obtain ⟨pruned, hx⟩ := hstep.prunes hl
      have hle : prunedAt ≤ n := hx.prunedAt_le.trans hlen.le
      have htake : (g.history.take n).take prunedAt = g.history.take prunedAt := by
        rw [List.take_take, Nat.min_eq_left hle]
      have hkeep := hpruned user tools prunedAt hl
      rw [htake] at hkeep
      -- the grant was made after the pruning, so by an issuance in between
      have hnot : ¬ (g.stateAt prunedAt).Granted m tool := fun hthen =>
        hout (hkeep hthen (allowed prunedAt hle hthen))
      obtain ⟨a, e', hpa, han, ha, hgranting⟩ := exists_granting hi hle hnot hwas
      rcases hgranting with ⟨i, hissue, rfl⟩ | ⟨tools', ownedAt, hl', -⟩
      · have hown := hlater.owner (owner_of_issue hi ha hissue han)
        rw [ho, Option.some.injEq] at hown
        subst hown
        exact (hcond a e' i n prunedAt ha hissue ⟨e, tools, he, hl, tool, hbefore, hout⟩).2
          ⟨hpa, han⟩
      · refine hx.locked e' ?_ (by rw [hl']; exact registryKey_mem d)
        refine List.mem_of_getElem? (i := a - prunedAt) ?_
        rw [List.getElem?_drop, Nat.add_sub_cancel' hpa, List.getElem?_take_of_lt han, ha]
    · exact (hstep.allowed fun tools prunedAt hl => hreplaced ⟨tools, prunedAt, hl⟩).2 hbefore
  · -- the token is issued now, with tools the user could use since the transaction began
    have hown : e.db.owner i.accessId = some i.userId :=
      stateAt_of_getElem? he ▸ owner_of_issue hi he hl (Nat.lt_succ_self n)
    rw [ho, Option.some.injEq] at hown
    subst hown
    obtain ⟨k, hbegan, hkn, heff⟩ := hstep.issues hl
    have hkn' : k ≤ n := hkn.trans hlen.le
    rw [List.take_take, Nat.min_eq_left hkn'] at heff
    refine (hstep.allowed fun tools prunedAt he => by rw [he] at hl; cases hl).2 ?_
    by_contra hnot
    obtain ⟨b, e', tools, prunedAt, hkb, hbn, hb, hl', hallowed, hout⟩ :=
      exists_takesAway hi hkn' (Db.allowed_of_effective (heff hmem)) hnot
    exact (hcond n e i b prunedAt he hl ⟨e', tools, hb, hl', tool, hallowed, hout⟩).1
      ⟨hbegan.trans hkb, hbn⟩
  · -- the grants were checked against the allowances
    obtain ⟨-, user', hown, hallowed⟩ := exists_owner_of_grants hi he hl
    have hsame := hlater.owner hown
    rw [ho, Option.some.injEq] at hsame
    rw [hsame]
    exact (hstep.allowed fun tools' prunedAt he => by rw [hl] at he; cases he).2 (hallowed tool hmem)

theorem IssuesApart.grantsAllowed (hcond : IssuesApart g) (hi : (serial d).Inv g) (n : ℕ) :
    (g.stateAt n).GrantsAllowed := by
  induction n with
  | zero =>
    rw [Shared.stateAt, List.take_zero, after_nil]
    exact hi.start.allowed
  | succ n ih =>
    cases he : g.history[n]? with
    | none => exact stateAt_of_getElem?_eq_none he ▸ ih
    | some e => exact hcond.step hi ih he

/-! ### The result -/

/-- Commit `b` took the tool away from the user, and every pair whose access token is `m` was begun to
be issued before that. -/
structure RemovedFrom (g : Shared sorts) (b : ℕ) (user : Uuid) (tool : String) (m : Uuid) : Prop
    extends Removes g b user tool where
  began : ∀ (a : ℕ) e i, g.history[a]? = some e → e.label.issue? = some i → i.accessId = m →
    e.began ≤ b

/-- A token of the user has no grant for the tool that was just taken away. -/
theorem Removes.not_granted (hrem : Removes g b user tool) (hcond : IssuesApart g)
    (hi : (serial d).Inv g) {n : ℕ} (hbn : b < n) (ho : (g.stateAt n).owner m = some user) :
    ¬ (g.stateAt (b + 1)).Granted m tool := by
  obtain ⟨e, tools, prunedAt, hb, hl, hout⟩ := hrem.commit
  have hstep : Step d g.base (g.history.take b) e := hi.valid.step_at hb
  intro hwas
  have hstored := hi.start.stored_of_granted (hi.valid.take (b + 1)) hwas
  obtain ⟨token, htoken⟩ := Option.ne_none_iff_exists'.1 hstored
  have hown : (g.stateAt (b + 1)).owner m = some token.userId := by
    rw [Db.owner]
    exact congrArg (Option.map (·.userId)) htoken
  have hsame := (stateAt_later hi hbn).owner hown
  rw [ho, Option.some.injEq] at hsame
  rw [← hsame] at hown
  have hallowed := Db.grantsAllowed_iff.1 (hcond.grantsAllowed hi (b + 1)) m tool user hwas hown
  rw [stateAt_of_getElem? hb] at hallowed
  exact hout ((hstep.allowed_of_replaced hl).1 hallowed)

/-- In every run in which no issuance overlaps the removal of a tool, the grants of every token stay
within the allowances of its owner.  And if no change of grants that includes the tool overlaps its
removal either, then once a tool is taken away from a user, the tokens of the user whose issuance had
begun have no grant for it until a change of their grants that began later grants it explicitly. -/
theorem grants_within_allowances (hc : Reachable d c) (hcond : IssuesApart c.shared) :
    (∀ n, (c.shared.stateAt n).GrantsAllowed) ∧
    (GrantsApart c.shared → ∀ b user tool m, RemovedFrom c.shared b user tool m → ∀ n, b < n →
      (c.shared.stateAt n).owner m = some user → (c.shared.stateAt n).Granted m tool →
      ∃ a e tools ownedAt, b < e.began ∧ e.began ≤ a ∧ a < n ∧ c.shared.history[a]? = some e ∧
        e.label = .grants m tools ownedAt ∧ tool ∈ tools) := by
  have hi := reachable_inv hc
  refine ⟨hcond.grantsAllowed hi, fun hgrants b user tool m hrem n hbn ho hg => ?_⟩
  obtain ⟨a, e, hba, han, ha, hgranting⟩ :=
    exists_granting hi hbn (hrem.toRemoves.not_granted hcond hi hbn ho) hg
  rcases hgranting with ⟨i, hissue, rfl⟩ | ⟨tools, ownedAt, hl, hmem⟩
  · -- an issuance that had begun overlaps the removal
    have hown := owner_of_issue hi ha hissue han
    rw [ho, Option.some.injEq] at hown
    subst hown
    obtain ⟨e', tools, prunedAt, hb, hl, hout⟩ := hrem.commit
    exact absurd ⟨hrem.began a e i ha hissue rfl, hba⟩
      (hcond a e i b prunedAt ha hissue ⟨e', tools, hb, hl, tool, hrem.allowed, hout⟩).1
  · -- a change of the grants did not overlap it
    obtain ⟨hbegan, user', hown, -⟩ := exists_owner_of_grants hi ha hl
    have hsame := (stateAt_later hi han.le).owner hown
    rw [ho, Option.some.injEq] at hsame
    rw [← hsame] at hown
    refine ⟨a, e, tools, ownedAt, ?_, hbegan, han, ha, hl, hmem⟩
    by_contra hle
    exact hgrants a e m tools ownedAt b user tool ha hl hmem hown hrem.toRemoves
      ⟨Nat.le_of_not_lt hle, hba⟩

/-- The sample code is exchanged while the tool it selects is taken away from the user. -/
def overlappedRemovalScript : List (Cue sorts Call) :=
  [alone (.resolveConsent sampleInteraction 0 true none ["read"]),
    .call (.exchangeAuthorizationCode (some "client")
      ⟨"", [], "client", "", "", true, "", 1, 0, 0⟩) (List.replicate 12 ()),
    alone (.replaceUserAllowances 0 0 []), .resume 1 (List.replicate 60 ())]

theorem granted_beyond_allowances : Reachable .sample (sampleRun overlappedRemovalScript) ∧
    ¬ ((sampleRun overlappedRemovalScript).shared.stateAt 3).GrantsAllowed := by
  refine ⟨sampleRun_reachable _, fun hall => ?_⟩
  have hg : (⟨5, "read"⟩ : McpTokenToolGrant) ∈
      ((sampleRun overlappedRemovalScript).shared.stateAt 3).mcpTokenToolGrants.rows := by
    decide +kernel
  have ho : ((sampleRun overlappedRemovalScript).shared.stateAt 3).owner 5 = some 0 := by
    decide +kernel
  have hnone : (⟨0, "read"⟩ : UserToolAllowance) ∉
      ((sampleRun overlappedRemovalScript).shared.stateAt 3).userToolAllowances.rows := by
    decide +kernel
  exact hnone (Db.grantsAllowed_iff.1 hall 5 "read" 0 hg ho)

/-- A change of the grants has read its token when the tool is taken away from the user and given back,
and then it goes on. -/
def overlappedGrantScript : List (Cue sorts Call) :=
  sampleIssue ["read", "write"] ++ [.call (.replaceTokenGrants 0 0 5 ["read"]) [()],
    alone (.replaceUserAllowances 0 0 []), alone (.replaceUserAllowances 0 0 ["read"]),
    .resume 2 (List.replicate 60 ())]

/-- The change of the grants in the script began before the removal committed, and grants the tool. -/
theorem granted_across_removal : Reachable .sample (sampleRun overlappedGrantScript) ∧
    (¬ ((sampleRun overlappedGrantScript).shared.stateAt 3).Granted 5 "read" ∧
      ((sampleRun overlappedGrantScript).shared.stateAt 5).Granted 5 "read") ∧
    ((sampleRun overlappedGrantScript).shared.history[4]?).map (·.began) = some 2 := by
  have hnone : (⟨5, "read"⟩ : McpTokenToolGrant) ∉
      ((sampleRun overlappedGrantScript).shared.stateAt 3).mcpTokenToolGrants.rows := by
    decide +kernel
  have hg : (⟨5, "read"⟩ : McpTokenToolGrant) ∈
      ((sampleRun overlappedGrantScript).shared.stateAt 5).mcpTokenToolGrants.rows := by
    decide +kernel
  exact ⟨sampleRun_reachable _, ⟨hnone, hg⟩, by decide +kernel⟩

/-- The sample user consents to both tools, gets a pair, loses one of the tools, and may use it again. -/
def removalScript : List (Cue sorts Call) :=
  sampleIssue ["read", "write"] ++ [alone (.replaceUserAllowances 0 0 ["read"]),
    alone (.replaceUserAllowances 0 0 ["read", "write"])]

/-- The commits of the sample: the last two replace the allowances of the user, the first of them without
the tool, and no commit changes grants. -/
def Label.fits (a : ℕ) : Label → Bool
  | .grants _ _ _ => false
  | .allowances user tools prunedAt =>
      decide (2 ≤ a ∧ 2 ≤ prunedAt ∧ user = 0 ∧ (a = 2 → "write" ∉ tools))
  | _ => decide (a < 2)

theorem Label.exists_of_fits {a : ℕ} {l : Label} (h : l.fits a = true) (ha : 2 ≤ a) :
    ∃ tools prunedAt, l = .allowances 0 tools prunedAt ∧ 2 ≤ prunedAt ∧
      (a = 2 → "write" ∉ tools) := by
  cases l with
  | grants => cases h
  | allowances user tools prunedAt =>
    obtain ⟨-, hpruned, rfl, hout⟩ := of_decide_eq_true h
    exact ⟨tools, prunedAt, rfl, hpruned, hout⟩
  | _ => exact absurd (of_decide_eq_true h) (Nat.not_lt.2 ha)

theorem grants_within_allowances_sample :
    ((sampleRun removalScript).shared.stateAt 4).GrantsAllowed ∧
      ¬ ((sampleRun removalScript).shared.stateAt 4).Granted 5 "write" := by
  have hlength : (sampleRun removalScript).shared.history.length = 4 := by decide +kernel
  have hall : ∀ a < 4, ((sampleRun removalScript).shared.history[a]?).all
      (fun e => decide (e.began ≤ a) && e.label.fits a) = true := by
    decide +kernel
  have fits : ∀ {a : ℕ} {e : Entry sorts}, (sampleRun removalScript).shared.history[a]? = some e →
      e.began ≤ a ∧ e.label.fits a = true := by
    intro a e ha
    have hat := hall a (hlength ▸ (List.getElem?_eq_some_iff.1 ha).1)
    rw [ha, Option.all_some] at hat
    exact ⟨of_decide_eq_true (Bool.and_eq_true_iff.1 hat).1, (Bool.and_eq_true_iff.1 hat).2⟩
  have issued : ∀ {a : ℕ} {e : Entry sorts} {i : Issue},
      (sampleRun removalScript).shared.history[a]? = some e → e.label.issue? = some i → a < 2 := by
    intro a e i ha hl
    by_contra hle
    obtain ⟨tools, prunedAt, hlabel, -⟩ := Label.exists_of_fits (fits ha).2 (Nat.not_lt.1 hle)
    rw [hlabel] at hl
    cases hl
  have granted : ∀ {a : ℕ} {e : Entry sorts} {m tools ownedAt},
      (sampleRun removalScript).shared.history[a]? = some e → e.label ≠ .grants m tools ownedAt := by
    intro a e m tools ownedAt ha hl
    have hat := (fits ha).2
    rw [hl] at hat
    cases hat
  have hresult := grants_within_allowances (sampleRun_reachable removalScript)
    fun a e i b prunedAt ha hl htake => by
      obtain ⟨e', tools, hb, hl', -⟩ := htake
      have hat := (fits hb).2
      rw [hl'] at hat
      obtain ⟨hb2, hpruned, -⟩ := of_decide_eq_true hat
      have ha2 := issued ha hl
      exact ⟨fun h => by omega, fun h => by omega⟩
  refine ⟨hresult.1 4, fun hg => ?_⟩
  -- the first replacement took the tool away, and no change of the grants followed
  have hremoves : Removes (sampleRun removalScript).shared 2 0 "write" := by
    have hallowed : (⟨0, "write"⟩ : UserToolAllowance) ∈
        ((sampleRun removalScript).shared.stateAt 2).userToolAllowances.rows := by
      decide +kernel
    obtain ⟨e, he⟩ : ∃ e, (sampleRun removalScript).shared.history[2]? = some e :=
      ⟨_, List.getElem?_eq_getElem (hlength ▸ (by decide : 2 < 4))⟩
    obtain ⟨tools, prunedAt, hl, -, hout⟩ := Label.exists_of_fits (fits he).2 (Nat.le_refl 2)
    exact ⟨⟨e, tools, prunedAt, he, hl, hout rfl⟩, hallowed⟩
  have ho : ((sampleRun removalScript).shared.stateAt 4).owner 5 = some 0 := by decide +kernel
  have hremoved : RemovedFrom (sampleRun removalScript).shared 2 0 "write" 5 :=
    ⟨hremoves, fun a e i ha hl _ => (fits ha).1.trans (issued ha hl).le⟩
  obtain ⟨a, e, tools, ownedAt, -, -, -, ha, hl, -⟩ := hresult.2
    (fun a e m tools ownedAt b user tool ha hl => absurd hl (granted ha)) 2 0 "write" 5 hremoved 4
    (by decide) ho hg
  exact granted ha hl

end ForgejoMcp.OAuth
