import ForgejoMcp.OAuth.ToolPermissions
import ForgejoMcp.OAuth.Refinement.Rules

/-!
# Refinement: tool permissions

Every change of permissions first synchronises the registry, whose upserts lock the rows of all
registered tools; from then on the allowances and the grants of the stored tokens stand still.
-/

namespace ForgejoMcp.OAuth

open Transactions Rows

variable {d : Deployment} {t : ℕ} {l : Session sorts} {g : Shared sorts} {α : Type}
  {R : Except Failure α → Shared sorts → Prop} {A : Shared sorts → Prop}

/-- What `sync_registry` leaves in its session. -/
structure SyncedIn (specs : List ToolSpec) (l l' : Session sorts) : Prop where
  view : ∀ db, ∃ settings, l'.view db = (l.view db).withSettings settings
  held : ∀ x ∈ l.held, x ∈ l'.held
  keys : ∀ spec ∈ specs, ⟨.toolSetting spec.name, true⟩ ∈ l'.held
  began : ∀ b, l.began = some b → l'.began = some b

theorem upserted_toolSettings (db : Db) (row : ToolSetting) (f : Assign ToolSetting.toolName) :
    ∃ settings, toolSettings.upserted row f db = db.withSettings settings := by
  unfold Rel.upserted
  split <;> exact ⟨_, rfl⟩

theorem syncRegistry_runs {specs : List ToolSpec} {k : Unit → P α} (hi : (serial d).Inv g)
    (hst : (serial d).spec.Stable t l.held A) (hA : A g)
    (h : ∀ l' g₁, (serial d).Inv g₁ → A g₁ → SyncedIn specs l l' → Runs d t R (k ()) l' g₁) :
    Runs d t R (syncRegistry specs >>= k) l g := by
  induction specs generalizing l g with
  | nil => exact h l g hi hA ⟨fun db => ⟨(l.view db).toolSettings, rfl⟩, fun _ hx => hx, by simp,
      fun _ hb => hb⟩
  | cons spec specs ih =>
    simp only [syncRegistry, Prog.bind_eq, Prog.bind_assoc]
    refine Rel.upsert_safe hst hA fun g₁ hi₁ hA₁ => ih hi₁ (hst.append _) hA₁ ?_
    intro l' g₂ hi₂ hA₂ hs
    refine h l' g₂ hi₂ hA₂ ⟨fun db => ?_, fun x hx => ?_, fun s hmem => ?_, fun b hb => ?_⟩
    · obtain ⟨settings, hview⟩ := hs.view db
      obtain ⟨settings', hup⟩ := upserted_toolSettings (l.view db)
        ⟨spec.name, false, spec.version⟩ ⟨fun r => { r with registryVersion := spec.version },
          fun _ => rfl⟩
      refine ⟨settings, ?_⟩
      rw [hview, Session.exec_view, List.foldl_cons, List.foldl_nil, hup]
      rfl
    · exact hs.held x (List.mem_append_right _ hx)
    · rcases List.mem_cons.1 hmem with rfl | hmem
      · exact hs.held _ (List.mem_append_left _ (List.mem_singleton_self _))
      · exact hs.keys s hmem
    · exact hs.began b (Session.exec_began _ _ _ hb)

/-- Nothing but the registry was written. -/
theorem SyncedIn.view_of_unwritten {specs : List ToolSpec} {l' : Session sorts}
    (hs : SyncedIn specs l l') (hl : ∀ db, l.view db = db) (db : Db) :
    ∃ settings, l'.view db = db.withSettings settings := by
  obtain ⟨settings, hview⟩ := hs.view db
  exact ⟨settings, by rw [hview, hl]⟩

/-- The session has locked the whole registry. -/
theorem SyncedIn.exclusive {l' : Session sorts} (hs : SyncedIn d.registry l l') {k : Key}
    (hk : k ∈ registryKeys d) : ⟨k, true⟩ ∈ l'.held := by
  obtain ⟨spec, hspec, rfl⟩ := List.mem_map.1 hk
  exact hs.keys spec hspec

theorem requireTools_runs {toolNames : List String} {k : Unit → P α}
    (h : Runs d t Done (k ()) l g) : Runs d t Done (requireTools d toolNames >>= k) l g := by
  simp only [requireTools]
  exact Spec.Safe.rejectIf (fun _ => Done.raise) fun _ => h

/-- While the registry is locked, permissions stay as they were read. -/
theorem samePermissions_of_held {base : Db} {h : List (Entry sorts)}
    (hh : (serial d).Held (registryKey d) base h g) (hi : (serial d).Inv g) :
    SamePermissions (after base h) g.current :=
  hh.related hi SamePermissions .refl (fun _ _ _ => .trans) fun _ _ hv hs hno =>
    .step (hi.start.consistent_of_valid hv).known hs hno

/-! ### Global settings -/

theorem setGlobalEnabled_runs {actor : Uuid} {toolName : String} {enabled : Bool}
    (hi : (serial d).Inv g) : Runs d t Done (setGlobalEnabled d actor toolName enabled) {} g := by
  unfold setGlobalEnabled
  refine Runs.withSession Done.kept hi (requireTools_runs ?_)
  have hst : ∀ held, (serial d).spec.Stable t held (Serial.Continues g.base g.history) :=
    fun _ => Serial.Continues.stable g.base g.history
  refine syncRegistry_runs hi (hst _) (.refl g) fun l g₁ hi₁ hA₁ hs => ?_
  refine Rel.update_safe (hst _) hA₁ fun g₂ g₃ ks hi₂ hA₂ _ hi₃ hA₃ _ => ?_
  refine Spec.Safe.exec (hst _) hA₃ fun g₄ hi₄ hA₄ => ?_
  refine Serial.commit (k := .ret) (hst _) hA₄ fun g₅ hi₅ hA₅ => ?_
  refine ⟨commits_of_step hi₅ rfl ?_ fun k hk => ?_, Done.ret⟩
  · obtain ⟨settings, hview⟩ := hs.view_of_unwritten (fun _ => rfl) g₅.current
    exact ⟨_, _, by simp only [Session.exec_view, Session.touch_view, hview]; rfl⟩
  · simp [hs.exclusive hk]

/-! ### Allowances -/

theorem replaceUserAllowances_runs {actor userId : Uuid} {toolNames : List String}
    (hi : (serial d).Inv g) :
    Runs d t Done (replaceUserAllowances d actor userId toolNames) {} g := by
  unfold replaceUserAllowances
  refine Runs.withSession Done.kept hi ?_
  refine Spec.Safe.query (Serial.Continues.stable g.base g.history) (.refl g)
    fun g₁ user hi₁ _ _ => ?_
  refine Spec.Safe.rejectIf (fun _ => Done.raise) fun _ => requireTools_runs ?_
  have hb : ∀ held, (serial d).spec.Stable t held fun g => g₁.history.length ≤ g.history.length :=
    fun _ => Serial.stable_length _
  refine syncRegistry_runs hi₁ (hb _) (Nat.le_refl _) fun l g₂ hi₂ hb₂ hs => ?_
  have hkey : ⟨registryKey d, true⟩ ∈ l.held := hs.exclusive (registryKey_mem d)
  simp only [replaceAllowances, Prog.bind_eq, Prog.bind_assoc]
  refine Rel.delete_safe ((hb _).and (Serial.Held.stable (M := serial d) (t := t) hkey g₂.base
    g₂.history)) ⟨hb₂, .refl _ _⟩ fun g₃ g₄ pruned hi₃ hA₃ hc₄ hi₄ hA₄ hpruned => ?_
  have hst₃ : ∀ held, l.held ⊆ held → (serial d).spec.Stable t held fun g =>
      (g₁.history.length ≤ g.history.length ∧
        (serial d).Held (registryKey d) g₂.base g₂.history g) ∧
      Serial.Continues g₃.base g₃.history g := fun held hsub =>
    ((hb held).and (Serial.Held.stable (hsub hkey) _ _)).and (Serial.Continues.stable _ _)
  refine Rel.delete_safe (hst₃ _ (List.subset_append_right _ _)) ⟨hA₄, hc₄⟩
    fun g₅ g₆ ks hi₅ hA₅ _ hi₆ hA₆ hks => ?_
  refine Rel.insert_safe (hst₃ _ ?_) hA₆ (fun _ _ _ _ => Done.raise) fun g₇ hi₇ hA₇ _ => ?_
  · exact fun x hx => List.mem_append_right _ (List.mem_append_right _ hx)
  refine Spec.Safe.exec (hst₃ _ ?_) hA₇ fun g₈ hi₈ hA₈ => ?_
  · exact fun x hx => List.mem_append_right _ (List.mem_append_right _ (List.mem_append_right _ hx))
  refine Serial.commit (hst₃ _ ?_) hA₈ fun g₉ hi₉ hA₉ => ?_
  · exact fun x hx => by simp [hx]
  obtain ⟨⟨-, hheld⟩, hc₉⟩ := hA₉
  have hlen : g₂.history.length ≤ g₃.history.length := hA₃.2.continues.isPrefix.length_le
  refine ⟨commits_of_step hi₉ rfl ?_ fun k hk => ?_, Done.ret⟩
  · obtain ⟨settings, hview⟩ := hs.view_of_unwritten (fun _ => rfl) g₉.current
    obtain ⟨settings₃, hview₃⟩ := hs.view_of_unwritten (fun _ => rfl) g₃.current
    obtain ⟨settings₅, hview₅⟩ := hs.view_of_unwritten (fun _ => rfl) g₅.current
    have hread : after g₉.base (g₉.history.take g₃.history.length) = g₃.current := by
      rw [← List.prefix_iff_eq_take.1 hc₉.isPrefix, hc₉.base, Shared.current]
    -- the rows found by the second deletion are still all allowances of the user
    have hall : ∀ r ∈ g₉.current.userToolAllowances,
        (r.userId, r.toolName) ∈ ks ↔ decide (r.userId = userId) = true := by
      intro r hr
      have hsame : g₉.current.userToolAllowances = g₅.current.userToolAllowances :=
        (samePermissions_of_held hheld hi₉).allowances.trans
          (samePermissions_of_held hA₅.1.2 hi₅).allowances.symm
      rw [← hks]
      simp only [Session.exec_view, Session.touch_view, hview₅, List.mem_map, Table.mem_select,
        decide_eq_true_iff]
      constructor
      · rintro ⟨r', ⟨-, hr'⟩, heq⟩
        exact (congrArg Prod.fst heq).symm.trans hr'
      · refine fun hu => ⟨r, ⟨?_, hu⟩, rfl⟩
        rw [hsame] at hr
        exact hr
    refine ⟨pruned, settings, g₉.current.managementAuditEvents ++
      [⟨actor, "tool.user_allowances_updated", "user", toString userId⟩], ?_, ?_, ?_, ?_, ?_⟩
    · have hdel : userToolAllowances.deleted ks
          (mcpTokenToolGrants.deleted pruned (g₉.current.withSettings settings)) = _ :=
        Rel.deleted_eq hall
      have hprune : mcpTokenToolGrants.deleted pruned (g₉.current.withSettings settings) = _ :=
        Rel.deleted_eq (p := fun r => decide ((r.mcpTokenId, r.toolName) ∈ pruned))
          fun _ _ => decide_eq_true_iff.symm
      simp only [Session.exec_view, Session.touch_view, hview, List.foldl_cons, List.foldl_nil]
      rw [hdel, hprune]
      rfl
    · rw [Session.exec_began _ _ _ (Session.exec_began _ _ _ (Session.exec_began _ _ _
        (Session.touch_began _ (Session.exec_began _ _ _ (Session.touch_began _ (hs.began _ rfl))))))]
      exact hA₃.1
    · exact hc₉.isPrefix.length_le
    · exact fun e he => hheld.not_mem_footprint hlen he
    · intro m tool
      rw [hread, ← hpruned, hview₃]
      simp only [List.mem_map, Table.mem_select, decide_eq_true_iff, Prod.mk.injEq]
      constructor
      · rintro ⟨⟨m', tool'⟩, ⟨hmem, howner, hnot⟩, rfl, rfl⟩
        obtain ⟨token, htoken, huser⟩ := (Option.any_eq_true _ _).1 howner
        exact ⟨hmem, Option.map_eq_some_iff.2 ⟨token, htoken, of_decide_eq_true huser⟩, hnot⟩
      · rintro ⟨hmem, howner, hnot⟩
        obtain ⟨token, htoken, huser⟩ := Option.map_eq_some_iff.1 howner
        exact ⟨⟨m, tool⟩, ⟨hmem, (Option.any_eq_true _ _).2 ⟨token, htoken, decide_eq_true huser⟩,
          hnot⟩, rfl, rfl⟩
  · simp [hs.exclusive hk]

/-! ### Grants -/

theorem replaceTokenGrants_runs {actor userId tokenId : Uuid} {toolNames : List String}
    (hi : (serial d).Inv g) :
    Runs d t Done (replaceTokenGrants d actor userId tokenId toolNames) {} g := by
  unfold replaceTokenGrants
  refine Runs.withSession Done.kept hi ?_
  simp only [ownedToken, Prog.bind_eq, Prog.bind_assoc]
  refine Spec.Safe.query (Serial.Continues.stable g.base g.history) (.refl g)
    fun g₁ answer hi₁ _ hq => ?_
  obtain ⟨ownedAt, row⟩ := answer
  obtain ⟨rfl, hrow⟩ := Prod.mk.inj hq
  refine Spec.Safe.require (fun _ => Done.raise) fun record hrecord => ?_
  refine Spec.Safe.rejectIf (fun _ => Done.raise) fun hrev => requireTools_runs ?_
  obtain ⟨hget, howner⟩ := Option.filter_eq_some_iff.1 (hrow.trans hrecord)
  have hc : ∀ held, (serial d).spec.Stable t held (Serial.Continues g₁.base g₁.history) :=
    fun _ => Serial.Continues.stable _ _
  refine syncRegistry_runs hi₁ (hc _) (.refl g₁) fun l g₂ hi₂ hc₂ hs => ?_
  have hkey : ⟨registryKey d, true⟩ ∈ l.held := hs.exclusive (registryKey_mem d)
  have hst : ∀ held, l.held ⊆ held → (serial d).spec.Stable t held fun g =>
      Serial.Continues g₁.base g₁.history g ∧
      (serial d).Held (registryKey d) g₂.base g₂.history g := fun held hsub =>
    (hc held).and (Serial.Held.stable (hsub hkey) _ _)
  refine Spec.Safe.query (hst _ (List.Subset.refl _)) ⟨hc₂, .refl _ _⟩
    fun g₃ allowances hi₃ hA₃ hallow => ?_
  refine Spec.Safe.rejectIf (fun _ => Done.raise) fun hsub => ?_
  simp only [replaceGrants, Prog.bind_eq, Prog.bind_assoc]
  refine Rel.delete_safe (hst _ (List.Subset.refl _)) hA₃ fun g₄ g₅ ks hi₄ hA₄ _ hi₅ hA₅ hks => ?_
  refine Rel.insert_safe (hst _ (List.subset_append_right _ _)) hA₅ (fun _ _ _ _ => Done.raise)
    fun g₆ hi₆ hA₆ _ => ?_
  refine Spec.Safe.exec (hst _ ?_) hA₆ fun g₇ hi₇ hA₇ => ?_
  · exact fun x hx => List.mem_append_right _ (List.mem_append_right _ hx)
  refine Serial.commit (hst _ ?_) hA₇ fun g₈ hi₈ hA₈ => ?_
  · exact fun x hx => by simp [hx]
  obtain ⟨hc₈, hheld⟩ := hA₈
  obtain ⟨settings, hview⟩ := hs.view_of_unwritten (fun _ => rfl) g₈.current
  obtain ⟨settings₃, hview₃⟩ := hs.view_of_unwritten (fun _ => rfl) g₃.current
  obtain ⟨settings₄, hview₄⟩ := hs.view_of_unwritten (fun _ => rfl) g₄.current
  have hread : after g₈.base (g₈.history.take g₁.history.length) = g₁.current := by
    rw [← List.prefix_iff_eq_take.1 hc₈.isPrefix, hc₈.base, Shared.current]
  have hsame₈ := samePermissions_of_held hheld hi₈
  refine ⟨commits_of_step hi₈ rfl ?_ fun k hk => ?_, Done.ret⟩
  · -- the rows found by the deletion are still all grants of the token
    have hstored : g₂.current.mcpTokens.get tokenId ≠ none := by
      obtain ⟨token, htoken, -⟩ := (later_of_continues hc₂ hi₂).mcpTokens _ _ hget
      exact htoken ▸ Option.some_ne_none token
    have hall : ∀ r ∈ g₈.current.mcpTokenToolGrants,
        (r.mcpTokenId, r.toolName) ∈ ks ↔ decide (r.mcpTokenId = tokenId) = true := by
      intro r hr
      rw [← hks]
      simp only [Session.touch_view, hview₄, List.mem_map, Table.mem_select, decide_eq_true_iff]
      constructor
      · rintro ⟨r', ⟨-, hr'⟩, heq⟩
        exact (congrArg Prod.fst heq).symm.trans hr'
      · intro htoken
        refine ⟨r, ⟨?_, htoken⟩, rfl⟩
        have hgranted : g₈.current.Granted tokenId r.toolName := htoken ▸ hr
        have hread₄ : g₄.current.Granted tokenId r.toolName :=
          ((samePermissions_of_held hA₄.2 hi₄).grants tokenId hstored r.toolName).2
            ((hsame₈.grants tokenId hstored r.toolName).1 hgranted)
        rw [← htoken] at hread₄
        exact hread₄
    refine ⟨userId, settings, g₈.current.managementAuditEvents ++
      [⟨actor, "tool.token_grants_updated", "mcp_token", toString tokenId⟩], ?_, ?_, ?_, ?_, ?_⟩
    · have hdel : mcpTokenToolGrants.deleted ks (g₈.current.withSettings settings) = _ :=
        Rel.deleted_eq hall
      simp only [Session.exec_view, Session.touch_view, hview, List.foldl_cons, List.foldl_nil]
      rw [hdel]
      rfl
    · rw [Session.exec_began _ _ _ (Session.exec_began _ _ _ (Session.exec_began _ _ _
        (Session.touch_began _ (Session.touch_began _ (hs.began _ rfl)))))]
      exact Nat.le_refl _
    · exact hc₈.isPrefix.length_le
    · rw [hread]
      exact ⟨record, hget, of_decide_eq_true howner, not_not.1 hrev⟩
    · intro tool htool
      have hmem := not_not.1 hsub htool
      rw [← hallow] at hmem
      obtain ⟨r, hr, rfl⟩ := List.mem_map.1 hmem
      obtain ⟨hr, huser⟩ := Table.mem_select.1 hr
      rw [hview₃] at hr
      have hsame : g₈.current.userToolAllowances = g₃.current.userToolAllowances :=
        hsame₈.allowances.trans (samePermissions_of_held hA₃.2 hi₃).allowances.symm
      have hallowed : g₃.current.Allowed userId r.toolName := of_decide_eq_true huser ▸ hr
      rw [Db.Allowed, ← hsame] at hallowed
      exact hallowed
  · simp [hs.exclusive hk]

end ForgejoMcp.OAuth
