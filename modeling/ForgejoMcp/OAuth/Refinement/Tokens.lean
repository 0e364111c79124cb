import ForgejoMcp.OAuth.Refinement.Revocation

/-!
# Refinement: creating and revoking tokens

`/revoke` and the Dashboard revoke a family through `revoke_oauth_family`; the Dashboard also revokes
single static tokens and creates them.
-/

namespace ForgejoMcp.OAuth

open Transactions Rows

variable {d : Deployment} {t : ℕ} {l : Session sorts} {g : Shared sorts}

/-! ### `/revoke` -/

theorem revokeToken_runs {familyId clientRecordId : Uuid} :
    Runs d t Done (revokeToken familyId clientRecordId) {} g := by
  unfold revokeToken
  have hst : ∀ held, (serial d).spec.Stable t held (Serial.Continues g.base g.history) :=
    fun _ => Serial.Continues.stable g.base g.history
  refine Spec.Safe.now (hst _) (.refl g) fun g₀ hi₀ hA₀ => Runs.withSession Done.kept hi₀ ?_
  refine revokeOauthFamily_runs Done.kept (hst _) hA₀ (fun _ => rfl) (fun _ _ _ _ _ => trivial)
    fun tokens h₁ l' g₁ hi₁ _ hrev => ?_
  have hheld := Serial.Held.stable (M := serial d) (t := t) hrev.family g₁.base h₁
  refine Spec.Safe.exec hheld hrev.holds fun g₂ hi₂ hA₂ => ?_
  refine Serial.commit (k := .ret) (hheld.append _) hA₂ fun g₃ hi₃ hA₃ => ?_
  obtain ⟨⟨time, hview⟩, htokens, hstored⟩ := hrev.db hA₃ hi₃
  refine ⟨commits_of_step hi₃ rfl ?_ fun k hk => ?_, Done.ret⟩
  · exact ⟨time, _, by rw [Session.exec_view, hview]; rfl, hstored, htokens⟩
  · exact hrev.exclusive hk

/-! ### Dashboard revocation -/

/-- A stored OAuth token has a family. -/
theorem exists_family {m : Uuid} {token : McpToken} (hl : Linked g.current)
    (hm : g.current.mcpTokens.get m = some token) (hkind : token.kind = .oauth) :
    ∃ link r, g.current.accessTokens.get m = some link ∧
      g.current.refreshTokens.get link.refreshTokenId = some r ∧ r.mcpTokenId = some m := by
  obtain ⟨link, hlink⟩ := Option.ne_none_iff_exists'.1 (hl.oauth m token hm hkind)
  obtain ⟨r, hr, hrm⟩ := hl.refresh m link hlink
  exact ⟨link, r, hlink, hr, hrm⟩

/-- A token that was read is still stored, with the same columns. -/
theorem get_of_continues {g₀ : Shared sorts} (hc : Serial.Continues g₀.base g₀.history g)
    (hi : (serial d).Inv g) {m : Uuid} {token : McpToken}
    (hm : g₀.current.mcpTokens.get m = some token) :
    ∃ token', g.current.mcpTokens.get m = some token' ∧ token'.core = token.core := by
  obtain ⟨token', hm', hlater⟩ := (later_of_continues hc hi).mcpTokens m token hm
  exact ⟨token', hm', hlater.core⟩

theorem revokeMcpTokenRecord_runs {actor : Uuid} {record : McpToken}
    (hl : ∀ db, l.view db = db) (hget : g.current.mcpTokens.get record.id = some record) :
    Runs d t Done (revokeMcpTokenRecord actor record) l g := by
  unfold revokeMcpTokenRecord
  refine Spec.Safe.rejectIf (fun _ => Done.raise) fun _ => ?_
  have hst : ∀ held, (serial d).spec.Stable t held (Serial.Continues g.base g.history) :=
    fun _ => Serial.Continues.stable g.base g.history
  refine Spec.Safe.now (hst _) (.refl g) fun g₁ hi₁ hA₁ => ?_
  by_cases hkind : record.kind = .oauth
  · simp only [dashboardFamily, hkind, if_true, oauthFamilyForMcpToken]
    refine Spec.Safe.query (hst _) hA₁ fun g₂ family hi₂ hA₂ hfamily => ?_
    obtain ⟨token, htoken, hcore⟩ := get_of_continues hA₂ hi₂ hget
    obtain ⟨link, r, hlink, hr, hrm⟩ := exists_family (inv_consistent hi₂).linked htoken
      ((congrArg McpToken.kind hcore :).trans hkind)
    rw [hl, hlink, Option.bind_eq_bind, Option.bind_some, hr] at hfamily
    obtain rfl : some r.familyId = family := hfamily
    have hst₂ : ∀ held, (serial d).spec.Stable t held (Serial.Continues g₂.base g₂.history) :=
      fun _ => Serial.Continues.stable g₂.base g₂.history
    simp only [revokeFamilyByDashboard, Prog.bind_eq, Prog.bind_assoc]
    refine revokeOauthFamily_runs Done.kept (hst₂ _) (.refl g₂) hl (fun _ _ _ _ _ => trivial)
      fun tokens h₁ l' g₃ hi₃ hA₃ hrev => ?_
    have hst₃ := (hst₂ _).and (Serial.Held.stable (M := serial d) (t := t) hrev.family g₃.base h₁)
    refine Spec.Safe.exec hst₃ ⟨hA₃, hrev.holds⟩ fun g₄ hi₄ hA₄ => ?_
    refine Rel.updateKey_safe (hst₃.append _) hA₄ fun g₅ hi₅ hA₅ => ?_
    refine Spec.Safe.exec ((hst₃.append _).append _) hA₅ fun g₆ hi₆ hA₆ => ?_
    refine Serial.commit (k := .ret) (((hst₃.append _).append _).append _) hA₆
      fun g₇ hi₇ hA₇ => ?_
    obtain ⟨⟨time, hview⟩, htokens, hstored⟩ := hrev.db hA₇.2 hi₇
    -- the token is still a member of the family when the transaction commits
    have hmember : record.id ∈ g₇.current.memberTokens r.familyId := by
      obtain ⟨r', hr', hlater⟩ := (later_of_continues hA₇.1 hi₇).refreshTokens _ r hr
      refine Db.mem_memberTokens.2 ⟨r', Db.mem_lineage.2 ⟨?_, ?_⟩, ?_⟩
      · rw [Table.key_of_get hr']
        exact hr'
      · exact (congrArg OAuthRefreshToken.familyId hlater.core :)
      · exact (congrArg OAuthRefreshToken.mcpTokenId hlater.core :).trans hrm
    refine ⟨commits_of_step hi₇ rfl ?_ fun k hk => ?_, Done.ret⟩
    · exact ⟨g₁.clock, time, _, by simp only [Session.exec_view, hview]; rfl, hstored, htokens,
        htokens ▸ hmember⟩
    · rcases List.mem_cons.1 hk with rfl | hk
      · simp [Rel.exclusive, mcpTokens]
      · have hheld := hrev.exclusive hk
        simp [hheld]
  · simp only [dashboardFamily, hkind, if_false, revokeFamilyByDashboard]
    refine Rel.updateKey_safe (hst _) hA₁ fun g₂ hi₂ hA₂ => ?_
    refine Spec.Safe.exec ((hst _).append _) hA₂ fun g₃ hi₃ hA₃ => ?_
    refine Serial.commit (k := .ret) (((hst _).append _).append _) hA₃ fun g₄ hi₄ hA₄ => ?_
    obtain ⟨token, htoken, hcore⟩ := get_of_continues hA₄ hi₄ hget
    refine ⟨commits_of_step hi₄ rfl ?_ fun k hk => ?_, Done.ret⟩
    · exact ⟨g₁.clock, _, token, by simp only [Session.exec_view, hl]; rfl, htoken,
        fun h => hkind ((congrArg McpToken.kind hcore :).symm.trans h)⟩
    · rw [List.mem_singleton.1 hk]
      simp [Rel.exclusive, mcpTokens]

theorem revokeForUser_runs {actor userId tokenId : Uuid} (hi : (serial d).Inv g) :
    Runs d t Done (revokeForUser actor userId tokenId) {} g := by
  unfold revokeForUser
  refine Runs.withSession Done.kept hi ?_
  refine Rel.select_safe (Serial.Continues.stable g.base g.history) (.refl g)
    fun g₁ rows hi₁ hA₁ hrows => ?_
  refine Spec.Safe.require (fun _ => Done.raise) fun record hrecord => ?_
  have hmem := (Table.mem_select.1 (hrows ▸ List.mem_of_mem_head? hrecord)).1
  exact revokeMcpTokenRecord_runs (fun _ => rfl) (Table.get_of_mem hmem)

theorem revokeAsAdmin_runs {actor tokenId : Uuid} (hi : (serial d).Inv g) :
    Runs d t Done (revokeAsAdmin actor tokenId) {} g := by
  unfold revokeAsAdmin
  refine Runs.withSession Done.kept hi ?_
  refine Rel.find_safe (Serial.Continues.stable g.base g.history) (.refl g)
    fun g₁ row hi₁ hA₁ hrow => ?_
  refine Spec.Safe.require (fun _ => Done.raise) fun record hrecord => ?_
  have hget := hrow.trans hrecord
  exact revokeMcpTokenRecord_runs (fun _ => rfl) (Table.key_of_get hget ▸ hget)

/-! ### Creation -/

theorem createMcpToken_runs {actor userId : Uuid} {name : String} {description : Option String}
    {expiresAt : Option Time} (hi : (serial d).Inv g) :
    Runs d t Done (createMcpToken d actor userId name description expiresAt) {} g := by
  unfold createMcpToken
  refine Runs.withSession Done.kept hi ?_
  have hst : ∀ held, (serial d).spec.Stable t held (Serial.Continues g.base g.history) :=
    fun _ => Serial.Continues.stable g.base g.history
  refine Spec.Safe.query (hst _) (.refl g) fun g₁ user hi₁ hA₁ _ => ?_
  refine Spec.Safe.require (fun _ => Done.raise) fun user _ => ?_
  refine Spec.Safe.rejectIf (fun _ => Done.raise) fun _ => ?_
  refine Spec.Safe.rejectIf (fun _ => Done.raise) fun _ => ?_
  refine Spec.Safe.now (hst _) hA₁ fun g₂ hi₂ hA₂ => ?_
  refine Spec.Safe.rejectIf (fun _ => Done.raise) fun _ => ?_
  refine Spec.Safe.fresh (hst _) hA₂ fun g₃ hi₃ hi₃' hA₃ => ?_
  have hst₁ := fun held =>
    (hst held).and (Serial.Unused.stable (M := serial d) (t := t) g₃.drawn.length)
  refine Spec.Safe.fresh (hst₁ _) ⟨hA₃, .draw hi₃⟩ fun g₄ hi₄ hi₄' hA₄ => ?_
  have hst₂ := fun held =>
    (hst₁ held).and (Serial.Unused.stable (M := serial d) (t := t) g₄.drawn.length)
  refine Rel.insert_safe (hst₂ _) ⟨hA₄, .draw hi₄⟩ (fun _ _ _ _ => Done.raise)
    fun g₅ hi₅ hA₅ _ => ?_
  refine Spec.Safe.exec (hst₂ _) hA₅ fun g₆ hi₆ hA₆ => ?_
  refine Serial.commit (hst₂ _) hA₆ fun g₇ hi₇ hA₇ => ?_
  obtain ⟨⟨-, hsecret⟩, hid⟩ := hA₇
  refine ⟨⟨?_, fun k hk => ?_, fun k hk => ?_, hi₇.side.append _⟩, Done.ret⟩
  · exact ⟨_, _, by simp only [Session.exec_view, Session.touch_view]; rfl, rfl, rfl, rfl, rfl, rfl,
      fresh_of_unused hid hi₇, fresh_of_unused hsecret hi₇⟩
  · rw [List.mem_singleton.1 hk]
    simp [Rel.exclusive, mcpTokens]
  · simp only [serial, ids, List.mem_cons, List.not_mem_nil, or_false] at hk
    rcases hk with rfl | rfl
    · exact hid.drawn
    · exact hsecret.drawn

end ForgejoMcp.OAuth
