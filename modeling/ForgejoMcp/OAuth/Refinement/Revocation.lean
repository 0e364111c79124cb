import ForgejoMcp.OAuth.Refinement.Rules

/-!
# Refinement: revoking a family

`revoke_oauth_family` finds the members of a family with several statements.  Because it holds the
lock of the family from its first statement on, they all see the same members, and the session
leaves what the serial model calls `revokeFamily`.
-/

namespace ForgejoMcp.OAuth

open Transactions Rows

variable {d : Deployment} {t : ℕ} {l : Session sorts} {g : Shared sorts} {α : Type}
  {R : Except Failure α → Shared sorts → Prop} {A : Shared sorts → Prop}

theorem lockOauthFamily_runs {f : Uuid} {k : Option OAuthTokenFamily → P α}
    (hst : (serial d).spec.Stable t l.held A) (hA : A g)
    (hnone : ∀ l' g₁, (serial d).Inv g₁ → A g₁ →
      (l.view g₁.current).tokenFamilies.get f = none → Runs d t R (k none) l' g₁)
    (hsome : ∀ n g₁ family, (serial d).Inv g₁ → A g₁ → n ≤ g₁.history.length →
      (l.view g₁.current).tokenFamilies.get f = some family →
      Runs d t R (k (some family)) ((l.touch n).exec g₁.history.length [familyLock f] []) g₁) :
    Runs d t R (lockOauthFamily f >>= k) l g :=
  Rel.selectKeyForUpdate_safe (fun _ => decide_eq_true_iff) hst hA hnone hsome

/-- The updates of a revocation that found all members. -/
theorem revokeFamily_eq {db : Db} {f : Uuid} {time : Time} {ks ks' ks'' tokens : List Uuid}
    (hks : ∀ r ∈ db.lineage f, r.id ∈ ks) (hks' : ∀ m ∈ tokens, m ∈ ks')
    (hks'' : ∀ m ∈ tokens, m ∈ ks'') :
    accessTokens.updated ks'' (fun r => decide (r.mcpTokenId ∈ tokens))
      ⟨fun r => { r with revokedAt := some time }, fun _ => rfl⟩
      (mcpTokens.updated ks' (fun r => decide (r.id ∈ tokens))
        ⟨fun r => { r with enabled := false, revokedAt := some time }, fun _ => rfl⟩
        (refreshTokens.updated ks (fun r => decide (r.familyId = f))
          ⟨fun r => { r with revokedAt := some time }, fun _ => rfl⟩
          (tokenFamilies.updatedKey f ⟨fun r => { r with revokedAt := some time }, fun _ => rfl⟩
            db))) = db.revokeFamily f tokens time := by
  rw [Rel.updated_eq fun r _ hr => hks'' _ (of_decide_eq_true hr),
    Rel.updated_eq fun r _ hr => hks' _ (of_decide_eq_true hr),
    Rel.updated_eq fun r hmem hr => hks r (Table.mem_select.2 ⟨hmem, hr⟩)]
  rfl

/-- The updates of a revocation of a family without access tokens. -/
theorem revokeFamily_nil_eq {db : Db} {f : Uuid} {time : Time} {ks : List Uuid}
    (hks : ∀ r ∈ db.lineage f, r.id ∈ ks) :
    refreshTokens.updated ks (fun r => decide (r.familyId = f))
      ⟨fun r => { r with revokedAt := some time }, fun _ => rfl⟩
      (tokenFamilies.updatedKey f ⟨fun r => { r with revokedAt := some time }, fun _ => rfl⟩ db) =
      db.revokeFamily f [] time := by
  have none : ∀ m ∈ ([] : List Uuid), m ∈ ([] : List Uuid) := fun _ h => h
  rw [← revokeFamily_eq hks none none]
  simp only [Rel.updated, List.not_mem_nil, decide_false, Bool.false_and]
  rw [Table.update_of_forall fun _ _ => rfl, Table.update_of_forall fun _ _ => rfl]
  rfl

/-- What `revoke_oauth_family` leaves in its session, once it has locked the family. -/
structure RevokedIn (d : Deployment) (f : Uuid) (tokens : List Uuid) (h : List (Entry sorts))
    (l l' : Session sorts) (g : Shared sorts) : Prop where
  holds : Holds d f g.base h g
  stored : (after g.base h).tokenFamilies.get f ≠ none
  tokens_eq : tokens = (after g.base h).memberTokens f
  view : ∃ time, ∀ db, SameFamily f (after g.base h) db →
    l'.view db = db.revokeFamily f tokens time
  held : ∀ x ∈ l.held, x ∈ l'.held
  family : familyLock f ∈ l'.held
  locks : ∀ m ∈ tokens, ⟨.mcpToken m, true⟩ ∈ l'.held

theorem RevokedIn.of_holds {f : Uuid} {tokens : List Uuid} {base : Db} {h : List (Entry sorts)}
    {l' : Session sorts} (hh : Holds d f base h g)
    (stored : (after base h).tokenFamilies.get f ≠ none)
    (tokens_eq : tokens = (after base h).memberTokens f) (time : Time)
    (view : ∀ db, SameFamily f (after base h) db → l'.view db = db.revokeFamily f tokens time)
    (held : ∀ x ∈ l.held, x ∈ l'.held) (family : familyLock f ∈ l'.held)
    (locks : ∀ m ∈ tokens, ⟨.mcpToken m, true⟩ ∈ l'.held) : RevokedIn d f tokens h l l' g := by
  obtain rfl := hh.base
  exact ⟨hh, stored, tokens_eq, ⟨time, view⟩, held, family, locks⟩

/-- A session that has revoked a family has locked it and its tokens. -/
theorem RevokedIn.exclusive {f : Uuid} {tokens : List Uuid} {h₁ : List (Entry sorts)}
    {l' : Session sorts} (hrev : RevokedIn d f tokens h₁ l l' g) {k : Key}
    (hk : k ∈ Key.family f :: tokens.map .mcpToken) : ⟨k, true⟩ ∈ l'.held := by
  rcases List.mem_cons.1 hk with rfl | hk
  · exact hrev.family
  · obtain ⟨m, hm, rfl⟩ := List.mem_map.1 hk
    exact hrev.locks m hm

/-- A session that has revoked a family commits what the serial model calls `revokeFamily`. -/
theorem RevokedIn.db {f : Uuid} {tokens : List Uuid} {h₁ : List (Entry sorts)}
    {l' : Session sorts} {g₁ : Shared sorts} (hrev : RevokedIn d f tokens h₁ l l' g₁)
    (hh : Holds d f g₁.base h₁ g) (hi : (serial d).Inv g) :
    (∃ time, l'.view g.current = g.current.revokeFamily f tokens time) ∧
      tokens = g.current.memberTokens f ∧ g.current.tokenFamilies.get f ≠ none := by
  have hsame := Holds.same hh hi
  obtain ⟨time, hview⟩ := hrev.view
  exact ⟨⟨time, hview _ hsame⟩, hrev.tokens_eq.trans hsame.memberTokens.symm,
    hsame.family ▸ hrev.stored⟩

theorem mem_keys_of_holds {f : Uuid} {base : Db} {h : List (Entry sorts)} {g' : Shared sorts}
    (hh : Holds d f base h g') (hi : (serial d).Inv g') {r : OAuthRefreshToken}
    (hr : r ∈ (after base h).lineage f) :
    r.id ∈ (g'.current.refreshTokens.select fun r => r.familyId = f).map (·.id) := by
  have hmem : r ∈ g'.current.lineage f := (Holds.same hh hi).lineage ▸ hr
  exact List.mem_map_of_mem hmem

theorem revokeOauthFamily_runs {f : Uuid} {revokedAt : Time} {k : List Uuid → P α}
    (hR : Kept d t R) (hst : (serial d).spec.Stable t l.held A) (hA : A g)
    (hl : ∀ db, l.view db = db)
    (hE : ∀ e g₁, (serial d).Inv g₁ → A g₁ → g₁.current.tokenFamilies.get f = none →
      R (.error e) g₁)
    (h : ∀ tokens h₁ l' g₁, (serial d).Inv g₁ → A g₁ → RevokedIn d f tokens h₁ l l' g₁ →
      Runs d t R (k tokens) l' g₁) :
    Runs d t R (revokeOauthFamily f revokedAt >>= k) l g := by
  simp only [revokeOauthFamily, Prog.bind_eq, Prog.bind_assoc]
  refine lockOauthFamily_runs hst hA (fun l' g₁ hi hA₁ hnone => ?_)
    fun n g₁ family hi₁ hA₁ _ hfamily => ?_
  · exact Runs.raise hR (hE _ g₁ hi hA₁ (hl g₁.current ▸ hnone))
  have hst₁ : (serial d).spec.Stable t ([familyLock f] ++ l.held)
      fun g => A g ∧ Holds d f g₁.base g₁.history g :=
    (hst.append _).and (Serial.Held.stable (M := serial d) (b := true) List.mem_cons_self _ _)
  refine Rel.updateKey_safe hst₁ ⟨hA₁, Serial.Held.refl _ _⟩ fun g₂ hi₂ hA₂ => ?_
  refine Spec.Safe.query (hst₁.append _) hA₂ fun g₃ tokens hi₃ hA₃ htokens => ?_
  have hmembers : tokens = (after g₁.base g₁.history).memberTokens f := by
    rw [← (Holds.same hA₃.2 hi₃).memberTokens, ← htokens]
    simp only [Session.exec_view, Session.touch_view, hl]
    rfl
  refine Rel.update_safe (hst₁.append _) hA₃ fun g₄ g₅ ks hi₄ hA₄ _ hi₅ hA₅ hks => ?_
  have hmem : ∀ db, SameFamily f (after g₁.base g₁.history) db → ∀ r ∈ db.lineage f, r.id ∈ ks := by
    intro db hsame r hr
    rw [← hks]
    simp only [Session.exec_view, Session.touch_view, hl]
    exact mem_keys_of_holds hA₄.2 hi₄ (hsame.lineage ▸ hr)
  have hstored : (after g₁.base g₁.history).tokenFamilies.get f ≠ none := by
    rw [← Shared.current, ← hl g₁.current, hfamily]
    exact Option.some_ne_none family
  split
  · -- no access token to disable
    rename_i hnil
    refine h tokens g₁.history _ g₅ hi₅ hA₅.1 (.of_holds hA₅.2 hstored hmembers
      (family.revokedAt.getD revokedAt) (fun db hsame => ?_) (fun x hx => ?_) ?_ ?_)
    · simp only [Session.exec_view, Session.touch_view, hl]
      exact hnil ▸ revokeFamily_nil_eq (hmem db hsame)
    · simp [hx]
    · simp
    · simp [hnil]
  · simp only [Prog.bind_assoc]
    have hst₂ := ((hst₁.append [tokenFamilies.exclusive f]).append (ks.map refreshTokens.exclusive))
    refine Rel.update_safe hst₂ hA₅ fun g₆ g₇ ks' hi₆ hA₆ _ hi₇ hA₇ hks' => ?_
    refine Rel.update_safe (hst₂.append _) hA₇ fun g₈ g₉ ks'' hi₈ hA₈ _ hi₉ hA₉ hks'' => ?_
    -- every member token and its link are found, because they exist
    have htoken : ∀ m ∈ tokens, m ∈ ks' := by
      intro m hm
      have hmem₆ : m ∈ g₆.current.memberTokens f := by
        rw [(Holds.same hA₆.2 hi₆).memberTokens, ← hmembers]
        exact hm
      obtain ⟨token, hget, -⟩ := (inv_consistent hi₆).linked.get_memberToken hmem₆
      rw [← hks', ← Table.key_of_get hget]
      simp only [Session.exec_view, Session.touch_view, hl]
      exact List.mem_map_of_mem (Table.mem_select.2 ⟨Table.mem_of_get hget,
        decide_eq_true (Table.key_of_get hget ▸ hm)⟩)
    have hlink : ∀ m ∈ tokens, m ∈ ks'' := by
      intro m hm
      have hmem₈ : m ∈ g₈.current.memberTokens f := by
        rw [(Holds.same hA₈.2 hi₈).memberTokens, ← hmembers]
        exact hm
      obtain ⟨r, hr, hrm⟩ := Db.mem_memberTokens.1 hmem₈
      obtain ⟨link, hget, -⟩ :=
        (inv_consistent hi₈).linked.link _ r m (Db.mem_lineage.1 hr).1 hrm
      rw [← hks'', ← Table.key_of_get hget]
      simp only [Session.exec_view, Session.touch_view, hl]
      exact List.mem_map_of_mem (Table.mem_select.2 ⟨Table.mem_of_get hget,
        decide_eq_true (Table.key_of_get hget ▸ hm)⟩)
    refine h tokens g₁.history _ g₉ hi₉ hA₉.1 (.of_holds hA₉.2 hstored hmembers
      (family.revokedAt.getD revokedAt) (fun db hsame => ?_) (fun x hx => ?_) ?_ fun m hm => ?_)
    · simp only [Session.exec_view, Session.touch_view, hl]
      exact revokeFamily_eq (hmem db hsame) htoken hlink
    · simp [hx]
    · simp
    · simp [Rel.exclusive, mcpTokens, htoken m hm]

end ForgejoMcp.OAuth
