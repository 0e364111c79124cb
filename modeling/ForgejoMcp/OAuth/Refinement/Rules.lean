import ForgejoMcp.OAuth.Locks
import ForgejoMcp.OAuth.Recovery
import ForgejoMcp.Transactions.Soundness

/-!
# Refinement of the serial model: common rules

The rely–guarantee specification of the serial model, the facts a call keeps while it holds the
lock of a family or only reads, and the rules for the functions that several calls share.
-/

namespace ForgejoMcp.OAuth

open Transactions Rows

variable (d : Deployment)

/-- The serial model of a deployment. -/
def serial : Serial sorts where
  Start := Start
  Uses := Uses d
  Step := Step d
  footprint := footprint d
  ids := ids
  Side := fun h _ m => m.Sound d h
  SideRely := fun _ _ => Memory.Persist
  sideRely_refl := fun _ _ => Memory.Persist.refl
  sideRely_mono := fun _ h => h

variable {d} {t : ℕ} {l : Session sorts} {g : Shared sorts} {held : List (RowLock Key)}

theorem inv_consistent (hi : (serial d).Inv g) : Consistent d g.base g.history :=
  hi.start.consistent_of_valid hi.valid

/-! ### Holding the lock of a family -/

/-- The history continues `h`, and no commit since then has touched the family `f`. -/
abbrev Holds (d : Deployment) (f : Uuid) (base : Db) (h : List (Entry sorts)) :
    Shared sorts → Prop :=
  (serial d).Held (.family f) base h

/-- The exclusive lock of a family. -/
def familyLock (f : Uuid) : RowLock Key := ⟨.family f, true⟩

theorem Holds.same {f : Uuid} {base : Db} {h : List (Entry sorts)} (hh : Holds d f base h g)
    (hi : (serial d).Inv g) : SameFamily f (after base h) g.current :=
  hh.related hi (SameFamily f) (SameFamily.refl f) (fun _ _ _ => SameFamily.trans)
    fun _ _ hv hs hno => hi.start.sameFamily hv hs hno

/-- A state reached while the history grew is later. -/
theorem later_of_continues {base : Db} {h : List (Entry sorts)} (hc : Serial.Continues base h g)
    (hi : (serial d).Inv g) : Later (after base h) g.current := by
  obtain ⟨rfl, ext, hext⟩ := hc
  have hlater := Later.of_valid hi.valid (i := h.length) (j := g.history.length)
    (by rw [← hext, List.length_append]; omega)
  rwa [← hext, List.take_left, List.take_length, hext] at hlater

/-- A locked request stays as it was read. -/
theorem get_request_of_held {k : Uuid} {base : Db} {h : List (Entry sorts)}
    (hh : (serial d).Held (.request k) base h g) (hi : (serial d).Inv g)
    {r : OAuthAuthorizationRequest} (hr : (after base h).authorizationRequests.get k = some r) :
    g.current.authorizationRequests.get k = some r :=
  hh.related hi (fun a b => Table.Stays k a.authorizationRequests b.authorizationRequests)
    (fun _ => .refl _ _) (fun _ _ _ => .trans) (fun _ _ _ hs => hs.request_stays) r hr

/-- A locked code stays as it was read. -/
theorem get_code_of_held {k : Uuid} {base : Db} {h : List (Entry sorts)}
    (hh : (serial d).Held (.code k) base h g) (hi : (serial d).Inv g)
    {r : OAuthAuthorizationCode} (hr : (after base h).authorizationCodes.get k = some r) :
    g.current.authorizationCodes.get k = some r :=
  hh.related hi (fun a b => Table.Stays k a.authorizationCodes b.authorizationCodes)
    (fun _ => .refl _ _) (fun _ _ _ => .trans) (fun _ _ _ hs => hs.code_stays) r hr

/-! ### Programs that end in a postcondition -/

variable {ε α : Type} {R : Except Failure α → Shared sorts → Prop} {A : Shared sorts → Prop}

/-- A postcondition that stays true. -/
def Kept (d : Deployment) (t : ℕ) (R : Except Failure α → Shared sorts → Prop) : Prop :=
  ∀ r, (serial d).spec.Stable t [] (R r)

/-- Thread `t` can run the program, and its result satisfies `R`. -/
abbrev Runs (d : Deployment) (t : ℕ) (R : Except Failure α → Shared sorts → Prop) (p : P α)
    (l : Session sorts) (g : Shared sorts) : Prop :=
  (serial d).spec.Safe t (fun r _ g => R r g) p l g

theorem Kept.stable (hR : Kept d t R) (held : List (RowLock Key)) (r : Except Failure α) :
    (serial d).spec.Stable t held (R r) :=
  (hR r).mono fun _ h => absurd h List.not_mem_nil

theorem Runs.ret {a : α} (hR : Kept d t R) (h : R (.ok a) g) : Runs d t R (.ret a) l g :=
  Spec.Safe.ret (hR.stable _ _) h fun _ _ h => h

theorem Runs.raise {e : Failure} (hR : Kept d t R) (h : R (.error e) g) :
    Runs d t R (.raise e) l g :=
  Spec.Safe.raise (hR.stable _ _) h fun _ _ h => h

/-- The postcondition of a call of which nothing more has to be known. -/
def Done (_ : Except Failure α) (_ : Shared sorts) : Prop := True

theorem Done.kept : Kept d t (Done : Except Failure α → Shared sorts → Prop) :=
  fun _ => Spec.Stable.pure True

theorem Done.raise {e : Failure} : Runs d t Done (.raise e : P α) l g :=
  Runs.raise Done.kept trivial

theorem Done.ret {a : α} : Runs d t Done (.ret a : P α) l g := Runs.ret Done.kept trivial

/-- A session around a program rolls back what is left, and keeps the postcondition. -/
theorem Runs.withSession {p : P α} (hR : Kept d t R) (hi : (serial d).Inv g)
    (h : Runs d t R p l g) : Runs d t R (withSession p) l g := by
  refine Spec.Safe.ensuring hi (Spec.Safe.mono (fun r l g hr => ?_) h)
  have hst := hR.stable l.held r
  cases r with
  | ok a => exact Spec.Safe.rollback hst hr fun _ _ hA => Runs.ret hR hA
  | error e => exact Spec.Safe.rollback hst hr fun _ _ hA => Runs.raise hR hA

/-! ### Commits -/

/-- A commit with a label under which no number is put into the database. -/
theorem commits_of_step {label : Label} (hi : (serial d).Inv g) (hids : ids label = [])
    (hstep : Step d g.base g.history
      ⟨some t, label, l.began.getD g.history.length, l.view g.current⟩)
    (hlocks : ∀ k ∈ footprint d label, ⟨k, true⟩ ∈ l.held) : (serial d).Commits t label l g where
  step := hstep
  exclusive := hlocks
  drawn := fun i hmem => by rw [show (serial d).ids label = [] from hids] at hmem; cases hmem
  side := hi.side.append _

/-! ### Issuing a pair -/

section

variable {β : Type} (hR : Kept d t R) (hst : (serial d).spec.Stable t l.held A) (hA : A g)
  (hE : ∀ e g, (serial d).Inv g → A g → R (.error e) g)

include hR hst hA hE

theorem requireAuthorizableUser_runs {u : Uuid} {k : Unit → P α}
    (h : ∀ n g₁, (serial d).Inv g₁ → A g₁ → Runs d t R (k ()) (l.touch n) g₁) :
    Runs d t R (requireAuthorizableUser u >>= k) l g := by
  simp only [requireAuthorizableUser, Prog.bind_eq, Prog.bind_assoc]
  refine Spec.Safe.query hst hA fun g₁ _ _ hA₁ _ => ?_
  refine Spec.Safe.query hst hA₁ fun g₂ _ hi₂ hA₂ _ => ?_
  exact Spec.Safe.rejectIf (fun _ => Runs.raise hR (hE _ _ hi₂ hA₂)) fun _ => h _ g₂ hi₂ hA₂

end

/-- The numbers of a pair were drawn by the thread and are not in the database. -/
structure Draws (d : Deployment) (t : ℕ) (i : Issue) (g : Shared sorts) : Prop where
  accessSecret : (serial d).Unused t i.accessSecret g
  refreshSecret : (serial d).Unused t i.refreshSecret g
  accessId : (serial d).Unused t i.accessId g
  refreshId : (serial d).Unused t i.refreshId g

theorem Draws.stable (i : Issue) : (serial d).spec.Stable t held (Draws d t i) :=
  (((Serial.Unused.stable _).and (Serial.Unused.stable _)).and
    ((Serial.Unused.stable _).and (Serial.Unused.stable _))).congr
      fun _ => ⟨fun hg => ⟨⟨hg.1, hg.2⟩, hg.3, hg.4⟩, fun hg => ⟨hg.1.1, hg.1.2, hg.2.1, hg.2.2⟩⟩

theorem Draws.drawn {i : Issue} (hd : Draws d t i g) {k : ℕ}
    (hk : k ∈ [i.accessSecret, i.refreshSecret, i.accessId, i.refreshId]) :
    g.drawn[k]? = some (some t) := by
  simp only [List.mem_cons, List.not_mem_nil, or_false] at hk
  rcases hk with rfl | rfl | rfl | rfl
  · exact hd.accessSecret.drawn
  · exact hd.refreshSecret.drawn
  · exact hd.accessId.drawn
  · exact hd.refreshId.drawn

/-- A session whose pending writes do not concern the tools a user may use. -/
def Unread (l : Session sorts) : Prop :=
  ∀ db userId, (l.view db).effectiveToolNames userId = db.effectiveToolNames userId

/-- What `_issue_token_pair` leaves in its session, for a pair whose tools could be used after the
history `h`. -/
structure IssuedIn (d : Deployment) (t : ℕ) (l : Session sorts) (i : Issue) (selected : List String)
    (h : List (Entry sorts)) (l' : Session sorts) (g : Shared sorts) : Prop where
  draws : Draws d t i g
  reading : (t, i.now) ∈ g.readings
  continues : Serial.Continues g.base h g
  subset_selected : i.toolNames ⊆ selected
  effective : i.toolNames ⊆ (after g.base h).effectiveToolNames i.userId
  toolNames : i.toolNames ≠ []
  expiresIn : 0 < i.expiresIn d
  view : ∀ db, ∃ log, l'.view db = ((l.view db).issue d i).withLog log
  held : ∀ x ∈ l.held, x ∈ l'.held
  accessId : ⟨.mcpToken i.accessId, true⟩ ∈ l'.held

theorem fresh_of_unused {i : ℕ} (hu : (serial d).Unused t i g) (hi : (serial d).Inv g) :
    Fresh d g.base g.history i :=
  ⟨hu.not_uses hi, hu.unused⟩

/-- A client that was read is registered. -/
theorem registered_of_sometime {client : OAuthClient}
    (h : Serial.Sometime 0 (fun db : Db => db.oauthClients.get client.id = some client) g) :
    Registered g.base g.history client := by
  obtain ⟨m, -, hm, hget⟩ := h
  exact ⟨m, hm, hget⟩

/-- An issued pair is one of the serial model. -/
theorem IssuedIn.issues {i : Issue} {selected : List String} {h : List (Entry sorts)}
    {l' : Session sorts} {g' : Shared sorts} {e : Entry sorts}
    (hi : IssuedIn d t l i selected h l' g) (hd : Draws d t i g')
    (hc : Serial.Continues g.base h g') (hinv : (serial d).Inv g') (he : e.began ≤ h.length)
    (hreg : Registered g'.base g'.history i.clientRecord) :
    Issues d g'.base g'.history e i selected where
  accessId := fresh_of_unused hd.accessId hinv
  refreshId := fresh_of_unused hd.refreshId hinv
  accessSecret := fresh_of_unused hd.accessSecret hinv
  refreshSecret := fresh_of_unused hd.refreshSecret hinv
  registered := hreg
  subset_selected := hi.subset_selected
  effective := by
    refine ⟨h.length, he, hc.isPrefix.length_le, ?_⟩
    rw [← List.prefix_iff_eq_take.1 hc.isPrefix, hc.base]
    exact hi.effective
  toolNames := hi.toolNames
  expiresIn := hi.expiresIn

theorem issueTokenPair_runs {client : OAuthClient} {userId familyId : Uuid} {scopes : List String}
    {resource : String} {refreshExpiresAt : Time} {selected : List String} {k : Issue → P α} {b : ℕ}
    (hR : Kept d t R) (hst : (serial d).spec.Stable t l.held A) (hA : A g)
    (hE : ∀ e g, (serial d).Inv g → A g → R (.error e) g) (hb : l.began = some b) (hl : Unread l)
    (h : ∀ (i : Issue) h₁ l' g₁, (serial d).Inv g₁ → A g₁ → b ≤ h₁.length →
      l'.began = some b → i.clientRecord = client → i.userId = userId → i.familyId = familyId → i.scopes = scopes →
      i.resource = resource → i.refreshExpiresAt = refreshExpiresAt →
      IssuedIn d t l i selected h₁ l' g₁ → Runs d t R (k i) l' g₁)
    (hlen : ∀ g, A g → b ≤ g.history.length) :
    Runs d t R (issueTokenPair d client userId scopes resource familyId refreshExpiresAt selected >>=
      k) l g := by
  simp only [issueTokenPair, Prog.bind_eq, Prog.bind_assoc]
  refine requireAuthorizableUser_runs hR hst hA hE fun _ g₁ _ hA₁ => ?_
  refine Spec.Safe.query hst hA₁ fun g₂ effective hi₂ hA₂ heff => ?_
  refine Spec.Safe.rejectIf (fun _ => Runs.raise hR (hE _ _ hi₂ hA₂)) fun hne => ?_
  have hst₁ := hst.and (Serial.Continues.stable (M := serial d) (t := t) g₂.base g₂.history)
  refine Spec.Safe.now hst₁ ⟨hA₂, Serial.Continues.refl g₂⟩ fun g₃ hi₃ hA₃ => ?_
  refine Spec.Safe.rejectIf (fun _ => Runs.raise hR (hE _ _ hi₃ hA₃.1)) fun hexp => ?_
  have hstr := hst₁.and (Serial.stable_reading (M := serial d) (t := t) g₃.clock)
  refine Spec.Safe.fresh hstr ⟨hA₃, Serial.mem_readState t g₃⟩ fun g₄ hi₄ hi₄' hA₄ => ?_
  have hst₂ := hstr.and (Serial.Unused.stable (M := serial d) (t := t) g₄.drawn.length)
  refine Spec.Safe.fresh hst₂ ⟨hA₄, .draw hi₄⟩ fun g₅ hi₅ hi₅' hA₅ => ?_
  have hst₃ := hst₂.and (Serial.Unused.stable (M := serial d) (t := t) g₅.drawn.length)
  refine Spec.Safe.rejectIf (fun _ => Runs.raise hR (hE _ _ hi₅' hA₅.1.1.1)) fun _ => ?_
  refine Spec.Safe.fresh hst₃ ⟨hA₅, .draw hi₅⟩ fun g₆ hi₆ hi₆' hA₆ => ?_
  have hst₄ := hst₃.and (Serial.Unused.stable (M := serial d) (t := t) g₆.drawn.length)
  refine Spec.Safe.fresh hst₄ ⟨hA₆, .draw hi₆⟩ fun g₇ hi₇ hi₇' hA₇ => ?_
  have hst₅ := hst₄.and (Serial.Unused.stable (M := serial d) (t := t) g₇.drawn.length)
  refine Rel.insert_safe hst₅ ⟨hA₇, .draw hi₇⟩
    (fun _ g₈ hi₈ hA₈ => Runs.raise hR (hE _ _ hi₈ hA₈.1.1.1.1.1.1)) fun g₈ hi₈ hA₈ _ => ?_
  refine Rel.insert_safe (hst₅.append _) hA₈
    (fun _ g₉ hi₉ hA₉ => Runs.raise hR (hE _ _ hi₉ hA₉.1.1.1.1.1.1)) fun g₉ hi₉ hA₉ _ => ?_
  refine Rel.insert_safe ((hst₅.append _).append _) hA₉
    (fun _ g₁₀ hi₁₀ hA₁₀ => Runs.raise hR (hE _ _ hi₁₀ hA₁₀.1.1.1.1.1.1)) fun g₁₀ hi₁₀ hA₁₀ _ => ?_
  refine Rel.insert_safe (((hst₅.append _).append _).append _) hA₁₀
    (fun _ g₁₁ hi₁₁ hA₁₁ => Runs.raise hR (hE _ _ hi₁₁ hA₁₁.1.1.1.1.1.1)) fun g₁₁ hi₁₁ hA₁₁ _ => ?_
  refine Spec.Safe.query ((((hst₅.append _).append _).append _).append _) hA₁₁
    fun g₁₂ accountId hi₁₂ hA₁₂ _ => ?_
  refine Spec.Safe.exec ((((hst₅.append _).append _).append _).append _) hA₁₂
    fun g₁₃ hi₁₃ hA₁₃ => ?_
  obtain ⟨⟨⟨⟨⟨⟨hA', hcont⟩, hread⟩, hs⟩, hr⟩, ha⟩, hf⟩ := hA₁₃
  refine h _ g₂.history _ g₁₃ hi₁₃ hA' (hlen g₂ hA₂) ?_ rfl rfl rfl rfl rfl rfl ?_
  · exact Session.exec_began _ _ _ (Session.touch_began _ (Session.exec_began _ _ _
      (Session.exec_began _ _ _ (Session.exec_began _ _ _ (Session.exec_began _ _ _
        (Session.touch_began _ (Session.touch_began _ hb)))))))
  refine ⟨⟨hs, hr, ha, hf⟩, hread, ⟨rfl, hcont.isPrefix⟩, List.filter_subset_self _, ?_, hne,
    not_le.1 hexp, fun db => ?_, ?_, ?_⟩
  · intro name hname
    have hmem := of_decide_eq_true (List.mem_filter.1 hname).2
    rw [hcont.base]
    exact hl g₂.current userId ▸ heff ▸ hmem
  · simp only [Session.exec_view, Session.touch_view]
    exact ⟨_, rfl⟩
  · intro x hx
    simp only [Session.exec_held, Session.touch_held, List.mem_append]
    tauto
  · simp [Rel.exclusive, mcpTokens, Issue.accessRecord]

end ForgejoMcp.OAuth
