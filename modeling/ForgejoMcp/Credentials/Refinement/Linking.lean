import ForgejoMcp.Credentials.Refinement.Saving

/-!
# Refinement of the linking of an account

A linking request is started and consumed with the session, the instance and the configuration that
its transaction has read; its code is exchanged by the thread that has consumed it; and a callback
that fails has saved nothing.
-/

namespace ForgejoMcp.Credentials

open Transactions Rows

-- a rule is applied by the form of its program, which is not run
attribute [local irreducible] Spec.Safe

variable {server : Server} {t : ℕ} {l : Session sorts} {g : Shared sorts} {α : Type}
  {held : List (RowLock Key)}

/-! ### Starting -/

/-- What the transaction has read since its first statement, seen from its commit. -/
theorem seen_of_sometime {b : ℕ} {C : Db → Prop} (h : Serial.Sometime b C g)
    (hb : l.began = some b) (label : Label) :
    Seen g.base g.history (committed t label l g) C := by
  obtain ⟨m, hm, hle, hC⟩ := h
  refine ⟨m, ?_, hle, hC⟩
  rwa [committed, hb]

/-- What a transaction that began after `b` commits has read of the settings and the session. -/
structure Settings (server : Server) (b : ℕ) (session : Uuid) (inst : ForgejoInstance)
    (configuration : Forgejo.ForgejoOAuthClientConfiguration) (g : Shared sorts) : Prop where
  linkable : ∃ time, Serial.Sometime b (Db.linkable session time · = true) g
  inst : Serial.Sometime b (fun db : Db => db.forgejoInstances.get () = some inst) g
  configuration : Serial.Sometime b (Db.configured server configuration) g

theorem Settings.stable (b : ℕ) (session : Uuid) (inst : ForgejoInstance)
    (configuration : Forgejo.ForgejoOAuthClientConfiguration) :
    (spec server).Stable t held (Settings server b session inst configuration) := by
  have hst : ∀ C : Db → Prop, (spec server).Stable t held (Serial.Sometime b C) := fun C =>
    Serial.Stable.asking (Serial.Sometime.stable (M := serial server) b C)
  exact ((Spec.Stable.exists fun time => hst _).and ((hst _).and (hst _))).congr fun g =>
    ⟨fun h => ⟨h.linkable, h.inst, h.configuration⟩, fun h => ⟨h.1, h.2.1, h.2.2⟩⟩

/-- A request that has the session and the settings is bound to them. -/
theorem Settings.binds {b : ℕ} {inst : ForgejoInstance}
    {configuration : Forgejo.ForgejoOAuthClientConfiguration} {request : ForgejoOAuthRequest}
    (h : Settings server b request.sessionId inst configuration g) (hb : l.began = some b)
    (hinst : request.instanceId = inst.id ∧ request.baseUrl = inst.baseUrl)
    (hconfig : request.clientId = configuration.clientId ∧
      request.redirectUrl = configuration.redirectUrl ∧
      request.configRevision = configuration.revision) (label : Label) :
    Binds server g.base g.history (committed t label l g) request where
  linkable := by
    obtain ⟨time, htime⟩ := h.linkable
    exact ⟨time, seen_of_sometime htime hb label⟩
  inst := seen_of_sometime (h.inst.mono fun db hdb => ⟨inst, hdb, hinst⟩) hb label
  configuration :=
    seen_of_sometime (h.configuration.mono fun db hdb => ⟨configuration, hdb, hconfig⟩) hb label

section

variable {R : Except Raised α → Shared sorts → Prop} {A : Shared sorts → Prop}
  (hR : Kept server t R) (hst : (spec server).Stable t l.held A) (hA : A g)
  (hE : ∀ e g, (serial server).Inv g → A g → R (.error e) g)

include hR hst hA hE

/-- The session and the settings of a link are read in one transaction. -/
theorem settings_runs (hl : Clean l) {b : ℕ} (hb : ∀ g, A g → b ≤ g.history.length)
    {current : CurrentSession}
    {k : ForgejoInstance × Forgejo.ForgejoOAuthClientConfiguration → P α}
    (h : ∀ l' g₁ inst configuration, Reads l l' → (serial server).Inv g₁ → A g₁ →
      Settings server b current.session.id inst configuration g₁ →
      Runs server t R (k (inst, configuration)) l' g₁) :
    Runs server t R (requireSession current >>= fun _ => configuration server false >>= k) l g := by
  refine requireSession_runs hR hst hA hE hl hb fun g₁ time hi₁ hA₁ hlink => ?_
  have hst₁ := hst.and (Serial.Stable.asking (W := requests server) (Serial.Sometime.stable
    (M := serial server) (t := t) b (Db.linkable current.session.id time · = true)))
  refine configuration_runs (l := l.touch _) hR hst₁ ⟨hA₁, hlink⟩ (fun e g hi hA => hE e g hi hA.1)
    hl (fun g hA => hb g hA.1) fun l' g₂ inst configuration hl' hi₂ hA₂ hinst hconfig => ?_
  exact h l' g₂ inst configuration (((Reads.refl l).touch _).trans hl') hi₂ hA₂.1
    ⟨⟨time, hA₂.2⟩, hinst, hconfig⟩

end

/-- A request with the settings that were read is added. -/
theorem addRequest_runs {request : ForgejoOAuthRequest} {deleted : List Uuid}
    {p : ForgejoOAuthRequest → Bool} {b : ℕ} {inst : ForgejoInstance}
    {configuration : Forgejo.ForgejoOAuthClientConfiguration}
    (hview : ∀ db, l.view db = forgejoOauthRequests.deletedWhere deleted p db)
    (hlocked : ∀ id ∈ deleted, forgejoOauthRequests.exclusive id ∈ l.held)
    (hb : l.began = some b)
    (hA : (NoToken t g ∧ Settings server b request.sessionId inst configuration g) ∧
      (serial server).Unused t request.id g)
    (hinst : request.instanceId = inst.id ∧ request.baseUrl = inst.baseUrl)
    (hconfig : request.clientId = configuration.clientId ∧
      request.redirectUrl = configuration.redirectUrl ∧
      request.configRevision = configuration.revision)
    (hopen : request.consumedAt = none) (hexpires : ∃ created, request.expiresAt = created + seconds 600)
    {k : Unit → P α}
    (h : ∀ g, (serial server).Inv g → NoToken t g → Runs server t (Plain t) (k ()) {} g) :
    Runs server t (Plain t) (addRequest request deleted >>= k) l g := by
  have hst := ((NoToken.stable : (spec server).Stable t l.held (NoToken t)).and
    (Settings.stable b request.sessionId inst configuration)).and (Serial.Stable.asking
      (Serial.Unused.stable (M := serial server) request.id))
  simp only [addRequest, Prog.bind_eq, Prog.bind_assoc]
  refine Spec.Safe.exec hst hA fun g₁ hi₁ hA₁ => ?_
  refine Spec.Safe.rejectIf (fun _ => Plain.raises hA₁.1.1) fun _ => ?_
  refine Serial.asking_commit (hst.append _) hA₁ fun g₂ hi₂ hA₂ =>
    ⟨⟨?_, fun x hx => ?_, fun i hmem => ?_, hi₂.side.commit rfl⟩, fun hi' => h _ hi' hA₂.1.1⟩
  · obtain ⟨created, hexpires⟩ := hexpires
    refine ⟨p, created, ?_, hA₂.2.unused, hopen, hexpires, ?_⟩
    · refine (Session.exec_view _ _ _ _ _).trans ?_
      show forgejoOauthRequests.inserted [request] (l.view g₂.current) = _
      rw [hview]
      rfl
    · exact hA₂.1.2.binds (Session.exec_began _ _ _ hb) hinst hconfig _
  · rcases List.mem_cons.1 hx with rfl | hx
    · exact List.mem_append_left _ (List.mem_singleton_self _)
    · obtain ⟨c, hc, rfl⟩ := List.mem_map.1 hx
      exact List.mem_append_right _ (hlocked c hc)
  · rw [List.mem_singleton.1 hmem]
    exact hA₂.2.drawn

theorem start_runs (hl : Clean l) {b : ℕ} (hb : l.began = some b)
    (hA : NoToken t g ∧ b ≤ g.history.length) {current : CurrentSession} {userId : Uuid}
    {k : Authorization → P α}
    (h : ∀ a g, (serial server).Inv g → NoToken t g → Runs server t (Plain t) (k a) {} g) :
    Runs server t (Plain t) (start server current userId >>= k) l g := by
  have hst := (NoToken.stable : (spec server).Stable t l.held (NoToken t)).and
    (Serial.Stable.asking (Serial.stable_length (M := serial server) b))
  simp only [start, Prog.bind_eq, Prog.bind_assoc]
  refine settings_runs Plain.kept hst hA (fun _ _ _ h => h.1) hl (fun _ h => h.2)
    fun l₁ g₁ inst configuration hl₁ hi₁ hA₁ hset => ?_
  have hst₁ := (hl₁.stable hst).and (Settings.stable (t := t) b
    current.session.id inst configuration)
  refine Spec.Safe.fresh hst₁ ⟨hA₁, hset⟩ fun g₂ _ _ hA₂ => ?_
  refine Spec.Safe.fresh hst₁ hA₂ fun g₃ _ _ hA₃ => ?_
  refine Spec.Safe.fresh hst₁ hA₃ fun g₄ _ _ hA₄ => ?_
  refine fallible_runs (fun _ _ => Plain.raises hA₄.1.1) fun c _ => ?_
  refine encrypt_runs hst₁ hA₄ fun g₅ n hi₅ hA₅ => ?_
  refine Spec.Safe.now hst₁ hA₅ fun g₆ hi₆ hA₆ => ?_
  refine Rel.deleteReturning_safe hst₁ hA₆ fun n' g₇ deleted _ hi₇ hA₇ => ?_
  have hst₂ := hst₁.append (deleted.map forgejoOauthRequests.exclusive)
  refine Spec.Safe.now hst₂ hA₇ fun g₈ hi₈ hA₈ => ?_
  refine Spec.Safe.fresh hst₂ hA₈ fun g₉ hi₉ hi₉' hA₉ => ?_
  refine addRequest_runs (b := b) (p := fun r => decide (r.sessionId = current.session.id ∨
    r.expiresAt ≤ g₆.clock)) (fun db => ?_) (fun id hid => ?_) ?_ ⟨⟨hA₉.1.1, hA₉.2⟩, .draw hi₉⟩
    ⟨rfl, rfl⟩ ⟨rfl, rfl, rfl⟩ rfl ⟨g₈.clock, rfl⟩ fun g hi hA => h _ g hi hA
  · rw [Session.exec_view, Session.touch_view, hl₁.clean hl]
    rfl
  · exact List.mem_append_left _ (List.mem_map_of_mem hid)
  · exact Session.exec_began _ _ _ (Session.touch_began _ (hl₁.began b hb))

/-! ### The callback -/

/-- The thread has sent no refresh. -/
def NoRefresh (t : ℕ) (g : Shared sorts) : Prop :=
  ∀ q answer, (t, q, answer) ∈ g.asks → q.isToken = true → ∀ c, q.purpose ≠ .refreshes c

/-- The thread has changed no credential. -/
def Unsaved (t : ℕ) (g : Shared sorts) : Prop :=
  ∀ e ∈ g.history, e.tid = some t → e.label.keepsCredentials = true

theorem NoRefresh.stable : (spec server).Stable t held (NoRefresh t) :=
  Serial.stable_ownAsks (S := sorts) fun q _ => Query.isToken q = true → ∀ c, q.purpose ≠ .refreshes c

theorem Unsaved.stable : (spec server).Stable t held (Unsaved t) :=
  Serial.Stable.asking (Serial.stable_own (M := serial server) fun e =>
    e.label.keepsCredentials = true)

theorem NoToken.noRefresh (h : NoToken t g) : NoRefresh t g := by
  intro q answer hq htoken
  rw [h q answer hq] at htoken
  cases htoken

theorem NoRefresh.ask {q : Query} (h : NoRefresh t g)
    (hq : q.isToken = true → ∀ c, q.purpose ≠ .refreshes c) (answer : Answer) :
    NoRefresh t (Spec.askState t q answer g) := by
  intro q' answer' hmem
  rcases List.mem_append.1 hmem with hmem | hmem
  · exact h q' answer' hmem
  · cases List.mem_singleton.1 hmem
    exact hq

theorem Unsaved.commit (h : Unsaved t g) {label : Label} (hlabel : label.keepsCredentials = true)
    (l : Session sorts) : Unsaved t (Spec.commitState t label l g) := by
  intro e he ht
  rcases List.mem_append.1 he with he | he
  · exact h e he ht
  · rw [List.mem_singleton.1 he]
    exact hlabel

/-- The postcondition of a callback: it has refreshed nothing, and if it fails it has saved
nothing. -/
def Linked (t : ℕ) (r : Except Raised Outcome) (g : Shared sorts) : Prop :=
  NoRefresh t g ∧ (r ≠ .ok .connected → Unsaved t g)

theorem Linked.kept : Kept server t (Linked t) :=
  fun _ => NoRefresh.stable.and (Spec.Stable.imp Unsaved.stable)

theorem Linked.raises {e : Raised} (h : NoRefresh t g ∧ Unsaved t g) :
    Runs server t (Linked t) (.raise e) l g :=
  Runs.raise Linked.kept ⟨h.1, fun _ => h.2⟩

theorem Consumed.stable (flow : ForgejoOAuthRequest) :
    (spec server).Stable t held (Consumed t flow) where
  interferes := by
    rintro a b hab ⟨e, he, ht, time, hl, hread⟩
    obtain ⟨ext, hext, -⟩ := hab.base.history
    obtain ⟨reads, hreads, -⟩ := hab.base.readings
    exact ⟨e, hext ▸ List.mem_append_left _ he, ht, time, hl, hreads ▸ List.mem_append_left _ hread⟩
  quiet := by
    rintro a b hab - ⟨e, he, ht, time, hl, hread⟩
    obtain ⟨reads, hreads⟩ := hab.readings
    exact ⟨e, hab.history ▸ he, ht, time, hl, hreads ▸ List.mem_append_left _ hread⟩

/-- The request is read under its lock, compared, and consumed. -/
theorem consume_runs (hl : Clean l) {b : ℕ} (hb : l.began = some b) {current : CurrentSession}
    {userId : Uuid} {state : String} {inst : ForgejoInstance}
    {configuration : Forgejo.ForgejoOAuthClientConfiguration} {B : Shared sorts → Prop}
    (hB : ∀ held, (spec server).Stable t held B)
    (hA : (NoToken t g ∧ Unsaved t g) ∧ Settings server b current.session.id inst configuration g ∧
      B g) (hBcommit : ∀ g label l, B g → B (Spec.commitState t label l g))
    {k : ForgejoOAuthRequest × String → P Outcome}
    (h : ∀ g₁ flow verifier, (serial server).Inv g₁ → NoToken t g₁ → Unsaved t g₁ → B g₁ →
      Consumed t flow g₁ → flow.sessionId = current.session.id → flow.baseUrl = inst.baseUrl →
      flow.clientId = configuration.clientId → flow.redirectUrl = configuration.redirectUrl →
      flow.configRevision = configuration.revision →
      Runs server t (Linked t) (k (flow, verifier)) {} g₁) :
    Runs server t (Linked t) (consume server current userId state inst configuration >>= k) l g := by
  have hst := ((NoToken.stable : (spec server).Stable t l.held (NoToken t)).and Unsaved.stable).and
    ((Settings.stable b current.session.id inst configuration).and (hB l.held))
  simp only [consume, Prog.bind_eq, Prog.bind_assoc]
  refine Rel.selectForUpdate_safe hst hA (fun g₁ hi₁ hA₁ _ => ?_) fun g₀ g₁ row _ _ _ hi₁ hA₁ => ?_
  · refine Spec.Safe.now (l := l.touch _) hst hA₁ fun g₂ hi₂ hA₂ => ?_
    exact Spec.Safe.require (fun _ => Linked.raises (hA₂.1.imp_left NoToken.noRefresh)) fun _ hc => by cases hc
  · have hlock : (⟨.request row.id, true⟩ : RowLock Key) ∈
        [forgejoOauthRequests.exclusive row.id] ++ l.held :=
      List.mem_append_left _ (List.mem_singleton_self _)
    have hst₁ := (hst.append _).and (Serial.Stable.asking (W := requests server)
      (Serial.Held.stable (M := serial server) hlock g₁.base g₁.history))
    refine Spec.Safe.now hst₁ ⟨hA₁, .refl _ _⟩ fun g₂ hi₂ hA₂ => ?_
    refine Spec.Safe.require (fun _ => Linked.raises (hA₂.1.1.imp_left NoToken.noRefresh))
      fun flow hflow => ?_
    obtain ⟨hfound, hbound⟩ := Option.filter_eq_some_iff.1 hflow
    obtain ⟨hget, -⟩ := Option.filter_eq_some_iff.1 hfound
    rw [hl] at hget
    have hid : flow.id = row.id := Table.key_of_get hget
    obtain ⟨hsession, hopen, hexpires, hinst, hurl, hclient, hredirect, hrevision⟩ :=
      of_decide_eq_true hbound
    refine fallible_runs (fun _ _ => Linked.raises (hA₂.1.1.imp_left NoToken.noRefresh)) fun c _ => ?_
    refine decrypt_runs (fun _ => Linked.raises (hA₂.1.1.imp_left NoToken.noRefresh))
      fun verifier _ => ?_
    have hst₂ := hst₁.and (Serial.Stable.asking (W := requests server)
      (Serial.stable_reading (M := serial server) (t := t) g₂.clock))
    refine Spec.Safe.now hst₂ ⟨hA₂, List.mem_append_right _ (List.mem_singleton_self _)⟩
      fun g₃ hi₃ hA₃ => ?_
    refine Rel.updateKey_safe hst₂ hA₃ fun g₄ hi₄ hA₄ => ?_
    refine Serial.asking_commit (hst₂.append _) hA₄ fun g₅ hi₅ ⟨hA₅, hread⟩ =>
      ⟨commits_of_step hi₅ rfl rfl ⟨g₃.clock, ?_, ?_, hopen, hexpires, ?_⟩ fun x hx => ?_,
        fun hi' => ?_⟩
    · refine (Session.exec_view _ _ _ _ _).trans ?_
      exact congrArg (forgejoOauthRequests.updatedKey flow.id (ForgejoOAuthRequest.consume g₃.clock))
        ((Session.exec_view _ _ _ _ _).trans (hl _))
    · have hstays := hA₅.2.related hi₅ (fun a b => Table.Stays row.id a.forgejoOauthRequests
        b.forgejoOauthRequests) (fun _ => .refl _ _) (fun _ _ _ => .trans)
        fun _ _ _ hs hno => hs.request_stays hno
      rw [hid]
      exact hstays flow hget
    · refine Settings.binds ?_
        (Session.exec_began _ _ _ (Session.exec_began _ _ _ (Session.touch_began _ hb)))
        ⟨hinst, hurl⟩ ⟨hclient, hredirect, hrevision⟩ _
      rw [hsession]
      exact hA₅.1.2.1
    · rw [List.mem_singleton.1 hx]
      exact List.mem_append_left _ (List.mem_singleton_self _)
    · refine h _ flow verifier hi' hA₅.1.1.1 (hA₅.1.1.2.commit rfl _) (hBcommit _ _ _ hA₅.1.2.2)
        ⟨_, List.mem_append_right _ (List.mem_singleton_self _), rfl, _, rfl, hread⟩ hsession hurl
        hclient hredirect hrevision

theorem tokenOutcome_eq_ok {answer : Answer} {pair : ForgejoOAuthTokens}
    (h : tokenOutcome answer = .ok pair) : answer.pair? = some pair := by
  cases answer <;> simp only [tokenOutcome] at h
  case tokens response =>
    rw [Answer.pair?]
    split at h
    · next hpair => rw [hpair, Except.ok.inj h]
    · cases h
  case status code => split at h <;> cases h
  all_goals cases h

/-- The facts of a callback whose code was exchanged survive the verification of the token. -/
theorem Granted.survives {oauth : OAuthSave} {userId : Uuid} {loaded : Option (Loaded User)} :
    Survives server t (Linked t) fun g => (NoRefresh t g ∧ Unsaved t g) ∧ Granted t oauth g ∧
      LoadedBy userId loaded g where
  raises := fun _ _ _ h => ⟨h.1.1, fun _ => h.1.2⟩
  ask := fun g q answer hq h => by
    refine ⟨⟨h.1.1.ask (fun htoken => ?_) answer, h.1.2⟩, h.2.1.ask q answer, h.2.2.ask q answer⟩
    rw [hq] at htoken
    cases htoken
  failed := fun _ _ l _ h => ⟨h.1.1, fun _ => h.1.2.commit rfl l⟩

/-- The code is exchanged for the request that was consumed, and the pair is saved. -/
theorem complete_runs (hl : Clean l) {b : ℕ} (hb : l.began = some b) {current : CurrentSession}
    {state code : String} {denied : Bool} (hA : ((NoToken t g ∧ Unsaved t g) ∧
      b ≤ g.history.length) ∧ ∀ userId, current.account.userId = some userId →
        LoadedBy userId current.user g) {k : Unit → P Outcome}
    (h : ∀ g, (serial server).Inv g → NoRefresh t g → Runs server t (Linked t) (k ()) {} g) :
    Runs server t (Linked t) (complete server current state code denied >>= k) l g := by
  have hraise : ∀ {e : Raised} {l g}, NoToken t g ∧ Unsaved t g →
      Runs server t (Linked t) (.raise e) l g :=
    fun hA => Linked.raises (hA.imp_left NoToken.noRefresh)
  have hst := (((NoToken.stable : (spec server).Stable t l.held (NoToken t)).and
    Unsaved.stable).and (Serial.Stable.asking (Serial.stable_length (M := serial server) b))).and
      (Spec.Stable.forall fun userId : Uuid => Spec.Stable.imp
        (p := current.account.userId = some userId) (LoadedBy.stable userId current.user))
  simp only [complete, exchange, Prog.bind_eq, Prog.bind_assoc]
  refine Spec.Safe.rejectIf (fun _ => hraise hA.1.1) fun _ => ?_
  refine settings_runs Linked.kept hst hA
    (fun _ _ _ h => ⟨h.1.1.1.noRefresh, fun _ => h.1.1.2⟩) hl (fun _ h => h.1.2)
    fun l₁ g₁ inst configuration hl₁ hi₁ hA₁ hset => ?_
  refine Spec.Safe.require (fun _ => hraise hA₁.1.1) fun userId huser => ?_
  refine consume_runs (B := LoadedBy userId current.user) (hl₁.clean hl) (hl₁.began b hb)
    (fun _ => LoadedBy.stable userId current.user) ⟨hA₁.1.1, hset, hA₁.2 userId huser⟩
    (fun g label l hB x hx => (hB x hx).grow rfl ⟨_, rfl⟩)
    fun g₂ flow verifier hi₂ htoken hunsaved hloaded hconsumed hsession hurl hclient hredirect
      hrevision => ?_
  refine Spec.Safe.rejectIf (fun _ => hraise ⟨htoken, hunsaved⟩) fun _ => ?_
  refine Spec.Safe.rejectIf (fun _ => hraise ⟨htoken, hunsaved⟩) fun _ => ?_
  refine Spec.Safe.rejectIf (fun _ => hraise ⟨htoken, hunsaved⟩) fun _ => ?_
  refine Spec.Safe.rejectIf (fun _ => hraise ⟨htoken, hunsaved⟩) fun _ => ?_
  refine Spec.Safe.rejectIf (fun _ => hraise ⟨htoken, hunsaved⟩) fun _ => ?_
  have hexchanged : flow.ExchangedBy ⟨inst.baseUrl, inst.verifyTls, .token (.authorizationCode code
      configuration.redirectUrl verifier) configuration, .links flow.id current.session.id⟩ :=
    ⟨hurl.symm, code, verifier, configuration, by rw [hredirect], hclient.symm, hredirect.symm,
      hrevision.symm⟩
  have hst₂ := ((NoToken.stable : (spec server).Stable t [] (NoToken t)).and Unsaved.stable).and
    ((LoadedBy.stable userId current.user).and (Consumed.stable flow))
  refine Serial.asking_ask (l := {}) hst₂ ⟨⟨htoken, hunsaved⟩, hloaded, hconsumed⟩
    fun g₃ hi₃ hA₃ => ⟨⟨fun _ hc => (by cases hc), fun r s hc => ?_⟩,
      fun _ hx => absurd hx List.not_mem_nil, fun answer => ⟨?_, fun hi₄ => ?_⟩⟩
  · cases hc
    exact ⟨flow, rfl, hsession, hexchanged, hA₃.2.2⟩
  · refine hi₃.side.ask ⟨_, _, _, _, rfl⟩ (fun _ q hq htid => ?_) (fun r s hc => ?_)
      fun _ hc => by cases hc
    · exact hA₃.1.1.isToken hq htid
    · obtain ⟨e, he, htid, time, hlabel, -⟩ := hA₃.2.2
      cases hc
      exact ⟨e, he, htid, flow, time, hlabel, rfl, hsession, hexchanged⟩
  · have hnorefresh := hA₃.1.1.noRefresh.ask
      (q := ⟨inst.baseUrl, inst.verifyTls, .token (.authorizationCode code configuration.redirectUrl
        verifier) configuration, .links flow.id current.session.id⟩) (fun _ _ hc => by cases hc)
      answer
    refine fallible_runs (fun _ _ => Linked.raises ⟨hnorefresh, hA₃.1.2⟩) fun tokens htokens => ?_
    have hgranted : Granted t ⟨tokens, configuration, inst.baseUrl⟩ (Spec.askState t
        (S := sorts) ⟨inst.baseUrl, inst.verifyTls, .token (.authorizationCode code
          configuration.redirectUrl verifier) configuration, .links flow.id current.session.id⟩
        answer g₃) := by
      refine ⟨⟨g₃.asks.length, _, answer, List.getElem?_concat_length, tokenOutcome_eq_ok htokens, rfl,
        ⟨_, _, rfl⟩, _, _, _, rfl⟩, fun e he ht => ?_⟩
      exact hi₃.side.pair?_eq_none (fun q hq htid => hA₃.1.1.isToken hq htid) e he ht
    -- the second transaction, in a new session
    have hstable : ∀ {held loaded}, (spec server).Stable t held fun g => (NoRefresh t g ∧ Unsaved t g) ∧
        Granted t ⟨tokens, configuration, inst.baseUrl⟩ g ∧ LoadedBy userId loaded g :=
      (NoRefresh.stable.and Unsaved.stable).and ((Granted.stable _).and (LoadedBy.stable _ _))
    refine requireSession_runs Linked.kept hstable
      ⟨⟨hnorefresh, hA₃.1.2⟩, hgranted, hA₃.2.1.ask _ _⟩ Granted.survives.raises Clean.empty
      (b := 0) (fun _ _ => Nat.zero_le _) fun g₄ _ hi₄ hA₄ _ => ?_
    refine getUser_runs (l := Session.touch {} _) Linked.kept hstable hA₄ Granted.survives.raises
      (fun _ => rfl) (fun _ h => h.2.2) fun g₅ _ hi₅ hA₅ _ => ?_
    refine refreshUser_runs (l := (Session.touch {} _).touch _) Linked.kept hstable hA₅
      Granted.survives.raises (fun _ => rfl) fun g₆ user hi₆ hA₆ huser => ?_
    refine saveOauth_runs (l := ((Session.touch {} _).touch _).touch _) Linked.kept hstable
      ⟨hA₆.1, hA₆.2.1, fun x hx => (Option.some.inj hx) ▸ huser⟩ Granted.survives hi₆ (fun _ => rfl)
      (fun _ h => h.2.2) (fun _ h => h.2.1) fun l g row replaced readAt hA hi => ?_
    exact h _ hi hA.1.1

/-- The session that a callback finds, in the transaction that the callback goes on with. -/
theorem callbackSession_runs (hA : NoToken t g ∧ Unsaved t g) {state : String}
    {browserToken : Option String} {k : CurrentSession → P Outcome}
    (h : ∀ l' g₁ b current, Clean l' → l'.began = some b →
      (((NoToken t g₁ ∧ Unsaved t g₁) ∧ b ≤ g₁.history.length) ∧ ∀ userId,
        current.account.userId = some userId → LoadedBy userId current.user g₁) →
      Runs server t (Linked t) (k current) l' g₁) :
    Runs server t (Linked t) (callbackSession server state browserToken >>= k) {} g := by
  have hraise : ∀ {e : Raised} {l g}, NoToken t g ∧ Unsaved t g →
      Runs server t (Linked t) (.raise e) l g :=
    fun hA => Linked.raises (hA.imp_left NoToken.noRefresh)
  have hst : (spec server).Stable t [] fun g => NoToken t g ∧ Unsaved t g :=
    NoToken.stable.and Unsaved.stable
  simp only [callbackSession, Prog.bind_eq, Prog.bind_assoc]
  refine Spec.Safe.require (fun _ => hraise hA) fun browserToken _ => ?_
  refine Spec.Safe.rejectIf (fun _ => hraise hA) fun _ => ?_
  refine Spec.Safe.now hst hA fun g₁ hi₁ hA₁ => ?_
  refine Rel.select_safe hst hA₁ fun g₂ found hi₂ hA₂ _ => ?_
  refine Spec.Safe.require (fun _ => hraise hA₂) fun flow _ => ?_
  have hst₁ := hst.and (Serial.Stable.asking (W := requests server)
    (Serial.stable_length (M := serial server) (t := t) g₂.history.length))
  refine Rel.find_safe (l := Session.touch {} _) hst₁ ⟨hA₂, Nat.le_refl _⟩
    fun g₃ found hi₃ hA₃ _ => ?_
  refine Spec.Safe.require (fun _ => hraise hA₃.1) fun session _ => ?_
  refine loadSession_runs (l := (Session.touch {} _).touch _) Linked.kept hst₁ hA₃
    (fun _ _ _ h => ⟨h.1.1.noRefresh, fun _ => h.1.2⟩) (fun _ => rfl)
    fun l₁ g₄ current hl₁ hi₄ hA₄ _ hloaded => ?_
  have hst₂ := (hst₁.mono hl₁.held).and (Spec.Stable.forall fun userId : Uuid => Spec.Stable.imp
    (p := current.account.userId = some userId) (LoadedBy.stable userId current.user))
  have hl₁' : Clean l₁ := hl₁.clean fun _ => rfl
  refine requireSession_runs (b := 0) Linked.kept hst₂
    ⟨hA₄, fun userId huser x hx => hloaded userId x huser hx⟩
    (fun _ _ _ h => ⟨h.1.1.1.noRefresh, fun _ => h.1.1.2⟩) hl₁' (fun _ _ => Nat.zero_le _)
    fun g₅ _ hi₅ hA₅ _ => ?_
  exact h (l₁.touch _) g₅ g₂.history.length current hl₁'
    (Session.touch_began _ (hl₁.began _ rfl)) hA₅

/-- A callback that fails has saved nothing. -/
theorem completeForgejoOauth_runs (hi : (serial server).Inv g) (hA : NoToken t g ∧ Unsaved t g)
    {state code : String} {error browserToken dashboard : Option String} :
    Runs server t (Linked t) (completeForgejoOauth server state code error browserToken dashboard)
      {} g := by
  refine Spec.Safe.handle hi (Spec.Safe.mono (Q := fun r _ g => Linked t r g) (fun r l g hr => ?_) ?_)
  · cases r with
    | ok outcome => exact Runs.ret Linked.kept hr
    | error e =>
      have hfailed := hr.2 (fun hc => by cases hc)
      have hrollback : Runs server t (Linked t) (rollback >>= fun _ => .ret .failed : P Outcome) l g :=
        Spec.Safe.rollback (NoRefresh.stable.and Unsaved.stable) ⟨hr.1, hfailed⟩
          fun _ _ hA => Runs.ret Linked.kept ⟨hA.1, fun _ => hA.2⟩
      cases e with
      | application failure => exact hrollback
      | httpException status detail => exact hrollback
      | _ => exact Linked.raises ⟨hr.1, hfailed⟩
  · refine callbackSession_runs hA fun l₁ g₁ b current hl₁ hb hA₁ => ?_
    refine Spec.Safe.rejectIf (fun _ => Linked.raises (hA₁.1.1.imp_left NoToken.noRefresh)) fun _ => ?_
    refine complete_runs hl₁ hb hA₁ fun g hi hA => ?_
    exact Runs.ret Linked.kept ⟨hA, fun hc => absurd rfl hc⟩

end ForgejoMcp.Credentials
