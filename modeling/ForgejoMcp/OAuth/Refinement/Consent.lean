import ForgejoMcp.OAuth.Consents
import ForgejoMcp.OAuth.Refinement.Rules

/-!
# Refinement: consents and code exchanges

A consent locks its authorization request, and a code exchange its code, until the transaction ends.
-/

namespace ForgejoMcp.OAuth

open Transactions Rows

variable {d : Deployment} {t : ℕ} {l : Session sorts} {g : Shared sorts}

/-! ### Consents -/

/-- The result of a consent by thread `t`, started after `n` commits: its only commit resolved a
pending request with the presented interaction, or it committed nothing. -/
def Answered (d : Deployment) (interaction : String) (approve : Bool) (grantTtlDays : Option ℕ)
    (toolNames : List String) (t n : ℕ) : Except Failure Redirect → Shared sorts → Prop
  | .ok redirect, g => ∃ base h e request now, Serial.Committed t n base h e g ∧
      (t, now) ∈ g.readings ∧
      Serial.Sometime n (fun db : Db => db.presented (d.hashToken interaction) = some request.id) g ∧
      (after base h).authorizationRequests.get request.id = some request ∧
      request.resolvedAt = none ∧ now < request.expiresAt ∧
      if approve then ∃ code secret log,
        e.db = (((after base h).resolveRequest request.id now).addCode code).withLog log ∧
        e.label = .approved request.id code.id secret toolNames ∧
        code.refreshExpiresAt =
          some (now + days (grantTtlDays.getD d.oauthRefreshTokenTtlDays)) ∧
        redirect.code = some (d.newOauthCode secret)
      else e.label = .denied request.id ∧ redirect.code = none
  | .error _, g => Serial.Idle t n g

variable {n : ℕ} {interaction : String} {accountId : Uuid} {approve : Bool}
  {grantTtlDays : Option ℕ} {toolNames : List String}

theorem Answered.kept : Kept d t (Answered d interaction approve grantTtlDays toolNames t n) := by
  intro r
  cases r with
  | ok redirect =>
    refine .exists fun base => .exists fun h => .exists fun e => .exists fun request =>
      .exists fun now => ?_
    exact (Serial.Committed.stable n base h e).and
      ((Serial.stable_reading now).and ((Serial.Sometime.stable n _).and (.pure _)))
  | error e => exact Serial.Idle.stable n

variable {α : Type} {A : Shared sorts → Prop} {R : Except Failure α → Shared sorts → Prop}

theorem validateGrantTtlDays_runs {value : Option ℕ} {k : ℕ → P α}
    (hE : ∀ e, Runs d t R (.raise e) l g)
    (h : value.getD d.oauthRefreshTokenTtlDays ∈ d.oauthGrantTtlOptionsDays →
      Runs d t R (k (value.getD d.oauthRefreshTokenTtlDays)) l g) :
    Runs d t R (validateGrantTtlDays d value >>= k) l g := by
  simp only [validateGrantTtlDays, Prog.bind_eq, Prog.bind_assoc]
  exact Spec.Safe.rejectIf (fun _ => hE _) fun hmem => h (not_not.1 hmem)

theorem requireConsentReady_runs {u : Uuid} {k : Unit → P α} (hR : Kept d t R)
    (hst : (serial d).spec.Stable t l.held A) (hA : A g) (hE : ∀ e g, A g → R (.error e) g)
    (h : ∀ n g₁, (serial d).Inv g₁ → A g₁ → Runs d t R (k ()) (l.touch n) g₁) :
    Runs d t R (requireConsentReady u >>= k) l g := by
  simp only [requireConsentReady, Prog.bind_eq, Prog.bind_assoc]
  refine Spec.Safe.query hst hA fun g₁ _ _ hA₁ _ => ?_
  refine Spec.Safe.rejectIf (fun _ => Runs.raise hR (hE _ _ hA₁)) fun _ => ?_
  refine Spec.Safe.query hst hA₁ fun g₂ _ _ hA₂ _ => ?_
  refine Spec.Safe.rejectIf (fun _ => Runs.raise hR (hE _ _ hA₂)) fun _ => ?_
  refine Spec.Safe.query hst hA₂ fun g₃ _ hi₃ hA₃ _ => ?_
  refine Spec.Safe.rejectIf (fun _ => Runs.raise hR (hE _ _ hA₃)) fun _ => ?_
  exact h _ g₃ hi₃ hA₃

/-- What a consent knows once it has locked the request `r`, found for the interaction: it has
committed nothing, the request has not changed since, and it read the time `now`. -/
structure Answering (d : Deployment) (interaction : String) (t n b : ℕ) (r : Uuid) (base : Db)
    (h : List (Entry sorts)) (now : Time) (g : Shared sorts) : Prop where
  idle : Serial.Idle t n g
  holds : (serial d).Held (.request r) base h g
  began : b ≤ g.history.length
  reading : (t, now) ∈ g.readings
  presented : Serial.Sometime n (fun db : Db => db.presented (d.hashToken interaction) = some r) g

theorem Answering.stable {b : ℕ} {r : Uuid} {base : Db} {h : List (Entry sorts)} {now : Time}
    {held : List (RowLock Key)} (hk : ⟨.request r, true⟩ ∈ held) :
    (serial d).spec.Stable t held (Answering d interaction t n b r base h now) :=
  (((Serial.Idle.stable n).and (Serial.Held.stable hk base h)).and ((Serial.stable_length b).and
    ((Serial.stable_reading now).and (Serial.Sometime.stable n _)))).congr
      fun _ => ⟨fun hg => ⟨⟨hg.1, hg.2⟩, hg.3, hg.4, hg.5⟩,
        fun hg => ⟨hg.1.1, hg.1.2, hg.2.1, hg.2.2.1, hg.2.2.2⟩⟩

theorem resolveConsent_runs (hidle : Serial.Idle t n g) :
    Runs d t (Answered d interaction approve grantTtlDays toolNames t n)
      (resolveConsent d interaction accountId approve grantTtlDays toolNames) {} g := by
  have kept : Kept d t (Answered d interaction approve grantTtlDays toolNames t n) := Answered.kept
  have failed : ∀ {l : Session sorts} {g : Shared sorts} {e : Failure}, Serial.Idle t n g →
      Runs d t (Answered d interaction approve grantTtlDays toolNames t n) (.raise e) l g :=
    fun hg => Runs.raise kept hg
  unfold resolveConsent
  refine Spec.Safe.rejectIf (fun _ => failed hidle) fun _ => ?_
  refine Spec.Safe.now (Serial.Idle.stable n) hidle fun g₀ hi₀ hA₀ => ?_
  refine Runs.withSession kept hi₀ ?_
  refine Rel.selectForUpdate_safe
    ((Serial.Idle.stable n).and (Serial.stable_reading (M := serial d) (t := t) g₀.clock))
    ⟨hA₀, Serial.mem_readState t g₀⟩ (fun g₁ hi₁ hA₁ _ => failed hA₁.1)
    fun g' g₁ row hA' hcont hrow hi₁ hA₁ => ?_
  refine Spec.Safe.require (fun _ => failed hA₁.1) fun record hrecord => ?_
  obtain ⟨hget, -⟩ := Option.filter_eq_some_iff.1 hrecord
  have hid : record.id = row.id := Table.key_of_get hget
  have hpresented : Serial.Sometime n
      (fun db : Db => db.presented (d.hashToken interaction) = some record.id) g₁ := by
    refine (Serial.Sometime.now hA'.1.started ?_).grow hcont.base ?_
    · exact hid ▸ congrArg (Option.map OAuthAuthorizationRequest.id) hrow
    · obtain ⟨ext, hext⟩ := hcont.isPrefix
      exact ⟨ext, hext.symm⟩
  have hst : (serial d).spec.Stable t ([authorizationRequests.exclusive row.id] ++ [])
      (Answering d interaction t n g'.history.length record.id g₁.base g₁.history g₀.clock) :=
    Answering.stable (hid ▸ List.mem_cons_self)
  refine Spec.Safe.rejectIf (fun _ => failed hA₁.1) fun hpending => ?_
  obtain ⟨hopen, hunexpired⟩ : record.resolvedAt = none ∧ g₀.clock < record.expiresAt := by
    rwa [Bool.not_eq_false, pendingRequest, decide_eq_true_iff] at hpending
  refine Spec.Safe.query hst ⟨hA₁.1, .refl _ _, hcont.isPrefix.length_le, hA₁.2, hpresented⟩
    fun g₂ found hi₂ hA₂ _ => ?_
  refine Spec.Safe.require (fun _ => failed hA₂.idle) fun account _ => ?_
  refine Spec.Safe.query hst hA₂ fun g₃ client hi₃ hA₃ _ => ?_
  refine Spec.Safe.require (fun _ => failed hA₃.idle) fun client _ => ?_
  have pending : ∀ {g' : Shared sorts}, (serial d).Inv g' →
      (serial d).Held (.request record.id) g₁.base g₁.history g' →
      g'.current.authorizationRequests.get record.id = some record :=
    fun hi' hh => get_request_of_held hh hi' (hid ▸ hget)
  split
  · rename_i hdeny
    subst hdeny
    refine Rel.updateKey_safe hst hA₃ fun g₄ hi₄ hA₄ => ?_
    refine Spec.Safe.exec (hst.append _) hA₄ fun g₅ hi₅ hA₅ => ?_
    refine Serial.commit ((hst.append _).append _) hA₅ fun g₆ hi₆ hA₆ => ?_
    have hrequest := pending hi₆ hA₆.holds
    refine ⟨commits_of_step hi₆ rfl ?_ fun k hk => ?_, Runs.ret kept ?_⟩
    · exact ⟨g₀.clock, _, by simp only [Session.exec_view, Session.touch_view]; rfl,
        record, hrequest, hopen⟩
    · rw [List.mem_singleton.1 hk]
      simp [Rel.exclusive, authorizationRequests]
    · exact ⟨_, _, _, record, g₀.clock, hA₆.idle.committed _ _, hA₆.reading,
        hA₆.presented.commit _ _, hrequest, hopen, hunexpired, rfl, rfl⟩
  · rename_i happrove
    rw [Bool.not_eq_false] at happrove
    subst happrove
    refine validateGrantTtlDays_runs (fun _ => failed hA₃.idle) fun hdays => ?_
    refine Rel.updateKey_safe hst hA₃ fun g₄ hi₄ hA₄ => ?_
    refine requireConsentReady_runs kept (hst.append _) hA₄ (fun _ _ hA => hA.idle)
      fun _ g₅ hi₅ hA₅ => ?_
    refine Spec.Safe.rejectIf (fun _ => failed hA₅.idle) fun _ => ?_
    refine Spec.Safe.query (hst.append _) hA₅ fun g₆ effective hi₆ hA₆ _ => ?_
    refine Spec.Safe.rejectIf (fun _ => failed hA₆.idle) fun _ => ?_
    refine Spec.Safe.fresh (hst.append _) hA₆ fun g₇ hi₇ hi₇' hA₇ => ?_
    have hst₁ := (hst.append [authorizationRequests.exclusive record.id]).and
      (Serial.Unused.stable (M := serial d) (t := t) g₇.drawn.length)
    refine Spec.Safe.fresh hst₁ ⟨hA₇, .draw hi₇⟩ fun g₈ hi₈ hi₈' hA₈ => ?_
    have hst₂ := hst₁.and (Serial.Unused.stable (M := serial d) (t := t) g₈.drawn.length)
    refine Rel.insert_safe hst₂ ⟨hA₈, .draw hi₈⟩ (fun _ _ _ hA => failed hA.1.1.idle)
      fun g₉ hi₉ hA₉ _ => ?_
    refine Spec.Safe.exec (hst₂.append _) hA₉ fun g₁₀ hi₁₀ hA₁₀ => ?_
    refine Serial.commit ((hst₂.append _).append _) hA₁₀ fun g₁₁ hi₁₁ hA₁₁ => ?_
    obtain ⟨⟨hans, hsecret⟩, hcode⟩ := hA₁₁
    have hrequest := pending hi₁₁ hans.holds
    have hfresh := fresh_of_unused hcode hi₁₁
    refine ⟨⟨?_, fun k hk => ?_, fun k hk => ?_, hi₁₁.side.append _⟩, Runs.ret kept ?_⟩
    · exact ⟨_, g₀.clock, _, by simp only [Session.exec_view, Session.touch_view]; rfl,
        ⟨record, hrequest, hopen⟩, rfl, rfl, rfl, ⟨_, hdays, rfl⟩, hfresh,
        fresh_of_unused hsecret hi₁₁⟩
    · simp only [serial, footprint, List.mem_cons, List.not_mem_nil, or_false] at hk
      rcases hk with rfl | rfl
      · simp [Rel.exclusive, authorizationRequests]
      · simp [Rel.exclusive, authorizationCodes]
    · simp only [serial, ids, List.mem_cons, List.not_mem_nil, or_false] at hk
      rcases hk with rfl | rfl
      · exact hcode.drawn
      · exact hsecret.drawn
    · refine ⟨_, _, _, record, g₀.clock, hans.idle.committed _ _, hans.reading,
        hans.presented.commit _ _, hrequest, hopen, hunexpired, ?_⟩
      exact ⟨_, _, _, by simp only [Session.exec_view, Session.touch_view]; rfl, rfl, rfl, rfl⟩

/-! ### Code exchanges -/

/-- The result of a code exchange by thread `t`, started after `n` commits: its only commit issued
the pair for the presented code, or it committed nothing. -/
def Exchanged (d : Deployment) (code : StoredAuthorizationCode) (t n : ℕ) :
    Except Failure OAuthToken → Shared sorts → Prop
  | .ok pair, g => ∃ base h e i, Serial.Committed t n base h e g ∧
      e.label = .issued code.recordId i ∧ i.token d = pair ∧ (t, i.now) ∈ g.readings
  | .error _, g => Serial.Idle t n g

theorem Exchanged.kept {code : StoredAuthorizationCode} : Kept d t (Exchanged d code t n) := by
  intro r
  cases r with
  | ok pair =>
    refine .exists fun base => .exists fun h => .exists fun e => .exists fun i => ?_
    exact (Serial.Committed.stable n base h e).and
      ((Spec.Stable.pure _).and ((Spec.Stable.pure _).and (Serial.stable_reading i.now)))
  | error e => exact Serial.Idle.stable n

theorem exchangeAuthorizationCode_runs {clientId : Option String} {code : StoredAuthorizationCode}
    (hi : (serial d).Inv g) (hidle : Serial.Idle t n g) :
    Runs d t (Exchanged d code t n) (exchangeAuthorizationCode d clientId code) {} g := by
  have kept : Kept d t (Exchanged d code t n) := Exchanged.kept
  have failed : ∀ {l : Session sorts} {g : Shared sorts} {e : Failure}, Serial.Idle t n g →
      Runs d t (Exchanged d code t n) (.raise e) l g := fun hg => Runs.raise kept hg
  unfold exchangeAuthorizationCode
  refine Runs.withSession kept hi ?_
  refine Rel.selectKeyForUpdate_safe (fun _ => decide_eq_true_iff)
    (Serial.Idle.stable n) hidle (fun l' g₁ hi₁ hA₁ _ => ?_)
    fun b g₁ record hi₁ hA₁ hb hrecord => ?_
  · exact Spec.Safe.now (Serial.Idle.stable n) hA₁ fun _ _ hA => failed hA
  have hid : record.id = code.recordId := Table.key_of_get hrecord
  have hst : (serial d).spec.Stable t ([authorizationCodes.exclusive code.recordId] ++ []) fun g =>
      ((serial d).Held (.code code.recordId) g₁.base g₁.history g ∧ b ≤ g.history.length) ∧
        Serial.Idle t n g :=
    ((Serial.Held.stable (b := true) List.mem_cons_self _ _).and (Serial.stable_length b)).and
      (Serial.Idle.stable n)
  refine Spec.Safe.now hst ⟨⟨.refl _ _, hb⟩, hA₁⟩ fun g₂ hi₂ hA₂ => ?_
  refine Spec.Safe.require (fun _ => failed hA₂.2) fun record' hrecord' => ?_
  obtain rfl := Option.some.inj hrecord'
  refine Spec.Safe.rejectIf (fun _ => failed hA₂.2) fun h₁' => ?_
  refine Spec.Safe.query hst hA₂ fun g₃ row hi₃ hA₃ hrow => ?_
  refine Spec.Safe.require (fun _ => failed hA₃.2) fun client hclient => ?_
  refine Spec.Safe.rejectIf (fun _ => failed hA₃.2) fun h₂ => ?_
  refine Spec.Safe.rejectIf (fun _ => failed hA₃.2) fun h₃ => ?_
  have hget := hrow.trans hclient
  have hclientId : client.id = record.clientId := Table.key_of_get hget
  have hstc := hst.and (Serial.Sometime.stable (M := serial d) (t := t) 0 fun db : Db =>
    db.oauthClients.get client.id = some client)
  refine Rel.updateKey_safe hstc ⟨hA₃, .now (Nat.zero_le _) (hclientId ▸ hget)⟩
    fun g₄ hi₄ hA₄ => ?_
  refine Spec.Safe.fresh (hstc.append _) hA₄ fun g₅ hi₅ hi₅' hA₅ => ?_
  have hst₁ := (hstc.append [authorizationCodes.exclusive record.id]).and
    (Serial.Unused.stable (M := serial d) (t := t) g₅.drawn.length)
  refine Rel.insert_safe hst₁ ⟨hA₅, .draw hi₅⟩ (fun _ _ _ hA => failed hA.1.1.2)
    fun g₆ hi₆ hA₆ _ => ?_
  refine issueTokenPair_runs kept (hst₁.append _) hA₆ (fun _ _ _ hA => hA.1.1.2)
    (Session.exec_began _ _ _ (Session.exec_began _ _ _ (Session.touch_began _
      (Session.exec_began _ _ _ rfl)))) (fun _ _ => rfl)
    (fun i h₁ l' g₇ hi₇ hA₇ hbh hb₇ hic hiu hif his hir hie hissued => ?_) (fun _ hg => hg.1.1.1.2)
  have hst₂ := (((hst₁.append _).mono hissued.held).and (Draws.stable i)).and
    (Serial.stable_reading i.now)
  refine Serial.commit (hst₂.and (Serial.Continues.stable g₇.base h₁))
    ⟨⟨⟨hA₇, hissued.draws⟩, hissued.reading⟩, hissued.continues⟩ fun g₈ hi₈ hA₈ => ?_
  obtain ⟨⟨⟨⟨⟨⟨⟨hheld, -⟩, hidle₈⟩, hreg₈⟩, hfam⟩, hd₈⟩, hread₈⟩, hc₈⟩ := hA₈
  refine ⟨⟨?_, fun k hk => ?_, fun k hk => ?_, hi₈.side.append _⟩, Runs.ret kept
    ⟨_, _, _, i, hidle₈.committed _ _, congrArg (Label.issued · i) hid, rfl, hread₈⟩⟩
  · obtain ⟨log, hview⟩ := hissued.view g₈.current
    refine ⟨record, g₂.clock, log, ?_, ?_⟩
    · rw [hview, hif]
      rfl
    · refine ⟨hid ▸ get_code_of_held hheld hi₈ hrecord, ?_, hiu, ?_, ?_, his, ?_, ?_, ?_⟩
      · by_contra hne
        exact h₁' (.inl hne)
      · rw [hic]
        exact hclientId
      · rw [hir]
        exact not_not.1 h₃
      · intro time htime
        rw [hie, htime, Option.getD_some]
      · rw [hif]
        exact fresh_of_unused hfam hi₈
      · refine hissued.issues hd₈ hc₈ hi₈ ?_ (hic ▸ registered_of_sometime hreg₈)
        rw [hb₇]
        exact hbh
  · simp only [serial, footprint, List.mem_cons, List.not_mem_nil, or_false] at hk
    rcases hk with rfl | rfl | rfl
    · exact hissued.held _ (by simp [Rel.exclusive, authorizationCodes])
    · rw [hif]
      exact hissued.held _ (by simp [Rel.exclusive, tokenFamilies])
    · exact hissued.accessId
  · rcases List.mem_cons.1 hk with rfl | hk
    · rw [hif]
      exact hfam.drawn
    · exact hd₈.drawn hk

end ForgejoMcp.OAuth
