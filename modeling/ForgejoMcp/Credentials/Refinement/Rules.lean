import ForgejoMcp.Credentials.Locks

/-!
# Refinement of the serial model: common rules

The specification of the serial model with its requests, and the rules for the functions that
several calls share.
-/

namespace ForgejoMcp.Credentials

open Transactions Rows

-- a rule is applied by the form of its program, which is not run
attribute [local irreducible] Spec.Safe

variable (server : Server)

/-- The serial model of a server. -/
def serial : Serial sorts where
  Start := Start
  Uses := fun _ _ => False
  Step := Step server
  footprint := footprint
  ids := ids
  Side := fun h asks _ => Side h asks
  SideRely := fun _ _ _ _ => True
  sideRely_refl := fun _ _ _ => trivial
  sideRely_mono := fun _ h => h

/-- What holds when a refresh is sent: the refresh token, the base URL and the client are those of
an active OAuth credential; the URL is permitted, and is that of the instance; and the configuration
is in effect, unless it is that of the environment. -/
structure SendsRefresh (q : Query) (c : Uuid) (g : Shared sorts) : Prop where
  permitted : server.settings.permitsForgejoBaseUrl q.baseUrl = true
  inst : ∃ inst, g.current.forgejoInstances.get () = some inst ∧ inst.baseUrl = q.baseUrl
  bound : ∃ row token configuration, g.current.forgejoCredentials.get c = some row ∧
    row.status = .active ∧ row.kind = .oauth ∧ row.oauthBaseUrl = some q.baseUrl ∧
    row.oauthClientId = some configuration.clientId ∧
    Seals server row.encryptedRefreshToken row.refreshNonce token ∧
    q.request = .token (.refreshToken token) configuration ∧
    (Forgejo.environmentConfiguration server.settings = .ok (some configuration) ∨
      g.current.configured server configuration)

/-- Thread `t` has consumed the request at a time it has read. -/
def Consumed (t : ℕ) (flow : ForgejoOAuthRequest) (g : Shared sorts) : Prop :=
  ∃ e ∈ g.history, e.tid = some t ∧ ∃ time, e.label = .requestConsumed flow time ∧
    (t, time) ∈ g.readings

/-- What is known of the requests when they are sent. -/
def requests : Requests sorts where
  Sends := fun t q g => (∀ c, q.purpose = .refreshes c → SendsRefresh server q c g) ∧
    ∀ r s, q.purpose = .links r s → ∃ flow, flow.id = r ∧ flow.sessionId = s ∧
      flow.ExchangedBy q ∧ Consumed t flow g
  rows := fun q => match q.purpose with
    | .refreshes c => [.credential c]
    | _ => []

/-- The specification of the system. -/
abbrev spec : Spec sorts := (serial server).asking (requests server)

variable {server} {t : ℕ} {l : Session sorts} {g : Shared sorts} {held : List (RowLock Key)}

theorem inv_consistent (hi : (serial server).Inv g) :
    Consistent server g.history g.current :=
  hi.start.consistent_of_valid hi.valid

/-! ### Programs that end in a postcondition -/

variable {α β : Type} {R : Except Raised α → Shared sorts → Prop} {A : Shared sorts → Prop}

/-- A postcondition that stays true. -/
def Kept (server : Server) (t : ℕ) (R : Except Raised α → Shared sorts → Prop) : Prop :=
  ∀ r, (spec server).Stable t [] (R r)

/-- Thread `t` can run the program, and its result satisfies `R`. -/
abbrev Runs (server : Server) (t : ℕ) (R : Except Raised α → Shared sorts → Prop) (p : P α)
    (l : Session sorts) (g : Shared sorts) : Prop :=
  (spec server).Safe t (fun r _ g => R r g) p l g

theorem Kept.stable (hR : Kept server t R) (held : List (RowLock Key)) (r : Except Raised α) :
    (spec server).Stable t held (R r) :=
  (hR r).mono fun _ h => absurd h List.not_mem_nil

theorem Runs.ret {a : α} (hR : Kept server t R) (h : R (.ok a) g) : Runs server t R (.ret a) l g :=
  Spec.Safe.ret (hR.stable _ _) h fun _ _ h => h

theorem Runs.raise {e : Raised} (hR : Kept server t R) (h : R (.error e) g) :
    Runs server t R (.raise e) l g :=
  Spec.Safe.raise (hR.stable _ _) h fun _ _ h => h

/-- A session around a program rolls back what is left, and keeps the postcondition. -/
theorem Runs.withSession {p : P α} (hR : Kept server t R) (hi : (serial server).Inv g)
    (h : Runs server t R p l g) : Runs server t R (withSession p) l g := by
  refine Spec.Safe.ensuring hi (Spec.Safe.mono (fun r l g hr => ?_) h)
  have hst := hR.stable l.held r
  cases r with
  | ok a => exact Spec.Safe.rollback hst hr fun _ _ hA => Runs.ret hR hA
  | error e => exact Spec.Safe.rollback hst hr fun _ _ hA => Runs.raise hR hA

/-- No request of the thread is one of the token endpoint. -/
def NoToken (t : ℕ) (g : Shared sorts) : Prop :=
  ∀ q answer, (t, q, answer) ∈ g.asks → q.isToken = false

theorem NoToken.isToken (h : NoToken t g) {q : Ask} (hq : q ∈ g.asks) (ht : q.tid = t) :
    q.query.isToken = false := by
  obtain ⟨t', query, answer⟩ := q
  obtain rfl : t' = t := ht
  exact h query answer hq

theorem NoToken.stable : (spec server).Stable t held (NoToken t) :=
  Serial.stable_ownAsks (S := sorts) fun q _ => Query.isToken q = false

theorem NoToken.ask {q : Query} (h : NoToken t g) (hq : q.isToken = false) (answer : Answer) :
    NoToken t (Spec.askState t q answer g) := by
  intro q' answer' hmem
  rcases List.mem_append.1 hmem with hmem | hmem
  · exact h q' answer' hmem
  · cases List.mem_singleton.1 hmem
    exact hq

/-- The postcondition of the calls that send no token request. -/
def Plain (t : ℕ) (_ : Except Raised α) (g : Shared sorts) : Prop := NoToken t g

theorem Plain.kept : Kept server t (Plain t : Except Raised α → Shared sorts → Prop) :=
  fun _ => NoToken.stable

theorem Plain.raises {e : Raised} (h : NoToken t g) :
    Runs server t (Plain t) (.raise e : P α) l g :=
  Runs.raise Plain.kept h

/-! ### Commits and requests -/

/-- The commit of a thread. -/
def committed (t : ℕ) (label : Label) (l : Session sorts) (g : Shared sorts) : Entry sorts :=
  ⟨some t, label, l.began.getD g.history.length, l.view g.current⟩

/-- A commit that stores no pair and puts no number into the database. -/
theorem commits_of_step {label : Label} (hi : (serial server).Inv g) (hids : ids label = [])
    (hpair : label.pair? = none) (hstep : Step server g.base g.history (committed t label l g))
    (hlocks : ∀ k ∈ footprint label, ⟨k, true⟩ ∈ l.held) :
    (serial server).Commits t label l g where
  step := hstep
  exclusive := hlocks
  drawn := fun i hmem => by
    rw [show (serial server).ids label = [] from hids] at hmem
    cases hmem
  side := hi.side.commit hpair

/-- A request that is neither a link nor a refresh. -/
theorem ask_runs {q : Query} {k : Answer → P α} (hst : (spec server).Stable t l.held A) (hA : A g)
    (hformed : q.Formed) (hlinks : ∀ r s, q.purpose ≠ .links r s)
    (hrefreshes : ∀ c, q.purpose ≠ .refreshes c)
    (h : ∀ g₁ answer, (serial server).Inv (Spec.askState t q answer g₁) → A g₁ →
      Runs server t R (k answer) l (Spec.askState t q answer g₁)) :
    Runs server t R (ask q >>= k) l g := by
  have htoken : q.isToken = false := by
    unfold Query.Formed at hformed
    cases hp : q.purpose with
    | links r s => exact absurd hp (hlinks r s)
    | refreshes c => exact absurd hp (hrefreshes c)
    | _ => rw [hp] at hformed; exact hformed
  refine Serial.asking_ask hst hA fun g₁ hi hA₁ => ⟨⟨fun c hc => absurd hc (hrefreshes c),
    fun r s hc => absurd hc (hlinks r s)⟩, ?_,
    fun answer => ⟨hi.side.ask (q := (t, q, answer)) hformed (fun hc => ?_)
      (fun r s hc => absurd hc (hlinks r s)) fun c hc => absurd hc (hrefreshes c),
      fun hi' => h g₁ answer hi' hA₁⟩⟩
  · intro x hx
    have hno : x ∈ (match q.purpose with
      | .refreshes c => [.credential c]
      | _ => [] : List Key) := hx
    cases hp : q.purpose with
    | refreshes c => exact absurd hp (hrefreshes c)
    | _ => rw [hp] at hno; cases hno
  · rw [htoken] at hc
    cases hc

/-! ### What a thread knows -/

/-- A user as a session has loaded it: the row of a committed state. -/
abbrev LoadedUser (userId : Uuid) (x : Loaded User) : Shared sorts → Prop :=
  Serial.At x.readAt fun db : Db => db.users.get userId = some x.row

theorem LoadedUser.stable (userId : Uuid) (x : Loaded User) :
    (spec server).Stable t held (LoadedUser userId x) :=
  Serial.At.stable_of _ _

/-- The session has written nothing. -/
def Clean (l : Session sorts) : Prop := ∀ db, l.view db = db

theorem Clean.empty : Clean {} := fun _ => rfl

theorem Clean.touch (hl : Clean l) (n : ℕ) : Clean (l.touch n) := hl

/-- The session after statements that only read, and may lock what they read. -/
structure Reads (l l' : Session sorts) : Prop where
  view : ∀ db, l'.view db = l.view db
  held : ∀ x ∈ l.held, x ∈ l'.held
  began : ∀ b, l.began = some b → l'.began = some b

theorem Reads.refl (l : Session sorts) : Reads l l := ⟨fun _ => rfl, fun _ h => h, fun _ h => h⟩

theorem Reads.trans {l' l'' : Session sorts} (h : Reads l l') (h' : Reads l' l'') : Reads l l'' :=
  ⟨fun db => (h'.view db).trans (h.view db), fun x hx => h'.held x (h.held x hx),
    fun b hb => h'.began b (h.began b hb)⟩

theorem Reads.touch {l' : Session sorts} (h : Reads l l') (n : ℕ) : Reads l (l'.touch n) :=
  h.trans ⟨fun _ => rfl, fun _ hx => hx, fun _ hb => Session.touch_began n hb⟩

theorem Reads.exec {l' : Session sorts} (h : Reads l l') (n : ℕ) (locks : List (RowLock Key)) :
    Reads l (l'.exec n locks []) :=
  h.trans ⟨fun _ => Session.exec_view _ _ _ _ _, fun _ hx => List.mem_append_right _ hx,
    fun _ hb => Session.exec_began n locks [] hb⟩

theorem Reads.clean {l' : Session sorts} (h : Reads l l') (hl : Clean l) : Clean l' :=
  fun db => (h.view db).trans (hl db)

theorem Reads.stable {l' : Session sorts} (h : Reads l l') (hst : (spec server).Stable t l.held A) :
    (spec server).Stable t l'.held A :=
  hst.mono h.held

theorem fallible_runs {x : Except Forgejo.Failure β} {k : β → P α}
    (hr : ∀ failure, x = .error failure → Runs server t R (.raise (.application failure)) l g)
    (hk : ∀ b, x = .ok b → Runs server t R (k b) l g) :
    Runs server t R (fallible x >>= k) l g := by
  cases x with
  | error failure => exact hr failure rfl
  | ok b => exact hk b rfl

theorem decrypt_runs {c : Forgejo.CredentialCipher} {ciphertext nonce : Forgejo.Bytes}
    {userId : Uuid} {keyVersion : ℕ} {purpose : String} {k : String → P α}
    (hr : ∀ e, Runs server t R (.raise e) l g)
    (hk : ∀ text, c.decrypt server.lib.aead ciphertext nonce userId keyVersion purpose = .ok text →
      Runs server t R (k text) l g) :
    Runs server t R (decrypt server c ciphertext nonce userId keyVersion purpose >>= k) l g := by
  unfold decrypt
  split
  · next text htext => exact hk text htext
  · exact hr _

section

variable (hR : Kept server t R) (hst : (spec server).Stable t l.held A) (hA : A g)
  (hE : ∀ e g, (serial server).Inv g → A g → R (.error e) g)

include hst hA

/-- A text is encrypted with a nonce that was drawn. -/
theorem encrypt_runs {c : Forgejo.CredentialCipher} {text : String} {userId : Uuid}
    {purpose : String} {k : Forgejo.EncryptedCredential → P α}
    (h : ∀ g₁ n, (serial server).Inv g₁ → A g₁ →
      Runs server t R (k (c.encrypt server.lib.aead (server.nonce n) text userId purpose)) l g₁) :
    Runs server t R (encrypt server c text userId purpose >>= k) l g := by
  simp only [encrypt, Prog.bind_eq, Prog.bind_assoc]
  exact Spec.Safe.fresh hst hA fun g₁ _ hi hA₁ => h _ _ hi hA₁

include hR hE

theorem getUser_runs (hl : ∀ db, (l.view db).users = db.users) {loaded : Option (Loaded User)}
    {userId : Uuid} (hloaded : ∀ g, A g → ∀ x, loaded = some x → LoadedUser userId x g)
    {k : Loaded User → P α}
    (h : ∀ g₁ x, (serial server).Inv g₁ → A g₁ → LoadedUser userId x g₁ →
      Runs server t R (k x) (l.touch g₁.history.length) g₁) :
    Runs server t R (getUser loaded userId >>= k) l g := by
  simp only [getUser, Prog.bind_eq, Prog.bind_assoc]
  refine Spec.Safe.query hst hA fun g₁ answer hi₁ hA₁ hq => ?_
  obtain ⟨n, found⟩ := answer
  obtain ⟨rfl, hfound⟩ := Prod.mk.inj hq
  refine Spec.Safe.require (fun _ => Runs.raise hR (hE _ _ hi₁ hA₁)) fun row hrow => ?_
  refine h g₁ _ hi₁ hA₁ ?_
  cases loaded with
  | some x => exact hloaded g₁ hA₁ x rfl
  | none =>
    rw [hl] at hfound
    exact .now (hfound.trans hrow)

theorem refreshUser_runs (hl : ∀ db, (l.view db).users = db.users) {userId : Uuid}
    {k : Loaded User → P α}
    (h : ∀ g₁ x, (serial server).Inv g₁ → A g₁ → LoadedUser userId x g₁ →
      Runs server t R (k x) (l.touch g₁.history.length) g₁) :
    Runs server t R (refreshUser userId >>= k) l g := by
  simp only [refreshUser, Prog.bind_eq, Prog.bind_assoc]
  refine Spec.Safe.query hst hA fun g₁ answer hi₁ hA₁ hq => ?_
  obtain ⟨n, found⟩ := answer
  obtain ⟨rfl, hfound⟩ := Prod.mk.inj hq
  refine Spec.Safe.require (fun _ => Runs.raise hR (hE _ _ hi₁ hA₁)) fun row hrow => ?_
  rw [hl] at hfound
  exact h g₁ _ hi₁ hA₁ (.now (hfound.trans hrow))

/-- A session is loaded with its account, and with the user of the account. -/
theorem loadSession_runs (hl : Clean l) {session : Users.Session} {k : CurrentSession → P α}
    (h : ∀ l' g₁ current, Reads l l' → (serial server).Inv g₁ → A g₁ →
      current.session = session → (∀ userId x, current.account.userId = some userId →
        current.user = some x → LoadedUser userId x g₁) → Runs server t R (k current) l' g₁) :
    Runs server t R (loadSession session >>= k) l g := by
  simp only [loadSession, Prog.bind_eq, Prog.bind_assoc]
  refine Rel.find_safe hst hA fun g₁ found hi₁ hA₁ _ => ?_
  refine Spec.Safe.require (fun _ => Runs.raise hR (hE _ _ hi₁ hA₁)) fun account _ => ?_
  cases huser : account.userId with
  | none =>
    refine h _ g₁ ⟨session, account, none⟩ ((Reads.refl l).touch _) hi₁ hA₁ rfl ?_
    exact fun _ _ _ hx => by cases hx
  | some userId =>
    refine Spec.Safe.query hst hA₁ fun g₂ answer hi₂ hA₂ hq => ?_
    obtain ⟨n, found⟩ := answer
    obtain ⟨rfl, hfound⟩ := Prod.mk.inj hq
    refine h _ g₂ _ (((Reads.refl l).touch _).touch _) hi₂ hA₂ rfl fun u x hu hx => ?_
    obtain ⟨row, hrow, rfl⟩ := Option.map_eq_some_iff.1 hx
    obtain rfl := Option.some.inj (huser.symm.trans hu)
    rw [Session.touch_view, hl] at hfound
    exact .now (hfound.trans hrow)

/-- The session of the Dashboard was one that can link an account. -/
theorem requireSession_runs (hl : Clean l) {b : ℕ} (hb : ∀ g, A g → b ≤ g.history.length)
    {current : CurrentSession} {k : Unit → P α}
    (h : ∀ g₁ time, (serial server).Inv g₁ → A g₁ →
      Serial.Sometime b (Db.linkable current.session.id time · = true) g₁ →
      Runs server t R (k ()) (l.touch g₁.history.length) g₁) :
    Runs server t R (requireSession current >>= k) l g := by
  simp only [requireSession, Prog.bind_eq, Prog.bind_assoc]
  refine Spec.Safe.now hst hA fun g₁ _ hA₁ => ?_
  refine Spec.Safe.query hst hA₁ fun g₂ active hi₂ hA₂ hactive => ?_
  refine Spec.Safe.rejectIf (fun _ => Runs.raise hR (hE _ _ hi₂ hA₂)) fun hno => ?_
  rw [hl] at hactive
  refine h g₂ g₁.clock hi₂ hA₂ (.now (hb g₂ hA₂) ?_)
  rw [hactive]
  simpa using hno

/-- The instance and the configuration, without locks. -/
theorem configuration_runs (hl : Clean l) {b : ℕ} (hb : ∀ g, A g → b ≤ g.history.length)
    {k : ForgejoInstance × Forgejo.ForgejoOAuthClientConfiguration → P α}
    (h : ∀ l' g₁ inst configuration, Reads l l' → (serial server).Inv g₁ → A g₁ →
      Serial.Sometime b (fun db : Db => db.forgejoInstances.get () = some inst) g₁ →
      Serial.Sometime b (Db.configured server configuration) g₁ →
      Runs server t R (k (inst, configuration)) l' g₁) :
    Runs server t R (configuration server false >>= k) l g := by
  simp only [configuration, primary, record, Bool.false_eq_true, if_false, Prog.bind_eq,
    Prog.bind_assoc]
  refine Rel.find_safe hst hA fun g₁ inst hi₁ hA₁ hinst => ?_
  rw [hl] at hinst
  have hst₁ := hst.and (Serial.Stable.asking (Serial.Sometime.stable (M := serial server)
    (t := t) b fun db : Db => db.forgejoInstances.get () = inst))
  refine Rel.find_safe hst₁ ⟨hA₁, .now (hb g₁ hA₁) hinst⟩ fun g₂ found hi₂ hA₂ hfound => ?_
  rw [Session.touch_view, hl] at hfound
  refine fallible_runs (fun _ _ => Runs.raise hR (hE _ _ hi₂ hA₂.1)) fun resolved hresolved => ?_
  refine Spec.Safe.require (fun _ => Runs.raise hR (hE _ _ hi₂ hA₂.1)) fun configuration hc => ?_
  refine Spec.Safe.require (fun _ => Runs.raise hR (hE _ _ hi₂ hA₂.1)) fun inst' hinst' => ?_
  refine Spec.Safe.rejectIf (fun _ => Runs.raise hR (hE _ _ hi₂ hA₂.1)) fun _ => ?_
  refine Spec.Safe.rejectIf (fun _ => Runs.raise hR (hE _ _ hi₂ hA₂.1)) fun _ => ?_
  refine h _ g₂ inst' configuration (((Reads.refl l).touch _).touch _) hi₂ hA₂.1 ?_ ?_
  · refine hA₂.2.mono fun db hdb => ?_
    rw [hdb]
    simpa using hinst'
  · rw [← hfound, hc] at hresolved
    exact .now (hb g₂ hA₂.1) hresolved

end

/-! ### What is locked against changes -/

/-- The record of the configuration as it was looked up after `h`: there was none, or it has been
locked since. -/
structure LookedUp (server : Server) (record : Option Forgejo.ForgejoOAuthConfiguration)
    (base : Db) (h : List (Entry sorts)) (g : Shared sorts) : Prop where
  continues : Serial.Continues base h g
  found : (after base h).forgejoOauthConfigurations.get () = record
  kept : record = none ∨ (serial server).Held .configuration base h g

theorem LookedUp.stable {record : Option Forgejo.ForgejoOAuthConfiguration} {base : Db}
    {h : List (Entry sorts)} {b : Bool}
    (hk : record = none ∨ (⟨.configuration, b⟩ : RowLock Key) ∈ held) :
    (spec server).Stable t held (LookedUp server record base h) := by
  have hcont : (spec server).Stable t held (Serial.Continues base h) :=
    Serial.Continues.stable_of base h
  have hst := hcont.and (.pure ((after base h).forgejoOauthConfigurations.get () = record))
  rcases hk with rfl | hk
  · exact hst.congr fun g => ⟨fun hg => ⟨hg.continues, hg.found⟩, fun hg => ⟨hg.1, hg.2, .inl rfl⟩⟩
  · have hheld := (Spec.Stable.pure (P := spec server) (record = none)).or
      (Serial.Stable.asking (Serial.Held.stable (M := serial server) (t := t) hk base h))
    exact (hst.and hheld).congr fun g => ⟨fun hg => ⟨⟨hg.continues, hg.found⟩, hg.kept⟩,
      fun hg => ⟨hg.1.1, hg.1.2, hg.2⟩⟩

/-- The record of the configuration is not written while its lock is held. -/
theorem configurations_of_held {base : Db} {h : List (Entry sorts)}
    (hh : (serial server).Held .configuration base h g) (hi : (serial server).Inv g) :
    g.current.forgejoOauthConfigurations = (after base h).forgejoOauthConfigurations :=
  hh.related hi (fun a b => b.forgejoOauthConfigurations = a.forgejoOauthConfigurations)
    (fun _ => rfl) (fun _ _ _ hab hbc => hbc.trans hab) fun _ _ _ hs hno => hs.configuration_eq hno

theorem LookedUp.refl {record : Option Forgejo.ForgejoOAuthConfiguration}
    (h : g.current.forgejoOauthConfigurations.get () = record) :
    LookedUp server record g.base g.history g :=
  ⟨.refl g, h, .inr (.refl _ g)⟩

/-- The configuration that was looked up is in effect, unless it is that of the environment, whose
record is not there to be locked. -/
theorem LookedUp.configured {record : Option Forgejo.ForgejoOAuthConfiguration} {base : Db}
    {h : List (Entry sorts)} {configuration : Forgejo.ForgejoOAuthClientConfiguration}
    (hk : LookedUp server record base h g) (hi : (serial server).Inv g)
    (hresolve : Forgejo.resolve server.lib server.settings record = .ok (some configuration)) :
    Forgejo.environmentConfiguration server.settings = .ok (some configuration) ∨
      g.current.configured server configuration := by
  rcases hk.kept with rfl | hheld
  · exact .inl hresolve
  · refine .inr ?_
    rw [Db.configured, configurations_of_held hheld hi, hk.found]
    exact hresolve

/-- The configuration that was looked up after `n` commits or more was in effect then. -/
theorem LookedUp.sometime {record : Option Forgejo.ForgejoOAuthConfiguration} {base : Db}
    {h : List (Entry sorts)} {configuration : Forgejo.ForgejoOAuthClientConfiguration} {n : ℕ}
    (hk : LookedUp server record base h g) (hn : n ≤ h.length)
    (hresolve : Forgejo.resolve server.lib server.settings record = .ok (some configuration)) :
    Serial.Sometime n (Db.configured server configuration) g := by
  obtain ⟨hbase, ext, hext⟩ := hk.continues
  refine ⟨h.length, hn, ?_, ?_⟩
  · rw [← hext, List.length_append]
    exact Nat.le_add_right _ _
  · rw [Shared.stateAt, ← hext, List.take_left, hbase, Db.configured, hk.found]
    exact hresolve

/-- The instance as it was read after `h`, and locked since. -/
structure InstanceHeld (server : Server) (inst : ForgejoInstance) (base : Db)
    (h : List (Entry sorts)) (g : Shared sorts) : Prop where
  held : (serial server).Held .forgejoInstance base h g
  found : (after base h).forgejoInstances.get () = some inst

theorem InstanceHeld.stable {inst : ForgejoInstance} {base : Db} {h : List (Entry sorts)} {b : Bool}
    (hk : (⟨.forgejoInstance, b⟩ : RowLock Key) ∈ held) :
    (spec server).Stable t held (InstanceHeld server inst base h) := by
  have hst := Serial.Stable.asking (W := requests server)
    (Serial.Held.stable (M := serial server) (t := t) hk base h)
  exact (hst.and (.pure ((after base h).forgejoInstances.get () = some inst))).congr fun g =>
    ⟨fun hg => ⟨hg.held, hg.found⟩, fun hg => ⟨hg.1, hg.2⟩⟩

/-- The instance is not written while its lock is held. -/
theorem InstanceHeld.current {inst : ForgejoInstance} {base : Db} {h : List (Entry sorts)}
    (hk : InstanceHeld server inst base h g) (hi : (serial server).Inv g) :
    g.current.forgejoInstances.get () = some inst := by
  rw [hk.held.related hi (fun a b => b.forgejoInstances = a.forgejoInstances) (fun _ => rfl)
    (fun _ _ _ hab hbc => hbc.trans hab) fun _ _ _ hs hno => hs.instance_eq hno, hk.found]

section

variable (hst : (spec server).Stable t l.held A) (hA : A g)

include hst hA

theorem record_runs (hl : Clean l) {k : Option Forgejo.ForgejoOAuthConfiguration → P α}
    (h : ∀ l' g₁ found, Reads l l' → (serial server).Inv g₁ → A g₁ →
      (spec server).Stable t l'.held (LookedUp server found g₁.base g₁.history) →
      LookedUp server found g₁.base g₁.history g₁ → Runs server t R (k found) l' g₁) :
    Runs server t R (record true >>= k) l g := by
  simp only [record, if_true]
  refine Rel.selectForShare_safe hst hA (fun g₁ hi₁ hA₁ hno => ?_)
    fun g₀ g₁ row _ _ _ hi₁ hA₁ => ?_
  · refine h _ g₁ none ((Reads.refl l).touch _) hi₁ hA₁ (LookedUp.stable (b := false) (.inl rfl))
      (.refl ?_)
    refine Table.get_eq_none.2 fun r hr _ => ?_
    rw [hl] at hno
    cases hno r hr
  · rw [hl]
    refine h _ g₁ _ (((Reads.refl l).touch _).exec _ _) hi₁ hA₁ (LookedUp.stable (b := false) (.inr ?_))
      (.refl ?_)
    · exact List.mem_append_left _ (List.mem_singleton_self _)
    · show _ = (g₁.current.forgejoOauthConfigurations.get ()).filter _
      cases g₁.current.forgejoOauthConfigurations.get () <;> rfl

theorem refreshInstance_runs {loaded : Option ForgejoInstance} (hi : (serial server).Inv g)
    (hl : Clean l) {k : Option ForgejoInstance → P α} (h : ∀ l' g₁ found, Reads l l' →
      (serial server).Inv g₁ → A g₁ → (∀ inst, found = some inst →
        (⟨.forgejoInstance, false⟩ : RowLock Key) ∈ l'.held ∧
          InstanceHeld server inst g₁.base g₁.history g₁) → Runs server t R (k found) l' g₁) :
    Runs server t R (refreshInstance loaded >>= k) l g := by
  cases loaded with
  | none => exact h l g none (.refl l) hi hA fun _ hc => by cases hc
  | some _ =>
    refine Rel.selectForShare_safe hst hA (fun g₁ hi₁ hA₁ _ => ?_)
      fun g₀ g₁ row _ _ _ hi₁ hA₁ => ?_
    · exact h _ g₁ none ((Reads.refl l).touch _) hi₁ hA₁ fun _ hc => by cases hc
    · refine h _ g₁ _ (((Reads.refl l).touch _).exec _ _) hi₁ hA₁ fun inst hinst =>
        ⟨List.mem_append_left _ (List.mem_singleton_self _), .refl _ g₁, ?_⟩
      rw [hl] at hinst
      exact (Option.filter_eq_some_iff.1 hinst).1

/-- The instance and the configuration, with locks on both. -/
theorem lockedConfiguration_runs (hR : Kept server t R)
    (hE : ∀ e g, (serial server).Inv g → A g → R (.error e) g) (hl : Clean l)
    {k : ForgejoInstance × Forgejo.ForgejoOAuthClientConfiguration → P α}
    (h : ∀ l' (g₀ g₁ : Shared sorts) record inst configuration, Reads l l' →
      (serial server).Inv g₁ → A g₀ → A g₁ →
      (spec server).Stable t l'.held (LookedUp server record g₀.base g₀.history) →
      LookedUp server record g₀.base g₀.history g₁ →
      (⟨.forgejoInstance, false⟩ : RowLock Key) ∈ l'.held →
      InstanceHeld server inst g₁.base g₁.history g₁ →
      Forgejo.resolve server.lib server.settings record = .ok (some configuration) →
      server.settings.permitsForgejoBaseUrl inst.baseUrl = true →
      Runs server t R (k (inst, configuration)) l' g₁) :
    Runs server t R (configuration server true >>= k) l g := by
  simp only [configuration, primary, if_true, Prog.bind_eq, Prog.bind_assoc]
  refine Rel.find_safe hst hA fun g₁ loaded hi₁ hA₁ _ => ?_
  refine record_runs (l := l.touch _) hst hA₁ hl fun l' g₂ found hl' hi₂ hA₂ hst₂ hfound => ?_
  refine fallible_runs (fun _ _ => Runs.raise hR (hE _ _ hi₂ hA₂)) fun resolved hresolved => ?_
  refine refreshInstance_runs ((hl'.stable hst).and hst₂) ⟨hA₂, hfound⟩ hi₂ (hl'.clean hl)
    fun l'' g₃ inst hl'' hi₃ hA₃ hheld => ?_
  refine Spec.Safe.require (fun _ => Runs.raise hR (hE _ _ hi₃ hA₃.1)) fun configuration hc => ?_
  refine Spec.Safe.require (fun _ => Runs.raise hR (hE _ _ hi₃ hA₃.1)) fun inst' hinst => ?_
  refine Spec.Safe.rejectIf (fun _ => Runs.raise hR (hE _ _ hi₃ hA₃.1)) fun hpermits => ?_
  refine Spec.Safe.rejectIf (fun _ => Runs.raise hR (hE _ _ hi₃ hA₃.1)) fun _ => ?_
  obtain ⟨hlock, hheld⟩ := hheld inst' hinst
  refine h l'' g₂ g₃ found inst' configuration ?_ hi₃ hA₂ hA₃.1 (hst₂.mono hl''.held) hA₃.2 hlock
    hheld ?_ ?_
  · exact (((Reads.refl l).touch _).trans hl').trans hl''
  · rw [hresolved, hc]
  · simpa using hpermits

end

/-- The session of a request is that of a user. -/
theorem userSession_runs (hR : Kept server t R) (hst : (spec server).Stable t [] A) (hA : A g)
    (hE : ∀ e g, (serial server).Inv g → A g → R (.error e) g) {sessionToken : String}
    {k : CurrentSession × Uuid → P α}
    (h : ∀ l' g₁ b current userId, Reads {} l' → l'.began = some b → (serial server).Inv g₁ →
      A g₁ → b ≤ g₁.history.length → (∀ x, current.user = some x → LoadedUser userId x g₁) →
      Runs server t R (k (current, userId)) l' g₁) :
    Runs server t R (userSession server sessionToken >>= k) {} g := by
  simp only [userSession, getCurrentSession, Prog.bind_eq, Prog.bind_assoc]
  refine Rel.select_safe hst hA fun g₁ found hi₁ hA₁ _ => ?_
  refine Spec.Safe.require (fun _ => Runs.raise hR (hE _ _ hi₁ hA₁)) fun session _ => ?_
  have hst₁ := hst.and (Serial.Stable.asking (W := requests server)
    (Serial.stable_length (M := serial server) (t := t) g₁.history.length))
  refine loadSession_runs hR hst₁ ⟨hA₁, Nat.le_refl _⟩ (fun e g hi hA => hE e g hi hA.1)
    (Clean.empty.touch _) fun l' g₂ current hl' hi₂ hA₂ _ huser => ?_
  have hst₂ := (hl'.stable hst₁).and (Spec.Stable.forall fun x : Uuid × Loaded User => Spec.Stable.imp
    (p := current.account.userId = some x.1 ∧ current.user = some x.2)
    (LoadedUser.stable x.1 x.2))
  refine Spec.Safe.now hst₂ ⟨hA₂, fun x hx => huser x.1 x.2 hx.1 hx.2⟩ fun g₃ hi₃ hA₃ => ?_
  refine Spec.Safe.rejectIf (fun _ => Runs.raise hR (hE _ _ hi₃ hA₃.1.1)) fun _ => ?_
  refine Spec.Safe.rejectIf (fun _ => Runs.raise hR (hE _ _ hi₃ hA₃.1.1)) fun _ => ?_
  refine Spec.Safe.rejectIf (fun _ => Runs.raise hR (hE _ _ hi₃ hA₃.1.1)) fun _ => ?_
  refine Spec.Safe.require (fun _ => Runs.raise hR (hE _ _ hi₃ hA₃.1.1)) fun userId hu => ?_
  refine h l' _ g₁.history.length current userId ?_ (hl'.began _ rfl) hi₃ hA₃.1.1 hA₃.1.2
    fun x hx => hA₃.2 (userId, x) ⟨hu, hx⟩
  exact ((Reads.refl {}).touch _).trans hl'

end ForgejoMcp.Credentials
