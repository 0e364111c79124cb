import ForgejoMcp.Credentials.Refinement.Linking
import ForgejoMcp.Forgejo.ClientSecret

/-!
# Refinement of the use of a link

An access token is read, or refreshed, under the lock of its credential.  A refresh sends the
refresh token that was stored last to the base URL and the client of the credential; and a pair that
Forgejo has returned is committed, unless Forgejo has not confirmed the identity of its user.
-/

namespace ForgejoMcp.Credentials

open Transactions Rows

-- a rule is applied by the form of its program, which is not run
attribute [local irreducible] Spec.Safe

variable {server : Server} {t : ℕ} {l : Session sorts} {g : Shared sorts} {α : Type}
  {held : List (RowLock Key)}

/-! ### What a refresh leaves -/

/-- Forgejo has confirmed the identity. -/
def Confirms (server : Server) (answer : Answer) (forgejoUserId : ℤ) (username : String) : Prop :=
  ∃ user, userOutcome answer = .ok user ∧ user.id = forgejoUserId ∧
    Users.normalizeUsername server.users user.username = username

/-- After request `i` the thread asked for the identity of the user of the credential, and Forgejo
did not confirm it; in between nobody refreshed the credential. -/
def Unconfirmed (server : Server) (t i : ℕ) (c : Uuid) (g : Shared sorts) : Prop :=
  ∃ (f : ℕ) (q : Query) (answer : Answer) (forgejoUserId : ℤ) (username : String), i < f ∧
    g.asks[f]? = some (t, q, answer) ∧ q.purpose = .confirms c forgejoUserId username ∧
    ¬ Confirms server answer forgejoUserId username ∧
    ∀ (j : ℕ) (q' : Ask), i < j → j < f → g.asks[j]? = some q' → q'.query.purpose ≠ .refreshes c

/-- Every pair that a refresh of the thread was answered with is committed, or unconfirmed. -/
def Settled (server : Server) (t : ℕ) (g : Shared sorts) : Prop :=
  ∀ (i : ℕ) (q : Query) (answer : Answer) c pair, g.asks[i]? = some (t, q, answer) →
    q.purpose = .refreshes c → answer.pair? = some pair →
    (∃ e ∈ g.history, e.tid = some t ∧ e.label = .credentialRefreshed c pair) ∨
      Unconfirmed server t i c g

theorem Unconfirmed.grow {i : ℕ} {c : Uuid} {g' : Shared sorts} (h : Unconfirmed server t i c g)
    (hasks : ∃ ext, g'.asks = g.asks ++ ext) : Unconfirmed server t i c g' := by
  obtain ⟨f, q, answer, id, username, hif, hf, hq⟩ := h
  obtain ⟨ext, hext⟩ := hasks
  have hlen : f < g.asks.length := (List.getElem?_eq_some_iff.1 hf).1
  have heq : ∀ j, j ≤ f → g'.asks[j]? = g.asks[j]? := fun j hj => by
    rw [hext, List.getElem?_append_left (by omega)]
  refine ⟨f, q, answer, id, username, hif, (heq f (Nat.le_refl f)).trans hf, hq.1, hq.2.1, ?_⟩
  intro j q' hij hjf hj
  rw [heq j hjf.le] at hj
  exact hq.2.2 j q' hij hjf hj

theorem Settled.stable : (spec server).Stable t held (Settled server t) where
  interferes := fun a b hab h i q answer c pair hi hpurpose hpair => by
    obtain ⟨ext, hext, hno⟩ := hab.base.asks
    obtain ⟨commits, hcommits, -⟩ := hab.base.history
    have hold : a.asks[i]? = some (t, q, answer) := by
      rw [hext] at hi
      by_cases hlt : i < a.asks.length
      · rwa [List.getElem?_append_left hlt] at hi
      · rw [List.getElem?_append_right (Nat.not_lt.1 hlt)] at hi
        exact absurd rfl (hno _ (List.mem_of_getElem? hi))
    rcases h i q answer c pair hold hpurpose hpair with ⟨e, he, hlabel⟩ | h
    · exact .inl ⟨e, hcommits ▸ List.mem_append_left _ he, hlabel⟩
    · exact .inr (h.grow ⟨ext, hext⟩)
  quiet := fun a b hab _ h i q answer c pair hi hpurpose hpair => by
    rw [hab.asks] at hi
    rcases h i q answer c pair hi hpurpose hpair with ⟨e, he, hlabel⟩ | h
    · exact .inl ⟨e, hab.history ▸ he, hlabel⟩
    · exact .inr (h.grow ⟨[], by rw [hab.asks, List.append_nil]⟩)

theorem isToken_of_refreshes {q : Query} {c : Uuid} (hf : q.Formed) (hq : q.purpose = .refreshes c) :
    q.isToken = true := by
  simp only [Query.Formed, hq] at hf
  obtain ⟨token, cfg, hrequest⟩ := hf
  rw [Query.isToken, hrequest]

/-- A thread that has refreshed nothing has nothing to settle. -/
theorem NoRefresh.settled (h : NoRefresh t g) (hi : (serial server).Inv g) : Settled server t g := by
  intro i q answer c pair hq hpurpose
  have hmem : (t, q, answer) ∈ g.asks := List.mem_of_getElem? hq
  exact absurd hpurpose (h q answer hmem (isToken_of_refreshes (hi.side.formed _ hmem) hpurpose) c)

/-- The token is that of an active OAuth credential of the user for the base URL of the instance,
which is permitted. -/
structure Db.Holds (server : Server) (userId : Uuid) (inst : ForgejoInstance) (token : String)
    (row : ForgejoCredential) (db : Db) : Prop where
  mem : row ∈ db.forgejoCredentials
  user : row.userId = userId
  active : row.status = .active
  kind : row.kind = .oauth
  baseUrl : row.oauthBaseUrl = some inst.baseUrl
  seals : Seals server row.encryptedToken row.nonce token
  permitted : server.settings.permitsForgejoBaseUrl inst.baseUrl = true
  inst : db.forgejoInstances.get () = some inst

/-- Since the first `n` commits the token was that of a credential of the user for the instance, and
a configuration with the client of the credential was in effect. -/
def Lends (server : Server) (userId : Uuid) (n : ℕ) (inst : ForgejoInstance) (token : String)
    (g : Shared sorts) : Prop :=
  ∃ (row : ForgejoCredential) (configuration : Forgejo.ForgejoOAuthClientConfiguration),
    row.oauthClientId = some configuration.clientId ∧
      Serial.Sometime n (Db.configured server configuration) g ∧
        Serial.Sometime n (Db.Holds server userId inst token row) g

theorem Lends.stable {userId : Uuid} {n : ℕ} {inst : ForgejoInstance} {token : String} :
    (spec server).Stable t held (Lends server userId n inst token) := by
  have hst : ∀ C : Db → Prop, (spec server).Stable t held (Serial.Sometime n C) := fun C =>
    Serial.Stable.asking (Serial.Sometime.stable (M := serial server) n C)
  exact .exists fun row => .exists fun configuration => (Spec.Stable.pure _).and ((hst _).and (hst _))

/-- The postcondition of the calls that use a link: what was refreshed is settled, and an access
token that is returned is one of the user for the instance. -/
def Handed (server : Server) (userId : Uuid) (n t : ℕ) (r : Except Raised Result)
    (g : Shared sorts) : Prop :=
  Settled server t g ∧ ∀ inst token, r = .ok (.connection inst (.oauth token)) →
    Lends server userId n inst token g

theorem Handed.kept {userId : Uuid} {n : ℕ} : Kept server t (Handed server userId n t) := by
  intro r
  have hst : (spec server).Stable t [] fun g => ∀ x : ForgejoInstance × String,
      r = .ok (.connection x.1 (.oauth x.2)) → Lends server userId n x.1 x.2 g :=
    .forall fun x => .imp Lends.stable
  exact (Settled.stable.and hst).congr fun g =>
    ⟨fun h => ⟨h.1, fun x hx => h.2 x.1 x.2 hx⟩, fun h => ⟨h.1, fun inst token hx => h.2 (inst, token) hx⟩⟩

theorem Handed.raises {userId : Uuid} {n : ℕ} {e : Raised} (h : Settled server t g) :
    Runs server t (Handed server userId n t) (.raise e) l g :=
  Runs.raise Handed.kept ⟨h, fun _ _ hx => by cases hx⟩

/-- A call that has asked the token endpoint nothing may fail. -/
theorem Handed.refused {userId : Uuid} {n : ℕ} {e : Raised} (hi : (serial server).Inv g)
    (h : NoToken t g) : Handed server userId n t (.error e) g :=
  ⟨h.noRefresh.settled hi, fun _ _ hx => by cases hx⟩

theorem Handed.refuses {userId : Uuid} {n : ℕ} {e : Raised} (hi : (serial server).Inv g)
    (h : NoToken t g) : Runs server t (Handed server userId n t) (.raise e) l g :=
  Runs.raise Handed.kept (Handed.refused hi h)

/-! ### Decryption -/

theorem eq_of_decrypt {c : Forgejo.CredentialCipher} {ciphertext nonce : Forgejo.Bytes}
    {userId : Uuid} {keyVersion : ℕ} {purpose text text' : String}
    (hs : Seals server (some ciphertext) (some nonce) text)
    (hd : c.decrypt server.lib.aead ciphertext nonce userId keyVersion purpose = .ok text') :
    text' = text := by
  obtain ⟨key, n, data, hciphertext, hnonce⟩ := hs
  cases hciphertext
  cases hnonce
  exact server.lib.aead.eq_of_decrypt _ _ _ _ _ _ _ (Forgejo.decrypt_eq_ok hd)

theorem decrypt_encrypt (server : Server) (c : Forgejo.CredentialCipher) (nonce : Forgejo.Bytes)
    (text : String) (userId : Uuid) (purpose : String) :
    let encrypted := c.encrypt server.lib.aead nonce text userId purpose
    c.decrypt server.lib.aead encrypted.ciphertext encrypted.nonce userId encrypted.keyVersion
      purpose = .ok text := by
  simp only [Forgejo.CredentialCipher.decrypt, Forgejo.CredentialCipher.encrypt, ne_eq, not_true,
    if_false, server.lib.aead.decrypt_encrypt]

theorem both_eq_some {β γ : Type} {a : Option β} {b : Option γ} {x : β × γ}
    (h : both a b = some x) : a = some x.1 ∧ b = some x.2 := by
  obtain ⟨y, ha, hb⟩ := Option.bind_eq_some_iff.1 h
  obtain ⟨z, hz, rfl⟩ := Option.map_eq_some_iff.1 hb
  exact ⟨ha, hz⟩

/-! ### The locked credential -/

/-- What a thread knows that has looked up the configuration and the instance, and then locked the
credential. -/
structure Locked (server : Server) (n : ℕ) (record : Option Forgejo.ForgejoOAuthConfiguration)
    (inst : ForgejoInstance) (credential : ForgejoCredential) (base₀ : Db)
    (h₀ : List (Entry sorts)) (base : Db) (h : List (Entry sorts)) (g : Shared sorts) : Prop where
  started : n ≤ h₀.length
  lookedUp : LookedUp server record base₀ h₀ g
  inst : InstanceHeld server inst base h g
  held : (serial server).Held (.credential credential.id) base h g
  found : (after base h).forgejoCredentials.get credential.id = some credential

section

variable {n : ℕ} {record : Option Forgejo.ForgejoOAuthConfiguration} {inst : ForgejoInstance}
  {credential : ForgejoCredential} {base₀ base : Db} {h₀ h : List (Entry sorts)}

theorem Locked.stable (hst : (spec server).Stable t held (LookedUp server record base₀ h₀))
    (hinst : (⟨.forgejoInstance, false⟩ : RowLock Key) ∈ held)
    (hlock : (⟨.credential credential.id, true⟩ : RowLock Key) ∈ held) :
    (spec server).Stable t held (Locked server n record inst credential base₀ h₀ base h) := by
  have hinst : (spec server).Stable t held (InstanceHeld server inst base h) :=
    InstanceHeld.stable hinst
  have hheld := Serial.Stable.asking (W := requests server)
    (Serial.Held.stable (M := serial server) (t := t) hlock base h)
  exact (((Spec.Stable.pure (n ≤ h₀.length)).and hst).and (hinst.and (hheld.and (.pure _)))).congr
    fun g => ⟨fun h => ⟨⟨h.started, h.lookedUp⟩, h.inst, h.held, h.found⟩,
      fun h => ⟨h.1.1, h.1.2, h.2.1, h.2.2.1, h.2.2.2⟩⟩

/-- The credential is still stored. -/
theorem Locked.get (hk : Locked server n record inst credential base₀ h₀ base h g)
    (hi : (serial server).Inv g) :
    g.current.forgejoCredentials.get credential.id = some credential := by
  have hstays := hk.held.related hi
    (fun a b => Table.Stays credential.id a.forgejoCredentials b.forgejoCredentials)
    (fun _ => .refl _ _) (fun _ _ _ => .trans) fun _ _ _ hs hno => hs.credential_stays hno
  exact hstays credential hk.found

theorem Locked.length_le (hk : Locked server n record inst credential base₀ h₀ base h g) :
    n ≤ g.history.length := by
  obtain ⟨-, ext, hext⟩ := hk.lookedUp.continues
  rw [← hext, List.length_append]
  exact hk.started.trans (Nat.le_add_right _ _)

end

/-! ### A refresh that was sent -/

theorem tokenOutcome_of_pair? {answer : Answer} {pair : ForgejoOAuthTokens}
    (h : answer.pair? = some pair) : tokenOutcome answer = .ok pair := by
  cases answer with
  | tokens response =>
    rw [Answer.pair?] at h
    simp only [tokenOutcome, h]
  | _ => cases h

/-- Request `o` of the thread refreshes the credential, and no later request does. -/
structure Pending (server : Server) (t : ℕ) (c : Uuid) (o : ℕ) (q : Query) (answer : Answer)
    (g : Shared sorts) : Prop where
  asked : g.asks[o]? = some (t, q, answer)
  refreshes : q.purpose = .refreshes c
  silent : Serial.Silent (requests server) (.credential c) (o + 1) g

/-- The thread has stored no pair. -/
def Unstored (t : ℕ) (g : Shared sorts) : Prop :=
  ∀ e ∈ g.history, e.tid = some t → e.label.pair? = none

theorem Unstored.stable : (spec server).Stable t held (Unstored t) :=
  Serial.Stable.asking (Serial.stable_own (M := serial server) fun e => e.label.pair? = none)

section

variable {c : Uuid} {o : ℕ} {q : Query} {answer : Answer}

theorem Pending.stable {b : Bool} (hlock : (⟨.credential c, b⟩ : RowLock Key) ∈ held) :
    (spec server).Stable t held (Pending server t c o q answer) := by
  have hasked : (spec server).Stable t held fun g => g.asks[o]? = some (t, q, answer) :=
    Serial.stable_asks (S := sorts) o (t, q, answer)
  have hst := (hasked.and (.pure (q.purpose = .refreshes c))).and
    (Serial.Silent.stable (M := serial server) hlock (o + 1))
  exact hst.congr fun g => ⟨fun h => ⟨⟨h.asked, h.refreshes⟩, h.silent⟩,
    fun h => ⟨h.1.1, h.1.2, h.2⟩⟩

theorem Pending.later (h : Pending server t c o q answer g) {j : ℕ} {q' : Ask} (hj : o < j)
    (hq' : g.asks[j]? = some q') : q'.query.purpose ≠ .refreshes c := by
  intro hpurpose
  have hmem : q' ∈ g.asks.drop (o + 1) := by
    refine List.mem_of_getElem? (i := j - (o + 1)) ?_
    rw [List.getElem?_drop, Nat.add_sub_cancel' hj, hq']
  refine h.silent.silent q' hmem ?_
  simp only [requests, hpurpose, List.mem_singleton]

/-- A request that is no refresh. -/
theorem Pending.ask (h : Pending server t c o q answer g) {q' : Query}
    (hq' : ∀ c, q'.purpose ≠ .refreshes c) (answer' : Answer) :
    Pending server t c o q answer (Spec.askState t q' answer' g) where
  asked := (List.getElem?_append_left (List.getElem?_eq_some_iff.1 h.asked).1).trans h.asked
  refreshes := h.refreshes
  silent := by
    refine ⟨?_, fun r hr => ?_⟩
    · rw [Spec.askState, List.length_append]
      exact Nat.le_trans h.silent.le (Nat.le_add_right _ _)
    · rw [Spec.askState, List.drop_append_of_le_length h.silent.le] at hr
      rcases List.mem_append.1 hr with hr | hr
      · exact h.silent.silent r hr
      · rw [List.mem_singleton.1 hr]
        simp only [requests]
        exact List.not_mem_nil

/-- The thread has no other refresh to settle. -/
theorem Pending.settled (h : Pending server t c o q answer g) (hi : (serial server).Inv g)
    (hpair : ∀ pair, answer.pair? = some pair →
      (∃ e ∈ g.history, e.tid = some t ∧ e.label = .credentialRefreshed c pair) ∨
        Unconfirmed server t o c g) : Settled server t g := by
  intro i q' answer' c' pair hq' hpurpose hpair'
  have hformed := hi.side.formed _ (List.mem_of_getElem? hq')
  have hformed' := hi.side.formed _ (List.mem_of_getElem? h.asked)
  obtain rfl : i = o := hi.side.once i o _ _ hq' h.asked rfl (isToken_of_refreshes hformed hpurpose)
    (isToken_of_refreshes hformed' h.refreshes)
  have heq := Option.some.inj (hq'.symm.trans h.asked)
  obtain ⟨rfl, rfl⟩ := Prod.mk.inj (Prod.mk.inj heq).2
  obtain rfl : c' = c := Purpose.refreshes.inj (hpurpose.symm.trans h.refreshes)
  exact hpair pair hpair'

theorem Pending.commit (h : Pending server t c o q answer g) (label : Label) (l : Session sorts) :
    Pending server t c o q answer (Spec.commitState t label l g) :=
  ⟨h.asked, h.refreshes, h.silent.le, h.silent.silent⟩

/-- The identity of the user was asked for, and not confirmed. -/
theorem Pending.unconfirmed (h : Pending server t c o q answer g) {q' : Query} {answer' : Answer}
    {id : ℤ} {name : String} (hq' : q'.purpose = .confirms c id name)
    (hno : ¬ Confirms server answer' id name) :
    Unconfirmed server t o c (Spec.askState t q' answer' g) := by
  have hlt := (List.getElem?_eq_some_iff.1 h.asked).1
  have h' : Pending server t c o q answer (Spec.askState t q' answer' g) :=
    h.ask (fun c' hc => by rw [hq'] at hc; cases hc) answer'
  exact ⟨g.asks.length, q', answer', id, name, hlt, List.getElem?_concat_length, hq', hno,
    fun j q₁ hj _ hq₁ => h'.later hj hq₁⟩

end

/-! ### The refresh -/

section

variable {n : ℕ} {record : Option Forgejo.ForgejoOAuthConfiguration} {credential : ForgejoCredential}
  {base₀ base : Db} {h₀ h : List (Entry sorts)} {userId : Uuid} {inst : ForgejoInstance}
  {configuration : Forgejo.ForgejoOAuthClientConfiguration}

/-- The credential is one that can be used with the instance and the client. -/
structure Chosen (server : Server) (userId : Uuid) (inst : ForgejoInstance)
    (configuration : Forgejo.ForgejoOAuthClientConfiguration) (credential : ForgejoCredential) :
    Prop where
  user : credential.userId = userId
  active : credential.status = .active
  usable : Usable inst configuration credential
  permitted : server.settings.permitsForgejoBaseUrl inst.baseUrl = true

/-- A pair that is stored for the credential can be used like the one before. -/
theorem Chosen.holds_storeTokens (hc : Chosen server userId inst configuration credential) {db : Db}
    (hget : db.forgejoCredentials.get credential.id = some credential)
    (hinst : db.forgejoInstances.get () = some inst)
    {access refresh : Forgejo.EncryptedCredential} {expiresAt : Time} {token : String}
    (haccess : Seals server (some access.ciphertext) (some access.nonce) token) :
    (db.storeTokens credential.id access refresh expiresAt).Holds server userId inst token
      ((ForgejoCredential.storeTokens access refresh expiresAt).apply credential) where
  mem := Table.mem_update.2 ⟨credential, Table.mem_of_get hget, if_pos (decide_eq_true rfl)⟩
  user := hc.user
  active := hc.active
  kind := hc.usable.1
  baseUrl := hc.usable.2.1
  seals := haccess
  permitted := hc.permitted
  inst := hinst

/-- The token request of a refresh. -/
abbrev refreshQuery (inst : ForgejoInstance) (configuration : Forgejo.ForgejoOAuthClientConfiguration)
    (c : Uuid) (token : String) : Query :=
  ⟨inst.baseUrl, inst.verifyTls, .token (.refreshToken token) configuration, .refreshes c⟩

/-- The request for the user of the new access token. -/
abbrev confirmQuery (inst : ForgejoInstance) (credential : ForgejoCredential) (user : User)
    (token : String) : Query :=
  ⟨inst.baseUrl, inst.verifyTls, .currentUser (.oauth token),
    .confirms credential.id credential.forgejoUserId user.normalizedForgejoUsername⟩

theorem Pending.sent {c : Uuid} {q : Query} (hq : q.purpose = .refreshes c) (answer : Answer) :
    Pending server t c g.asks.length q answer (Spec.askState t q answer g) where
  asked := List.getElem?_concat_length
  refreshes := hq
  silent := ⟨by rw [Spec.askState, List.length_append]; exact Nat.le_refl _, fun r hr => by
    rw [Spec.askState, List.drop_eq_nil_of_le (by rw [List.length_append]; exact Nat.le_refl _)] at hr
    cases hr⟩

theorem Locked.ask (hk : Locked server n record inst credential base₀ h₀ base h g) (q : Query)
    (answer : Answer) :
    Locked server n record inst credential base₀ h₀ base h (Spec.askState t q answer g) where
  started := hk.started
  lookedUp := ⟨⟨hk.lookedUp.continues.base, hk.lookedUp.continues.isPrefix⟩, hk.lookedUp.found,
    hk.lookedUp.kept.imp_right fun hheld => ⟨hheld.base, hheld.unchanged⟩⟩
  inst := ⟨⟨hk.inst.held.base, hk.inst.held.unchanged⟩, hk.inst.found⟩
  held := ⟨hk.held.base, hk.held.unchanged⟩
  found := hk.found

/-- The secrets of the credential are the pair that was stored last. -/
theorem Locked.holds (hk : Locked server n record inst credential base₀ h₀ base h g)
    (hi : (serial server).Inv g) (hc : Chosen server userId inst configuration credential) :
    ∃ pair, storedPair g.history credential.id = some pair ∧ HoldsPair server credential pair :=
  (inv_consistent hi).exists_pair (Table.mem_of_get (hk.get hi)) hc.active hc.usable.1

/-- The commit of the pair that a refresh was answered with. -/
theorem Pending.commits {o : ℕ} {q : Query} {answer : Answer} {pair : ForgejoOAuthTokens}
    (hp : Pending server t credential.id o q answer g) (hs : Unstored t g)
    (hk : Locked server n record inst credential base₀ h₀ base h g) (hi : (serial server).Inv g)
    (hactive : credential.status = .active) (hpair : answer.pair? = some pair)
    (hlock : (⟨.credential credential.id, true⟩ : RowLock Key) ∈ l.held)
    {access refresh : Forgejo.EncryptedCredential} {expiresAt : Time}
    (hview : ∀ db : Db, l.view db = db.storeTokens credential.id access refresh expiresAt)
    (haccess : Seals server (some access.ciphertext) (some access.nonce) pair.accessToken)
    (hrefresh : Seals server (some refresh.ciphertext) (some refresh.nonce) pair.refreshToken) :
    (serial server).Commits t (.credentialRefreshed credential.id pair) l g where
  step := ⟨credential, access, refresh, expiresAt, hview _, hk.get hi, hactive, haccess, hrefresh⟩
  exclusive := fun k hk => by
    rw [List.mem_singleton.1 hk]
    exact hlock
  drawn := fun _ hid => by cases hid
  side := by
    have htoken : q.isToken = true :=
      isToken_of_refreshes (hi.side.formed _ (List.mem_of_getElem? hp.asked)) hp.refreshes
    refine hi.side.store (c := credential.id) rfl hp.asked rfl hpair htoken ⟨hp.refreshes, htoken⟩
      (fun e he ht => hs e he ht) fun j q' hj hpurpose => ?_
    by_contra hlt
    exact hp.later (Nat.lt_of_not_le hlt) hj hpurpose

theorem refreshTokens_runs (hi : (serial server).Inv g) (hl : Clean l)
    (hst : (spec server).Stable t l.held (LookedUp server record base₀ h₀))
    (hinst : (⟨.forgejoInstance, false⟩ : RowLock Key) ∈ l.held)
    (hlock : (⟨.credential credential.id, true⟩ : RowLock Key) ∈ l.held)
    (hc : Chosen server userId inst configuration credential)
    (hresolve : Forgejo.resolve server.lib server.settings record = .ok (some configuration))
    (hA : NoToken t g ∧ Locked server n record inst credential base₀ h₀ base h g)
    {c : Forgejo.CredentialCipher} {user : User} {k : String → P Result}
    (hk : ∀ g token, (serial server).Inv g → Settled server t g →
      Lends server userId n inst token g →
      Runs server t (Handed server userId n t) (k token) {} g) :
    Runs server t (Handed server userId n t)
      (refreshTokens server c inst configuration user credential >>= k) l g := by
  have hlocked : (spec server).Stable t l.held
      (Locked server n record inst credential base₀ h₀ base h) := Locked.stable hst hinst hlock
  have hst₁ := (NoToken.stable : (spec server).Stable t l.held (NoToken t)).and hlocked
  simp only [refreshTokens, exchange, getCurrentUser, Prog.bind_eq, Prog.bind_assoc]
  refine Spec.Safe.require (fun _ => Handed.refuses hi hA.1) fun secret hsecret => ?_
  obtain ⟨hciphertext, hnonce⟩ := both_eq_some hsecret
  refine decrypt_runs (fun _ => Handed.refuses hi hA.1) fun text htext => ?_
  refine Spec.Safe.rejectIf (fun _ => Handed.refuses hi hA.1) fun _ => ?_
  refine Spec.Safe.rejectIf (fun _ => Handed.refuses hi hA.1) fun _ => ?_
  refine Spec.Safe.rejectIf (fun _ => Handed.refuses hi hA.1) fun _ => ?_
  have sent : ∀ g, (serial server).Inv g → Locked server n record inst credential base₀ h₀ base h g →
      ∃ pair, storedPair g.history credential.id = some pair ∧ text = pair.refreshToken ∧
        Seals server credential.encryptedRefreshToken credential.refreshNonce text := by
    intro g hi hk
    obtain ⟨pair, hstored, hholds⟩ := hk.holds hi hc
    have hseals := hholds.refresh
    rw [hciphertext, hnonce] at hseals
    obtain rfl := eq_of_decrypt hseals htext
    exact ⟨pair, hstored, rfl, hholds.refresh⟩
  refine Serial.asking_ask hst₁ hA fun g₁ hi₁ hA₁ => ⟨⟨fun c' hc' => ?_, fun _ _ hc' => by cases hc'⟩,
    fun x hx => ?_,
    fun answer => ⟨?_, fun hi₂ => ?_⟩⟩
  · cases hc'
    obtain ⟨-, -, -, hseals⟩ := sent g₁ hi₁ hA₁.2
    exact ⟨hc.permitted, ⟨inst, hA₁.2.inst.current hi₁, rfl⟩, credential, text, configuration,
      hA₁.2.get hi₁, hc.active, hc.usable.1, hc.usable.2.1, hc.usable.2.2, hseals, rfl,
      hA₁.2.lookedUp.configured hi₁ hresolve⟩
  · rw [List.mem_singleton.1 hx]
    exact hlock
  · refine hi₁.side.ask ⟨_, _, rfl⟩ (fun _ q hq htid => hA₁.1.isToken hq htid)
      (fun _ _ hc' => by cases hc') fun c' hc' => ?_
    cases hc'
    obtain ⟨pair, hstored, rfl, -⟩ := sent g₁ hi₁ hA₁.2
    exact ⟨pair, configuration, hstored, rfl⟩
  · have hst₂ : (spec server).Stable t l.held fun g =>
        (Pending server t credential.id g₁.asks.length
            (refreshQuery inst configuration credential.id text) answer g ∧ Unstored t g) ∧
          Locked server n record inst credential base₀ h₀ base h g :=
      ((Pending.stable hlock).and Unstored.stable).and hlocked
    have hpending : Pending server t credential.id g₁.asks.length
        (refreshQuery inst configuration credential.id text) answer
        (Spec.askState t (refreshQuery inst configuration credential.id text) answer g₁) :=
      Pending.sent rfl answer
    have hunstored : Unstored t g₁ :=
      hi₁.side.pair?_eq_none fun q hq htid => hA₁.1.isToken hq htid
    refine fallible_runs (fun failure hfailed => ?_) fun tokens htokens => ?_
    · refine Handed.raises (hpending.settled hi₂ fun pair hpair => ?_)
      rw [tokenOutcome_of_pair? hpair] at hfailed
      cases hfailed
    have hpair := tokenOutcome_eq_ok htokens
    refine Serial.asking_ask hst₂ ⟨⟨hpending, hunstored⟩, hA₁.2.ask _ _⟩ fun g₃ hi₃ hA₃ =>
      ⟨⟨fun c' hc' => (by cases hc'), fun _ _ hc' => (by cases hc')⟩, fun x hx => absurd hx List.not_mem_nil,
        fun answer' => ⟨?_, fun hi₄ => ?_⟩⟩
    · exact hi₃.side.ask rfl (fun ht => by cases ht) (fun _ _ hc' => by cases hc')
        fun _ hc' => by cases hc'
    have hpending' : Pending server t credential.id g₁.asks.length
        (refreshQuery inst configuration credential.id text) answer
        (Spec.askState t (confirmQuery inst credential user tokens.accessToken) answer' g₃) :=
      hA₃.1.1.ask (fun _ hc' => by cases hc') answer'
    have hunconfirmed : ¬ Confirms server answer' credential.forgejoUserId
        user.normalizedForgejoUsername → ∀ {e : Raised} {l},
        Runs server t (Handed server userId n t) (.raise e) l
          (Spec.askState t (confirmQuery inst credential user tokens.accessToken) answer' g₃) :=
      fun hno => Handed.raises (hpending'.settled hi₄ fun _ _ => .inr (hA₃.1.1.unconfirmed rfl hno))
    refine fallible_runs (fun failure hfailed => hunconfirmed ?_) fun principal hprincipal => ?_
    · rintro ⟨user', huser', -⟩
      cases hfailed.symm.trans huser'
    refine Spec.Safe.rejectIf (fun hno => hunconfirmed ?_) fun _ => ?_
    · rintro ⟨user', huser', hid, hname⟩
      obtain rfl := Except.ok.inj (hprincipal.symm.trans huser')
      exact hno.elim (absurd hid) (absurd hname)
    -- Forgejo has confirmed the identity: nothing fails from here to the commit
    refine encrypt_runs hst₂ ⟨⟨hpending', hA₃.1.2⟩, hA₃.2.ask _ _⟩ fun g₅ i hi₅ hA₅ => ?_
    refine encrypt_runs hst₂ hA₅ fun g₆ j hi₆ hA₆ => ?_
    refine Spec.Safe.now hst₂ hA₆ fun g₇ hi₇ hA₇ => ?_
    have htoken := decrypt_encrypt server c (server.nonce i) tokens.accessToken
      credential.userId "access"
    dsimp only at htoken
    simp only [decrypt, htoken]
    generalize haccess : c.encrypt server.lib.aead (server.nonce i) tokens.accessToken
      credential.userId "access" = access
    generalize hrefresh : c.encrypt server.lib.aead (server.nonce j) tokens.refreshToken
      credential.userId "oauth-refresh" = refresh
    have hsealed : Seals server (some access.ciphertext) (some access.nonce) tokens.accessToken :=
      haccess ▸ seals_encrypt c _ _ _ _
    have hview : ∀ m (db : Db), (l.exec m [forgejoCredentials.exclusive credential.id]
        [forgejoCredentials.updatedKey credential.id (ForgejoCredential.storeTokens access refresh
          (g₇.clock + seconds tokens.expiresIn))]).view db =
        db.storeTokens credential.id access refresh (g₇.clock + seconds tokens.expiresIn) := by
      intro m db
      rw [Session.exec_view, hl]
      rfl
    refine Rel.updateKey_safe hst₂ hA₇ fun g₈ hi₈ hA₈ => ?_
    refine Serial.asking_commit (hst₂.append _) hA₈ fun g₉ hi₉ hA₉ =>
      ⟨hA₉.1.1.commits hA₉.1.2 hA₉.2 hi₉ hc.active hpair (List.mem_append_right _ hlock)
        (hview _) hsealed (hrefresh ▸ seals_encrypt c _ _ _ _), fun hi' => hk _ _ hi' ?_ ?_⟩
    · refine (hA₉.1.1.commit _ _).settled hi' fun pair hpair' => .inl ⟨_, List.mem_append_right _
        (List.mem_singleton_self _), rfl, ?_⟩
      rw [Option.some.inj (hpair.symm.trans hpair')]
    · refine ⟨(ForgejoCredential.storeTokens access refresh
        (g₇.clock + seconds tokens.expiresIn)).apply credential, configuration, hc.usable.2.2,
        (hA₉.2.lookedUp.sometime hA₉.2.started hresolve).commit _ _,
        Serial.Sometime.committed hA₉.2.length_le ?_ _⟩
      rw [hview]
      exact hc.holds_storeTokens (hA₉.2.get hi₉) (hA₉.2.inst.current hi₉) hsealed

end

/-! ### The calls -/

section

variable {n : ℕ} {userId : Uuid}

theorem accessToken_runs (hl : Clean l) (hA : NoToken t g ∧ n ≤ g.history.length)
    {k : ForgejoInstance × AccessToken → P Result}
    (hk : ∀ g inst token, (serial server).Inv g → Settled server t g →
      Lends server userId n inst token g →
      Runs server t (Handed server userId n t) (k (inst, .oauth token)) {} g) :
    Runs server t (Handed server userId n t) (accessToken server userId >>= k) l g := by
  have hlen : ∀ {held}, (spec server).Stable t held fun g => n ≤ g.history.length :=
    Serial.Stable.asking (Serial.stable_length (M := serial server) n)
  have hstart : (spec server).Stable t l.held fun g => NoToken t g ∧ n ≤ g.history.length :=
    NoToken.stable.and hlen
  simp only [accessToken, Prog.bind_eq, Prog.bind_assoc]
  refine lockedConfiguration_runs hstart hA Handed.kept (fun _ _ hi h => Handed.refused hi h.1) hl
    fun l₁ g₀ g₁ record inst configuration hl₁ hi₁ hA₀ hA₁ hst₁ hlooked hinstLock hinst hresolve
      hpermits => ?_
  refine Rel.selectForUpdate_safe ((hl₁.stable hstart).and (hst₁.and (InstanceHeld.stable hinstLock)))
    ⟨hA₁, hlooked, hinst⟩
    (fun g₂ hi₂ hA₂ _ => ?_) fun g₂' g₂ row _ _ _ hi₂ hA₂ => ?_
  · exact Spec.Safe.require (fun _ => Handed.refuses hi₂ hA₂.1.1) fun _ hx => by cases hx
  have hl₂ := ((Reads.refl l₁).touch g₂'.history.length).exec g₂.history.length
    [forgejoCredentials.exclusive row.id]
  refine Spec.Safe.require (fun _ => Handed.refuses hi₂ hA₂.1.1) fun credential hcredential => ?_
  obtain ⟨hfound, husable⟩ := Option.filter_eq_some_iff.1 hcredential
  obtain ⟨hget, hactive⟩ := Option.filter_eq_some_iff.1 hfound
  rw [hl₁.clean hl] at hget
  have hid := Table.key_of_get hget
  rw [← hid] at hget
  have hlock : (⟨.credential credential.id, true⟩ : RowLock Key) ∈
      ((l₁.touch g₂'.history.length).exec g₂.history.length
        [forgejoCredentials.exclusive row.id] []).held := by
    rw [← hid]
    exact List.mem_append_left _ (List.mem_singleton_self _)
  generalize (l₁.touch g₂'.history.length).exec g₂.history.length
    [forgejoCredentials.exclusive row.id] [] = l₂ at hl₂ hlock ⊢
  simp only [ForgejoCredential.isActiveOf, Bool.and_eq_true, decide_eq_true_eq] at hactive
  have hchosen : Chosen server userId inst configuration credential :=
    ⟨hactive.1.1, hactive.1.2, of_decide_eq_true husable, hpermits⟩
  have hclean := hl₂.clean (hl₁.clean hl)
  have hst₂ := hl₂.stable hst₁
  have hst₃ : (spec server).Stable t l₂.held fun g => NoToken t g ∧
      Locked server n record inst credential g₀.base g₀.history g₂.base g₂.history g :=
    NoToken.stable.and (Locked.stable hst₂ (hl₂.held _ hinstLock) hlock)
  have hA₃ : NoToken t g₂ ∧ Locked server n record inst credential g₀.base g₀.history g₂.base g₂.history
      g₂ := ⟨hA₂.1.1, hA₀.2, hA₂.2.1, ⟨.refl _ _, hA₂.2.2.current hi₂⟩, .refl _ _, hget⟩
  refine Spec.Safe.require (fun _ => Handed.refuses hi₂ hA₃.1) fun secret hsecret => ?_
  obtain ⟨hciphertext, hnonce⟩ := both_eq_some hsecret
  have hE : ∀ e g, (serial server).Inv g → (NoToken t g ∧ Locked server n record inst credential g₀.base
      g₀.history g₂.base g₂.history g) → Handed server userId n t (.error e) g :=
    fun _ _ hi h => Handed.refused hi h.1
  refine getUser_runs Handed.kept hst₃ hA₃ hE (fun db => by rw [hclean]) (fun _ _ _ hx => by cases hx)
    fun g₄ _ hi₄ hA₄ _ => ?_
  refine refreshUser_runs (l := l₂.touch _) Handed.kept hst₃ hA₄ hE (fun db => by
    rw [Session.touch_view, hclean]) fun g₅ user hi₅ hA₅ _ => ?_
  refine Spec.Safe.rejectIf (fun _ => Handed.refuses hi₅ hA₅.1) fun _ => ?_
  refine fallible_runs (fun _ _ => Handed.refuses hi₅ hA₅.1) fun c _ => ?_
  refine Spec.Safe.require (fun _ => Handed.refuses hi₅ hA₅.1) fun expiresAt _ => ?_
  refine Spec.Safe.now (l := (l₂.touch _).touch _) hst₃ hA₅ fun g₆ hi₆ hA₆ => ?_
  split
  · simp only [Prog.bind_assoc]
    exact refreshTokens_runs hi₆ ((hclean.touch _).touch _) hst₂ (hl₂.held _ hinstLock) hlock hchosen hresolve hA₆
      fun g token hi hsettled hholds => hk g inst token hi hsettled hholds
  · simp only [Prog.bind_assoc]
    refine decrypt_runs (fun _ => Handed.refuses hi₆ hA₆.1) fun token htoken => ?_
    refine Serial.asking_commit hst₃ hA₆ fun g₇ hi₇ hA₇ =>
      ⟨commits_of_step hi₇ rfl rfl ?_ (fun _ hx => by cases hx), fun hi' => ?_⟩
    · exact hclean _
    · refine hk _ inst token hi' (NoRefresh.settled hA₇.1.noRefresh hi') ?_
      obtain ⟨pair, -, hholds⟩ := hA₇.2.holds hi₇ hchosen
      have hseals := hholds.access
      rw [hciphertext, hnonce] at hseals
      obtain rfl := eq_of_decrypt hseals htoken
      refine ⟨credential, configuration, hchosen.usable.2.2,
        (hA₇.2.lookedUp.sometime hA₇.2.started hresolve).commit _ _, .commit (.now hA₇.2.length_le ?_) _ _⟩
      exact ⟨Table.mem_of_get (hA₇.2.get hi₇), hchosen.user, hchosen.active, hchosen.usable.1,
        hchosen.usable.2.1, hholds.access, hchosen.permitted, hA₇.2.inst.current hi₇⟩

theorem connection_runs (hl : Clean l) (hA : NoToken t g ∧ n ≤ g.history.length)
    {k : ForgejoInstance × AccessToken → P Result}
    (hpat : ∀ l g inst token, (serial server).Inv g → Settled server t g →
      Runs server t (Handed server userId n t) (k (inst, .pat token)) l g)
    (hk : ∀ g inst token, (serial server).Inv g → Settled server t g →
      Lends server userId n inst token g →
      Runs server t (Handed server userId n t) (k (inst, .oauth token)) {} g) :
    Runs server t (Handed server userId n t) (connection server userId >>= k) l g := by
  have hst : (spec server).Stable t l.held fun g => NoToken t g ∧ n ≤ g.history.length :=
    NoToken.stable.and (Serial.Stable.asking (Serial.stable_length (M := serial server) n))
  simp only [connection, primary, activeForUser, Prog.bind_eq, Prog.bind_assoc]
  refine Rel.find_safe hst hA fun g₁ found hi₁ hA₁ _ => ?_
  refine Spec.Safe.require (fun _ => Handed.refuses hi₁ hA₁.1) fun inst _ => ?_
  refine Spec.Safe.rejectIf (fun _ => Handed.refuses hi₁ hA₁.1) fun _ => ?_
  refine Spec.Safe.rejectIf (fun _ => Handed.refuses hi₁ hA₁.1) fun _ => ?_
  refine Spec.Safe.query (l := l.touch _) hst hA₁ fun g₂ answer hi₂ hA₂ _ => ?_
  refine Spec.Safe.require (fun _ => Handed.refuses hi₂ hA₂.1) fun credential _ => ?_
  split
  · exact accessToken_runs ((hl.touch _).touch _) hA₂ hk
  · simp only [Prog.bind_assoc]
    refine Spec.Safe.require (fun _ => Handed.refuses hi₂ hA₂.1) fun secret _ => ?_
    refine fallible_runs (fun _ _ => Handed.refuses hi₂ hA₂.1) fun c _ => ?_
    refine decrypt_runs (fun _ => Handed.refuses hi₂ hA₂.1) fun token _ => ?_
    exact hpat _ g₂ inst token hi₂ (hA₂.1.noRefresh.settled hi₂)

end

end ForgejoMcp.Credentials
