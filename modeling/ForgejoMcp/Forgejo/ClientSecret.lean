import ForgejoMcp.Forgejo.Configuration

/-!
# The client secret over a history of saves

Which secret a record keeps is a matter of its history: the invariant says that a stored secret was
supplied, or imported from the environment, for the client that the record names, and that every
save since then kept the client confidential and the same.
-/

namespace ForgejoMcp.Forgejo

variable {lib : Library}

/-! ### One save -/

theorem rejectIf_eq_ok {b : Bool} {failure : Failure} {u : Unit} :
    rejectIf b failure = .ok u ↔ b = false := by
  cases b <;> simp [rejectIf]

/-- The three columns of the secret are null. -/
structure NoSecret (r : ForgejoOAuthConfiguration) : Prop where
  encryptedSecret : r.encryptedSecret = none
  nonce : r.nonce = none
  keyVersion : r.keyVersion = none

/-- The three columns of the secret are set, to an encryption of the secret. -/
def Stores (lib : Library) (r : ForgejoOAuthConfiguration) (secret : String) : Prop :=
  ∃ (cipher : CredentialCipher) (nonce : Bytes),
    r.encryptedSecret = some (cipher.encrypt lib.aead nonce secret r.id
      "oauth-client-secret").ciphertext ∧
    r.nonce = some nonce ∧ r.keyVersion = some cipher.keyVersion

/-- The columns of the secret are as they were. -/
structure Keeps (r r' : ForgejoOAuthConfiguration) : Prop where
  id : r'.id = r.id
  encryptedSecret : r'.encryptedSecret = r.encryptedSecret
  nonce : r'.nonce = r.nonce
  keyVersion : r'.keyVersion = r.keyVersion

/-- What a save that succeeds does. -/
structure Saved (lib : Library) (settings : ForgejoSettings) (draws : SaveDraws)
    (record : Option ForgejoOAuthConfiguration) (request : SaveRequest)
    (r' : ForgejoOAuthConfiguration) (secret : String) : Prop where
  effective : effectiveSecret settings record request = .ok secret
  supplied : request.clientType = .publicClient → request.clientSecret.getD "" = ""
  kept : request.clientType = .confidential → request.enabled = true → secret = "" →
    ∃ r, record = some r ∧ r.secretConfigured = true ∧ r.clientId = strip request.clientId
  enabled : r'.enabled = request.enabled
  clientId : r'.clientId = strip request.clientId
  clientType : r'.clientType = request.clientType
  revision : r'.revision = draws.revision
  stores : secret ≠ "" → Stores lib r' secret
  keeps : secret = "" → Keeps (recordToUpdate settings draws record request) r'

theorem storeSecret_eq_ok {settings : ForgejoSettings} {draws : SaveDraws} {secret : String}
    {r r' : ForgejoOAuthConfiguration} (h : storeSecret lib settings draws secret r = .ok r') :
    r'.id = r.id ∧ (secret = "" → r' = r) ∧ (secret ≠ "" → Stores lib r' secret) := by
  unfold storeSecret at h
  split at h
  · next hnil =>
    obtain rfl := Except.ok.inj h
    exact ⟨rfl, fun _ => rfl, fun hne => absurd hnil hne⟩
  · next hne =>
    split at h
    · cases h
    · next cipher _ =>
      obtain rfl := Except.ok.inj h
      exact ⟨rfl, fun hnil => absurd hnil hne, fun _ => ⟨cipher, draws.nonce, rfl, rfl, rfl⟩⟩

theorem save_saved {settings : ForgejoSettings} {draws : SaveDraws}
    {record : Option ForgejoOAuthConfiguration} {request : SaveRequest}
    {r' : ForgejoOAuthConfiguration} (h : save lib settings draws record request = .ok r') :
    ∃ secret, Saved lib settings draws record request r' secret := by
  unfold save at h
  simp only [bind_eq_ok, rejectIf_eq_ok] at h
  obtain ⟨origin, -, -, -, -, -, -, -, -, hpublic, secret, hsecret, -, hmissing, r₁, hstore, h⟩ := h
  obtain rfl := Except.ok.inj h
  obtain ⟨hid, hnil, hne⟩ := storeSecret_eq_ok hstore
  refine ⟨secret, hsecret, fun hp => ?_, fun hconf hen hempty => ?_, rfl, rfl, rfl, rfl, hne,
    fun hempty => ?_⟩
  · simpa [hp] using hpublic
  · rw [hconf, hen, hempty] at hmissing
    cases record with
    | none => simp at hmissing
    | some r => exact ⟨r, rfl, by simpa [currentId] using hmissing⟩
  · rw [hnil hempty]
    exact ⟨rfl, rfl, rfl, rfl⟩

/-! ### Histories of saves -/

/-- One save, with the settings of the server at the time. -/
structure SaveEvent where
  settings : ForgejoSettings
  draws : SaveDraws
  request : SaveRequest

/-- The record after a sequence of saves, of which the successful ones are listed.  Revisions are
drawn anew; a save that fails leaves the record as it was. -/
inductive Saves (lib : Library) : List SaveEvent → Option ForgejoOAuthConfiguration → Prop
  | start : Saves lib [] none
  | saved {history : List SaveEvent} {record : Option ForgejoOAuthConfiguration}
      (h : Saves lib history record) (event : SaveEvent)
      (hfresh : ∀ x ∈ history, x.draws.revision ≠ event.draws.revision)
      {record' : ForgejoOAuthConfiguration}
      (hsave : save lib event.settings event.draws record event.request = .ok record') :
      Saves lib (history ++ [event]) (some record')
  | failed {history : List SaveEvent} {record : Option ForgejoOAuthConfiguration}
      (h : Saves lib history record) (event : SaveEvent) {failure : Failure}
      (hsave : save lib event.settings event.draws record event.request = .error failure) :
      Saves lib history record

/-- The save brings the secret: it was supplied, or imported from the environment, for the client of
the environment, with the first record. -/
def SaveEvent.Provides (event : SaveEvent) (before : List SaveEvent) (secret : String) : Prop :=
  event.request.clientSecret = some secret ∨
    before = [] ∧ event.request.clientSecret.getD "" = "" ∧
      event.settings.forgejoOauthClientId = some (strip event.request.clientId) ∧
      ∃ file, event.settings.forgejoOauthClientSecretFile = some file ∧
        readSecretFile file = .ok secret

/-- The save is for the confidential client. -/
def SaveEvent.For (event : SaveEvent) (clientId : String) : Prop :=
  strip event.request.clientId = clientId ∧ event.request.clientType = .confidential

/-- The secret is the one provided last, for this client, which it has been ever since. -/
def ProvidedFor (history : List SaveEvent) (clientId secret : String) : Prop :=
  ∃ before event later, history = before ++ event :: later ∧ event.For clientId ∧
    event.Provides before secret ∧
    ∀ x ∈ later, x.For clientId ∧ x.request.clientSecret.getD "" = ""

theorem ProvidedFor.snoc {history : List SaveEvent} {clientId secret : String}
    (h : ProvidedFor history clientId secret) {event : SaveEvent} (hfor : event.For clientId)
    (hnone : event.request.clientSecret.getD "" = "") :
    ProvidedFor (history ++ [event]) clientId secret := by
  obtain ⟨before, first, later, rfl, hfirst, hprovides, hlater⟩ := h
  refine ⟨before, first, later ++ [event], by simp, hfirst, hprovides, fun x hx => ?_⟩
  rcases List.mem_append.1 hx with hx | hx
  · exact hlater x hx
  · rw [List.mem_singleton.1 hx]
    exact ⟨hfor, hnone⟩

/-- What the record keeps of its history. -/
structure Kept (lib : Library) (history : List SaveEvent) (r : ForgejoOAuthConfiguration) :
    Prop where
  secret : NoSecret r ∨
    ∃ secret, Stores lib r secret ∧ ProvidedFor history r.clientId secret
  publicClient : r.clientType = .publicClient → NoSecret r
  enabled : r.enabled = true → r.clientType = .confidential → ∃ secret, Stores lib r secret
  revision : ∃ x ∈ history, x.draws.revision = r.revision

/-- The effective secret was supplied, or imported with the first record. -/
theorem effectiveSecret_eq_ok {settings : ForgejoSettings}
    {record : Option ForgejoOAuthConfiguration} {request : SaveRequest} {secret : String}
    (h : effectiveSecret settings record request = .ok secret) :
    secret = request.clientSecret.getD "" ∨ request.clientType = .confidential ∧
      request.clientSecret.getD "" = "" ∧ record = none ∧
      settings.forgejoOauthClientId = some (strip request.clientId) ∧
      ∃ file, settings.forgejoOauthClientSecretFile = some file ∧
        readSecretFile file = .ok secret := by
  unfold effectiveSecret at h
  split at h
  · next file hfile =>
    dsimp only at h
    split at h
    · next hcond => exact .inr ⟨hcond.1, hcond.2.2.1, hcond.2.2.2.1, hcond.2.2.2.2, file, hfile, h⟩
    · exact .inl (Except.ok.inj h).symm
  · exact .inl (Except.ok.inj h).symm

theorem Stores.congr {r r' : ForgejoOAuthConfiguration} (h : Keeps r r') {secret : String}
    (hs : Stores lib r secret) : Stores lib r' secret := by
  obtain ⟨cipher, nonce, hc, hn, hk⟩ := hs
  exact ⟨cipher, nonce, by rw [h.encryptedSecret, h.id, hc], h.nonce.trans hn,
    h.keyVersion.trans hk⟩

theorem NoSecret.congr {r r' : ForgejoOAuthConfiguration} (h : Keeps r r') (hn : NoSecret r) :
    NoSecret r' :=
  ⟨h.encryptedSecret.trans hn.encryptedSecret, h.nonce.trans hn.nonce,
    h.keyVersion.trans hn.keyVersion⟩

/-- The record to update has no secret, or is the old one, of the same confidential client. -/
theorem recordToUpdate_cases (settings : ForgejoSettings) (draws : SaveDraws)
    (record : Option ForgejoOAuthConfiguration) (request : SaveRequest) :
    NoSecret (recordToUpdate settings draws record request) ∨
      ∃ r, record = some r ∧ recordToUpdate settings draws record request = r ∧
        r.clientId = strip request.clientId ∧ request.clientType = .confidential := by
  unfold recordToUpdate
  split
  · exact .inl ⟨rfl, rfl, rfl⟩
  · next hkeep =>
    rw [not_or, not_not] at hkeep
    cases record with
    | none => exact .inl ⟨rfl, rfl, rfl⟩
    | some r =>
      refine .inr ⟨r, rfl, rfl, Option.some.inj hkeep.2, ?_⟩
      cases htype : request.clientType with
      | publicClient => exact absurd htype hkeep.1
      | confidential => rfl

theorem NoSecret.not_stores {r : ForgejoOAuthConfiguration} (h : NoSecret r) {secret : String} :
    ¬ Stores lib r secret := by
  rintro ⟨cipher, nonce, -, hn, -⟩
  cases h.nonce.symm.trans hn

/-- A save without a new secret. -/
theorem Saved.kept_of_empty {history : List SaveEvent} {record : Option ForgejoOAuthConfiguration}
    (hk : ∀ r, record = some r → Kept lib history r) {event : SaveEvent}
    {r' : ForgejoOAuthConfiguration}
    (h : Saved lib event.settings event.draws record event.request r' "") :
    Kept lib (history ++ [event]) r' := by
  have hrevision : ∃ x ∈ history ++ [event], x.draws.revision = r'.revision :=
    ⟨event, by simp, h.revision.symm⟩
  have hkeeps := h.keeps rfl
  rcases recordToUpdate_cases event.settings event.draws record event.request with
    hno | ⟨r, hr, hsame, hid, hconf⟩
  · refine ⟨.inl (hno.congr hkeeps), fun _ => hno.congr hkeeps, fun hen hconf => ?_, hrevision⟩
    -- an enabled confidential client keeps the secret of the same client
    rw [h.enabled] at hen
    rw [h.clientType] at hconf
    obtain ⟨r, rfl, hset, hid⟩ := h.kept hconf hen rfl
    have hsame : recordToUpdate event.settings event.draws (some r) event.request = r := by
      simp [recordToUpdate, currentId, hconf, hid]
    rw [hsame] at hno
    simp [ForgejoOAuthConfiguration.secretConfigured, hno.encryptedSecret] at hset
  · rw [hsame] at hkeeps
    have hkept := hk r hr
    refine ⟨?_, fun hp => ?_, fun hen hconf' => ?_, hrevision⟩
    · rcases hkept.secret with hno | ⟨secret, hstores, hprovided⟩
      · exact .inl (hno.congr hkeeps)
      · refine .inr ⟨secret, hstores.congr hkeeps, ?_⟩
        rw [h.clientId, ← hid]
        refine hprovided.snoc ⟨hid.symm, hconf⟩ ?_
        rcases effectiveSecret_eq_ok h.effective with heq | ⟨-, heq, -⟩
        · exact heq.symm
        · exact heq
    · rw [h.clientType, hconf] at hp
      cases hp
    · rw [h.enabled] at hen
      obtain ⟨r₁, hr₁, hset, -⟩ := h.kept hconf hen rfl
      obtain rfl := Option.some.inj (hr.symm.trans hr₁)
      rcases hkept.secret with hno | ⟨secret, hstores, -⟩
      · simp [ForgejoOAuthConfiguration.secretConfigured, hno.encryptedSecret] at hset
      · exact ⟨secret, hstores.congr hkeeps⟩

/-- A save with a new secret. -/
theorem Saved.kept_of_ne_empty {history : List SaveEvent}
    {record : Option ForgejoOAuthConfiguration} (hfirst : record = none → history = [])
    {event : SaveEvent} {r' : ForgejoOAuthConfiguration} {secret : String}
    (h : Saved lib event.settings event.draws record event.request r' secret)
    (hne : secret ≠ "") : Kept lib (history ++ [event]) r' := by
  have hstores := h.stores hne
  have hprovides : event.request.clientType = .confidential ∧ event.Provides history secret := by
    rcases effectiveSecret_eq_ok h.effective with heq | ⟨hconf, hnil, hr, hid, hfile⟩
    · refine ⟨?_, .inl ?_⟩
      · cases htype : event.request.clientType with
        | publicClient => exact absurd (heq.trans (h.supplied htype)) hne
        | confidential => rfl
      · cases hsupplied : event.request.clientSecret with
        | none => exact absurd (by rw [heq, hsupplied]; rfl) hne
        | some s => rw [heq, hsupplied]; rfl
    · exact ⟨hconf, .inr ⟨hfirst hr, hnil, hid, hfile⟩⟩
  refine ⟨.inr ⟨secret, hstores, history, event, [], rfl, ⟨h.clientId.symm, hprovides.1⟩,
    hprovides.2, fun x hx => absurd hx List.not_mem_nil⟩, fun hp => ?_,
    fun _ _ => ⟨secret, hstores⟩, ⟨event, by simp, h.revision.symm⟩⟩
  rw [h.clientType, hprovides.1] at hp
  cases hp

/-- The record after any sequence of saves. -/
theorem Saves.kept {history : List SaveEvent} {record : Option ForgejoOAuthConfiguration}
    (h : Saves lib history record) :
    (record = none → history = []) ∧ ∀ r, record = some r → Kept lib history r := by
  induction h with
  | start => exact ⟨fun _ => rfl, fun r hr => nomatch hr⟩
  | failed _ _ _ ih => exact ih
  | saved _ event _ hsave ih =>
    refine ⟨fun hnone => (nomatch hnone), fun r hr => ?_⟩
    obtain rfl := Option.some.inj hr
    obtain ⟨secret, hs⟩ := save_saved hsave
    by_cases hempty : secret = ""
    · subst hempty
      exact hs.kept_of_empty ih.2
    · exact hs.kept_of_ne_empty ih.1 hempty

/-! ### Resolving -/

theorem decrypt_eq_ok {cipher : CredentialCipher} {ciphertext nonce : Bytes} {userId : Uuid}
    {keyVersion : ℕ} {purpose text : String}
    (h : cipher.decrypt lib.aead ciphertext nonce userId keyVersion purpose = .ok text) :
    lib.aead.decrypt cipher.key nonce ciphertext (associatedData userId keyVersion purpose) =
      some text := by
  unfold CredentialCipher.decrypt at h
  split at h
  · cases h
  · split at h
    · cases h
    · next hd => rw [hd, Except.ok.inj h]

/-- A stored secret is resolved to what was encrypted. -/
theorem storedSecret_eq_ok {settings : ForgejoSettings} {r : ForgejoOAuthConfiguration}
    {secret : String} (h : storedSecret lib settings r = .ok (some secret)) :
    r.clientType = .confidential ∧ ¬ NoSecret r ∧
      ∀ secret', Stores lib r secret' → secret = secret' := by
  unfold storedSecret at h
  split at h
  · cases h
  · next hconf =>
    split at h
    · next ciphertext nonce keyVersion hc hn hk =>
      split at h
      · cases h
      · split at h
        · cases h
        · next hd =>
          obtain rfl := Option.some.inj (Except.ok.inj h)
          refine ⟨hconf, fun hno => (by cases hno.nonce.symm.trans hn), ?_⟩
          rintro secret' ⟨cipher, nonce', hc', hn', hk'⟩
          obtain rfl := Option.some.inj (hc.symm.trans hc')
          obtain rfl := Option.some.inj (hn.symm.trans hn')
          exact lib.aead.eq_of_decrypt _ _ _ _ _ _ _ (decrypt_eq_ok hd)
    · cases h

theorem environmentConfiguration_eq_ok {settings : ForgejoSettings}
    {c : ForgejoOAuthClientConfiguration} {secret : String}
    (h : environmentConfiguration settings = .ok (some c)) (hs : c.clientSecret = some secret) :
    settings.forgejoOauthClientId = some c.clientId ∧ ∃ file,
      settings.forgejoOauthClientSecretFile = some file ∧ readSecretFile file = .ok secret := by
  unfold environmentConfiguration at h
  split at h
  · next clientId redirectUrl hid hurl =>
    split at h
    · obtain rfl := Option.some.inj (Except.ok.inj h)
      cases hs
    · next file hfile =>
      split at h
      · cases h
      · next hread =>
        obtain rfl := Option.some.inj (Except.ok.inj h)
        obtain rfl := Option.some.inj hs
        exact ⟨hid, file, hfile, hread⟩
  · cases Except.ok.inj h

/-- What an enabled record resolves to. -/
theorem resolve_some_eq_ok {settings : ForgejoSettings} {r : ForgejoOAuthConfiguration}
    {c : ForgejoOAuthClientConfiguration} (h : resolve lib settings (some r) = .ok (some c)) :
    r.enabled = true ∧ c.clientId = r.clientId ∧ c.revision = toString r.revision ∧
      storedSecret lib settings r = .ok c.clientSecret := by
  unfold resolve at h
  dsimp only at h
  split at h
  · cases Except.ok.inj h
  · next hen =>
    split at h
    · cases h
    · next hstored =>
      obtain rfl := Option.some.inj (Except.ok.inj h)
      exact ⟨not_not.1 hen, rfl, rfl, hstored⟩

/-- The client-secret state machine.  After every sequence of saves the columns of the secret are
all set or all null, a public client has no secret and an enabled confidential one has; a resolved
secret is the one provided last for the resolved client, which has been the confidential client ever
since; a save that succeeds changes the revision; and a disabled record resolves to nothing. -/
theorem client_secret_state_machine {history : List SaveEvent}
    {record : Option ForgejoOAuthConfiguration} (h : Saves lib history record) :
    (∀ r, record = some r →
      (NoSecret r ∨ r.encryptedSecret ≠ none ∧ r.nonce ≠ none ∧ r.keyVersion ≠ none) ∧
      (r.clientType = .publicClient → NoSecret r) ∧
      (r.enabled = true → r.clientType = .confidential → ¬ NoSecret r)) ∧
    (∀ settings c secret, resolve lib settings record = .ok (some c) →
      c.clientSecret = some secret →
      record = none ∧ settings.forgejoOauthClientId = some c.clientId ∧
        (∃ file, settings.forgejoOauthClientSecretFile = some file ∧
          readSecretFile file = .ok secret) ∨
      ∃ r, record = some r ∧ c.clientId = r.clientId ∧ ProvidedFor history c.clientId secret) ∧
    (∀ (event : SaveEvent) r', (∀ x ∈ history, x.draws.revision ≠ event.draws.revision) →
      save lib event.settings event.draws record event.request = .ok r' →
      ∀ r, record = some r → r'.revision ≠ r.revision) ∧
    ∀ settings r, record = some r → r.enabled = false →
      resolve lib settings record = .ok none := by
  have hkept := h.kept.2
  refine ⟨fun r hr => ?_, fun settings c secret hc hs => ?_, fun event r' hfresh hsave r hr => ?_,
    fun settings r hr hdisabled => ?_⟩
  · have hk := hkept r hr
    refine ⟨hk.secret.imp_right ?_, hk.publicClient, fun hen hconf hno => ?_⟩
    · rintro ⟨secret, ⟨cipher, nonce, hc, hn, hkv⟩, -⟩
      simp [hc, hn, hkv]
    · obtain ⟨secret, hstores⟩ := hk.enabled hen hconf
      exact hno.not_stores hstores
  · cases record with
    | none => exact .inl ⟨rfl, environmentConfiguration_eq_ok hc hs⟩
    | some r =>
      obtain ⟨-, hid, -, hstored⟩ := resolve_some_eq_ok hc
      rw [hs] at hstored
      obtain ⟨-, hset, heq⟩ := storedSecret_eq_ok hstored
      obtain hno | ⟨secret', hstores, hprovided⟩ := (hkept r rfl).secret
      · exact absurd hno hset
      · obtain rfl := heq secret' hstores
        exact .inr ⟨r, rfl, hid, hid ▸ hprovided⟩
  · obtain ⟨x, hx, hrev⟩ := (hkept r hr).revision
    obtain ⟨secret, hs⟩ := save_saved hsave
    rw [hs.revision, ← hrev]
    exact (hfresh x hx).symm
  · subst hr
    simp [resolve, hdisabled]

/-- A confidential client is saved with a secret. -/
def sampleSupply : SaveEvent :=
  ⟨sampleSettings, ⟨0, 1, [7]⟩, ⟨0, true, "client", "https://mcp.example", .confidential, "s3cret"⟩⟩

/-- It is saved again without one. -/
def sampleKeep : SaveEvent :=
  ⟨sampleSettings, ⟨2, 3, [8]⟩, ⟨0, true, "client", "https://mcp.example", .confidential, none⟩⟩

/-- The record of the sample, after both saves. -/
def sampleRecord (revision : Uuid) : ForgejoOAuthConfiguration :=
  ⟨0, true, "client", .confidential, "https://mcp.example",
    some ("s3cret".toList.map Char.toNat), some [7], some 1, revision, 0⟩

theorem client_secret_sample : Saves sampleLibrary [sampleSupply, sampleKeep] (sampleRecord 3) ∧
    ProvidedFor [sampleSupply, sampleKeep] "client" "s3cret" := by
  have hsupply : save sampleLibrary sampleSettings sampleSupply.draws none sampleSupply.request =
      .ok (sampleRecord 1) := by decide +kernel
  have hkeep : save sampleLibrary sampleSettings sampleKeep.draws (some (sampleRecord 1))
      sampleKeep.request = .ok (sampleRecord 3) := by decide +kernel
  have hsaves : Saves sampleLibrary [sampleSupply, sampleKeep] (sampleRecord 3) :=
    .saved (.saved .start sampleSupply (by decide) hsupply) sampleKeep (by decide) hkeep
  refine ⟨hsaves, ?_⟩
  have hresolve : resolve sampleLibrary sampleSettings (some (sampleRecord 3)) = .ok (some
      ⟨"client", "https://mcp.example/api/me/credential/oauth/callback", "s3cret", "3"⟩) := by
    decide +kernel
  rcases (client_secret_state_machine hsaves).2.1 _ _ _ hresolve rfl with ⟨h, -⟩ | ⟨r, -, -, h⟩
  · cases h
  · exact h

end ForgejoMcp.Forgejo
