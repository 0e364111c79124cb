import ForgejoMcp.Credentials.Refinement.System

/-!
# Where the tokens of Forgejo go

An access token is handed out, and a refresh token is sent, for the base URL and the client of the
credential they are stored in only; and a record of the OAuth configuration that allowed it is locked
until the call has ended.  Without a record the configuration of the environment is used, and nothing
is locked: linking may then be disabled by the first record before the refresh token is sent.
-/

namespace ForgejoMcp.Credentials

open Transactions
open Forgejo (ForgejoOAuthClientConfiguration)

variable {server : Server} {c c' : Config sorts Call Raised Result} {q : Query}

/-! ### A refresh that is sent -/

/-- The refresh token is that of an active OAuth credential, and goes to the base URL of that
credential with its client; the URL is permitted, and is that of the instance. -/
structure Db.Issued (server : Server) (q : Query) (token : String)
    (configuration : ForgejoOAuthClientConfiguration) (db : Db) : Prop where
  credential : ∃ row ∈ db.forgejoCredentials, row.status = .active ∧ row.kind = .oauth ∧
    Seals server row.encryptedRefreshToken row.refreshNonce token ∧
    row.oauthBaseUrl = some q.baseUrl ∧ row.oauthClientId = some configuration.clientId
  permitted : server.settings.permitsForgejoBaseUrl q.baseUrl = true
  inst : ∃ inst, db.forgejoInstances.get () = some inst ∧ inst.baseUrl = q.baseUrl

/-- Linking is enabled: by the record of the OAuth configuration, or without one by the environment. -/
def Db.LinkingEnabled (server : Server) (db : Db) : Prop :=
  match db.forgejoOauthConfigurations.get () with
  | some record => record.enabled = true
  | none => ∃ configuration,
      Forgejo.environmentConfiguration server.settings = .ok (some configuration)

/-- The configuration is that of the environment, and a record that disables linking is stored. -/
def Db.Overrides (server : Server) (configuration : ForgejoOAuthClientConfiguration) (db : Db) :
    Prop :=
  Forgejo.environmentConfiguration server.settings = .ok (some configuration) ∧
    ∃ record, db.forgejoOauthConfigurations.get () = some record ∧ record.enabled = false

/-- The record of a configuration that is in effect is enabled. -/
theorem Db.enabled_of_configured {configuration : ForgejoOAuthClientConfiguration} {db : Db}
    (h : db.configured server configuration) {record : Forgejo.ForgejoOAuthConfiguration}
    (hrecord : db.forgejoOauthConfigurations.get () = some record) : record.enabled = true := by
  rw [Db.configured, hrecord, Forgejo.resolve] at h
  by_contra hno
  rw [if_pos hno] at h
  cases h

/-- A configuration that was looked up allows linking, unless it is that of the environment and has
been overridden. -/
theorem Db.linkingEnabled_iff {configuration : ForgejoOAuthClientConfiguration} {db : Db}
    (h : Forgejo.environmentConfiguration server.settings = .ok (some configuration) ∨
      db.configured server configuration) :
    db.LinkingEnabled server ↔ ¬ db.Overrides server configuration := by
  rw [Db.LinkingEnabled, Db.Overrides]
  cases hrecord : db.forgejoOauthConfigurations.get () with
  | none =>
    have henv : Forgejo.environmentConfiguration server.settings = .ok (some configuration) := by
      rcases h with h | h
      · exact h
      · rwa [Db.configured, hrecord] at h
    refine iff_of_true ⟨configuration, henv⟩ ?_
    rintro ⟨-, record, hc, -⟩
    cases hc
  | some record =>
    rcases h with h | h
    · simp [h]
    · have henabled := Db.enabled_of_configured h hrecord
      simp [henabled]

theorem refresh_issued_iff (hc : Reachable server c) (hs : (system server).Step c c') {t : ℕ}
    {answer : Answer} (hq : (t, q, answer) ∈ c'.shared.asks.drop c.shared.asks.length)
    {token : String} {configuration : ForgejoOAuthClientConfiguration}
    (hrequest : q.request = .token (.refreshToken token) configuration) :
    c.shared.current.Issued server q token configuration ∧
        c.shared.current.LinkingEnabled server ↔
      ¬ c.shared.current.Overrides server configuration := by
  have hformed : q.Formed :=
    (reachable_inv (hc.steps (.single hs))).side.formed _ (List.mem_of_mem_drop hq)
  obtain ⟨credential, hpurpose⟩ := hformed.exists_refreshes hrequest
  obtain ⟨hpermitted, hinst, row, token', configuration', hget, hactive, hkind, hurl, hclient,
    hseals, hrequest', heffect⟩ := refresh_sent hc hs hq hpurpose
  rw [hrequest] at hrequest'
  cases hrequest'
  have hissued : c.shared.current.Issued server q token configuration :=
    ⟨⟨row, Table.mem_of_get hget, hactive, hkind, hseals, hurl, hclient⟩, hpermitted, hinst⟩
  rw [← Db.linkingEnabled_iff heffect]
  exact and_iff_right hissued

/-! ### The result -/

/-- An access token that a call returns was that of an active OAuth credential of the user, for the
instance it is returned with; and a refresh token is sent to the base URL and with the client of its
credential while linking is enabled, unless it is sent with the configuration of the environment after
a record has disabled linking. -/
theorem tokens_reach_issuer (hc : Reachable server c) :
    (∀ (t : ℕ) (th : Thread sorts Call Raised Result) userId inst token, c.threads[t]? = some th →
      th.call = .accessToken userId ∨ th.call = .connection userId →
        th.prog = some (.ret (.connection inst (.oauth token))) →
          Lends server userId th.started inst token c.shared) ∧
    ∀ c' (t : ℕ) q answer token configuration, (system server).Step c c' →
      (t, q, answer) ∈ c'.shared.asks.drop c.shared.asks.length →
        q.request = .token (.refreshToken token) configuration →
          (c.shared.current.Issued server q token configuration ∧
              c.shared.current.LinkingEnabled server ↔
            ¬ c.shared.current.Overrides server configuration) :=
  ⟨fun _ _ _ inst token ht hcall hret =>
      (connection_handed hc ht hcall (.inl ⟨_, rfl, hret⟩)).2 inst token rfl,
    fun _ _ _ _ _ _ hs hq hrequest => refresh_issued_iff hc hs hq hrequest⟩

/-! ### Samples -/

/-- A script that stops before the refresh of the sample user is sent by thread 2. -/
def beforeRefresh (before : List (Cue sorts Call)) : Config sorts Call Raised Result :=
  sampleRun (sampleLink ++ sampleRefresh [] :: before)

theorem tokens_reach_issuer_sample :
    (beforeRefresh []).shared.current.Issued sampleServer sampleRefreshQuery "refresh-1"
      ⟨"client", "https://mcp.example/api/me/credential/oauth/callback", none, "environment"⟩ := by
  have hsent : ((system sampleServer).next (.step 2 .failed) (beforeRefresh [])).map (fun c' =>
      c'.shared.asks.drop (beforeRefresh []).shared.asks.length) =
        some [(2, sampleRefreshQuery, .failed)] := by
    decide +kernel
  obtain ⟨c', hnext, hasks⟩ := Option.map_eq_some_iff.1 hsent
  refine (((tokens_reach_issuer (sampleRun_reachable _)).2 c' 2 sampleRefreshQuery .failed _ _
    ⟨_, hnext⟩ (hasks ▸ List.mem_singleton_self _) rfl).2 ?_).1
  rintro ⟨-, record, hrecord, -⟩
  have hnone : (beforeRefresh []).shared.current.forgejoOauthConfigurations.get () = none := by
    decide +kernel
  cases hnone.symm.trans hrecord

/-- An administrator disables linking once the configuration of the environment was looked up. -/
def disablesLinking : Cue sorts Call :=
  alone (.saveConfiguration ⟨0, false, "client", "https://mcp.example", .publicClient, none⟩)

theorem refresh_sent_while_disabled : ∃ c c' : Config sorts Call Raised Result,
    Reachable sampleServer c ∧ (system sampleServer).Step c c' ∧
      (2, sampleRefreshQuery, .failed) ∈ c'.shared.asks.drop c.shared.asks.length ∧
        ¬ c.shared.current.LinkingEnabled sampleServer := by
  have hsent : ((system sampleServer).next (.step 2 .failed) (beforeRefresh [disablesLinking])).map
      (fun c' => c'.shared.asks.drop (beforeRefresh [disablesLinking]).shared.asks.length) =
        some [(2, sampleRefreshQuery, .failed)] := by
    decide +kernel
  obtain ⟨c', hnext, hasks⟩ := Option.map_eq_some_iff.1 hsent
  refine ⟨beforeRefresh [disablesLinking], c', sampleRun_reachable _, ⟨_, hnext⟩,
    hasks ▸ List.mem_singleton_self _, fun henabled => ?_⟩
  have hrecord : ((beforeRefresh [disablesLinking]).shared.current.forgejoOauthConfigurations.get
      ()).map (·.enabled) = some false := by
    decide +kernel
  obtain ⟨record, hget, hdisabled⟩ := Option.map_eq_some_iff.1 hrecord
  rw [Db.LinkingEnabled, hget] at henabled
  cases hdisabled.symm.trans henabled

end ForgejoMcp.Credentials
