import ForgejoMcp.Credentials.Invariant

/-!
# What a row lock protects

A commit that does not have a row in its footprint leaves alone what the lock of that row stands
for: a credential, the active credential of a user, a linking request, the instance, and the OAuth
configuration.
-/

namespace ForgejoMcp.Credentials

open Transactions

variable {server : Server} {base : Db} {h : List (Entry sorts)} {e : Entry sorts}

theorem Step.credential_stays (hs : Step server base h e) {c : Uuid}
    (hc : Key.credential c ∉ footprint e.label) :
    Table.Stays c (after base h).forgejoCredentials e.db.forgejoCredentials := by
  have revoked : ∀ {found : Option Uuid} {now : Time}, found ≠ some c →
      Table.Stays c (after base h).forgejoCredentials
        ((after base h).revokeFound found now).forgejoCredentials := by
    intro found now hne r hr
    have hid : r.id = c := (Table.get_eq_some.1 hr).2
    rw [get_revokeFound, hr, Option.map_some, ForgejoCredential.revokeIf, if_neg (hid ▸ hne)]
  cases hs.credentialChange with
  | same hdb _ => rw [hdb]; exact .refl _ _
  | revoked found now hdb _ hlocked => rw [hdb]; exact revoked fun hfound => hc (hlocked c hfound)
  | saved row replaced pair readAt now hl hdb _ =>
    rw [hdb]
    refine (revoked fun hfound => hc ?_).trans (.insert _ _ _)
    rw [hl, footprint, hfound]
    simp
  | refreshed id pair row access refresh expiresAt hl hdb _ _ _ _ =>
    rw [hdb]
    refine .update fun r hr => decide_eq_false fun heq => hc ?_
    rw [hl, ← hr, heq]
    exact List.mem_singleton_self _

theorem Step.activeFrom_of_unlocked (hs : Step server base h e) {userId : Uuid}
    (hu : Key.activeCredential userId ∉ footprint e.label) :
    ActiveFrom userId (after base h) e.db := by
  refine hs.activeFrom fun hsaves => hu ?_
  cases hl : e.label <;> rw [hl] at hsaves <;> cases hsaves
  simp [footprint]

theorem Step.request_stays (hs : Step server base h e) {k : Uuid}
    (hk : Key.request k ∉ footprint e.label) :
    Table.Stays k (after base h).forgejoOauthRequests e.db.forgejoOauthRequests := by
  cases hs.requestChange with
  | same hdb => rw [hdb]; exact .refl _ _
  | started request deleted p hl hdb _ _ =>
    rw [hdb]
    intro r hr
    refine Table.get_insert_of_get (Table.get_eq_some.2 ⟨Table.mem_delete.2
      ⟨Table.mem_of_get hr, ?_⟩, Table.key_of_get hr⟩)
    have hid : r.id = k := Table.key_of_get hr
    have hdel : r.id ∉ deleted := fun hmem => hk (by
      rw [hl, footprint, ← hid]
      exact List.mem_cons_of_mem _ (List.mem_map_of_mem hmem))
    simp [hdel]
  | consumed request time now hl hdb _ _ =>
    rw [hdb]
    refine .update fun r hr => decide_eq_false fun heq => hk ?_
    rw [hl, ← hr, heq]
    exact List.mem_singleton_self _

/-- What a commit does to the instance and to the OAuth configuration. -/
structure SettingsChange (base : Db) (h : List (Entry sorts)) (e : Entry sorts) : Prop where
  inst : e.label ≠ .instanceConfigured → e.db.forgejoInstances = (after base h).forgejoInstances
  configuration : (∀ first, e.label ≠ .configurationSaved first) →
    e.db.forgejoOauthConfigurations = (after base h).forgejoOauthConfigurations

theorem forgejoInstances_revokeFound (db : Db) (found : Option Uuid) (now : Time) :
    (db.revokeFound found now).forgejoInstances = db.forgejoInstances := by
  cases found <;> rfl

theorem forgejoOauthConfigurations_revokeFound (db : Db) (found : Option Uuid) (now : Time) :
    (db.revokeFound found now).forgejoOauthConfigurations = db.forgejoOauthConfigurations := by
  cases found <;> rfl

theorem Step.settingsChange (hs : Step server base h e) : SettingsChange base h e := by
  have same : e.db.forgejoInstances = (after base h).forgejoInstances →
      e.db.forgejoOauthConfigurations = (after base h).forgejoOauthConfigurations →
      SettingsChange base h e := fun hi hc => ⟨fun _ => hi, fun _ => hc⟩
  unfold Step at hs
  cases hl : e.label <;> simp only [hl] at hs
  case requestStarted =>
    obtain ⟨p, created, hdb, -⟩ := hs
    exact same (hdb ▸ rfl) (hdb ▸ rfl)
  case requestConsumed => obtain ⟨now, hdb, -⟩ := hs; exact same (hdb ▸ rfl) (hdb ▸ rfl)
  case verificationFailed => exact same (hs ▸ rfl) (hs ▸ rfl)
  case tokenRead => exact same (hs ▸ rfl) (hs ▸ rfl)
  case credentialSaved =>
    obtain ⟨now, hdb, -⟩ := hs
    exact same (hdb ▸ forgejoInstances_revokeFound _ _ _)
      (hdb ▸ forgejoOauthConfigurations_revokeFound _ _ _)
  case credentialRefreshed =>
    obtain ⟨row, access, refresh, expiresAt, hdb, -⟩ := hs
    exact same (hdb ▸ rfl) (hdb ▸ rfl)
  case credentialRevoked => obtain ⟨now, hdb⟩ := hs; exact same (hdb ▸ rfl) (hdb ▸ rfl)
  case userUpdated =>
    obtain ⟨loaded, value, now, hdb, -⟩ := hs
    exact same (hdb ▸ forgejoInstances_revokeFound _ _ _)
      (hdb ▸ forgejoOauthConfigurations_revokeFound _ _ _)
  case userDisabled =>
    obtain ⟨loaded, value, now, accounts, sessions, hdb, -⟩ := hs
    exact same (hdb ▸ forgejoInstances_revokeFound _ _ _)
      (hdb ▸ forgejoOauthConfigurations_revokeFound _ _ _)
  case userEnabled =>
    obtain ⟨loaded, value, accounts, hdb, -⟩ := hs
    exact same (hdb ▸ rfl) (hdb ▸ rfl)
  case instanceConfigured =>
    obtain ⟨instances, hdb⟩ := hs
    exact ⟨fun hne => absurd hl hne, fun _ => hdb ▸ rfl⟩
  case configurationSaved first =>
    obtain ⟨configurations, hdb, -⟩ := hs
    exact ⟨fun _ => hdb ▸ rfl, fun hne => absurd hl (hne first)⟩
  case environment =>
    obtain ⟨change, hdb⟩ := hs
    refine same ?_ ?_ <;> rw [hdb] <;> cases change <;> rw [envDb] <;> split <;> rfl

theorem Step.configuration_eq (hs : Step server base h e)
    (hc : Key.configuration ∉ footprint e.label) :
    e.db.forgejoOauthConfigurations = (after base h).forgejoOauthConfigurations :=
  hs.settingsChange.configuration fun first hl => hc (by rw [hl]; exact List.mem_singleton_self _)

theorem Step.instance_eq (hs : Step server base h e)
    (hi : Key.forgejoInstance ∉ footprint e.label) :
    e.db.forgejoInstances = (after base h).forgejoInstances :=
  hs.settingsChange.inst fun hl => hi (by rw [hl]; exact List.mem_singleton_self _)

end ForgejoMcp.Credentials
