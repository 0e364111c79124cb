import ForgejoMcp.OAuth.Invariant

/-!
# What a row lock protects

A commit that does not have a row in its footprint leaves alone what the lock of that row stands
for: an authorization request, a code, a whole family, the standing of a token, and, for the rows of
the tool registry, the allowances and the grants of the tokens there are.
-/

namespace ForgejoMcp.OAuth

open Transactions

variable {d : Deployment} {base : Db} {h : List (Entry sorts)} {e : Entry sorts}

theorem Step.request_stays (hs : Step d base h e) {k : Uuid}
    (hk : Key.request k ∉ footprint d e.label) :
    Table.Stays k (after base h).authorizationRequests e.db.authorizationRequests := by
  have resolved : ∀ {request : Uuid} {now : Time}, request ≠ k →
      Table.Stays k (after base h).authorizationRequests
        ((after base h).resolveRequest request now).authorizationRequests :=
    fun hne => .update fun r hr => decide_eq_false fun heq => hne (heq.symm.trans hr)
  cases hs.consentChange with
  | same hreq _ => rw [hreq]; exact .refl _ _
  | requested request hreq _ => rw [hreq]; exact .insert _ _ _
  | denied request now hl hreq _ =>
    rw [hreq]
    exact resolved fun heq => hk (by rw [hl, heq]; exact List.mem_cons_self)
  | approved request code secret tools now hl _ _ _ hreq _ =>
    rw [hreq]
    exact resolved fun heq => hk (by rw [hl, heq]; exact List.mem_cons_self)
  | consumed codeId i now _ hreq _ => rw [hreq]; exact .refl _ _

theorem Step.code_stays (hs : Step d base h e) {k : Uuid} (hk : Key.code k ∉ footprint d e.label) :
    Table.Stays k (after base h).authorizationCodes e.db.authorizationCodes := by
  cases hs.consentChange with
  | same _ hcode => rw [hcode]; exact .refl _ _
  | requested request _ hcode => rw [hcode]; exact .refl _ _
  | denied request now _ _ hcode => rw [hcode]; exact .refl _ _
  | approved request code secret tools now _ _ _ _ _ hcode => rw [hcode]; exact .insert _ _ _
  | consumed codeId i now hl _ hcode =>
    rw [hcode]
    refine .update fun r hr => decide_eq_false fun heq => hk ?_
    rw [hl, ← hr, heq]
    exact List.mem_cons_self

/-- A commit that does not touch a family leaves it as it is. -/
theorem Start.sameFamily (hs : Start base) (hv : Valid (Step d) base h) (hstep : Step d base h e)
    {f : Uuid} (hf : Key.family f ∉ footprint d e.label) : SameFamily f (after base h) e.db :=
  SameFamily.step (hs.consistent_of_valid hv).known (hs.consistent_of_valid hv).linked hstep
    fun h => hf (mem_footprint_family.2 h)

/-- The token `m`, if there is one, has the same columns in `b`, but for its last use. -/
def SameStanding (m : Uuid) (a b : Db) : Prop :=
  ∀ token, a.mcpTokens.get m = some token →
    ∃ token', b.mcpTokens.get m = some token' ∧ token'.standing = token.standing

namespace SameStanding

variable {m : Uuid} {a b c : Db}

theorem refl (m : Uuid) (a : Db) : SameStanding m a a := fun token h => ⟨token, h, rfl⟩

theorem trans (hab : SameStanding m a b) (hbc : SameStanding m b c) : SameStanding m a c := by
  intro token h
  obtain ⟨token', h', hst'⟩ := hab token h
  obtain ⟨token'', h'', hst''⟩ := hbc token' h'
  exact ⟨token'', h'', hst''.trans hst'⟩

theorem of_stays (h : Table.Stays m a.mcpTokens b.mcpTokens) : SameStanding m a b :=
  fun token ht => ⟨token, h token ht, rfl⟩

theorem step (hs : Step d base h e) (hm : Key.mcpToken m ∉ footprint d e.label) :
    SameStanding m (after base h) e.db := by
  cases hs.coreChange with
  | same _ _ hdb => exact .of_stays (hdb.mcpTokens ▸ .refl _ _)
  | issued codeId i code _ _ hdb => exact .of_stays (hdb.mcpTokens ▸ .insert _ _ _)
  | rotated parent m' readAt now i r hl _ hdb =>
    refine .of_stays (hdb.mcpTokens ▸ .trans (.update fun s hs => ?_) (.insert _ _ _))
    refine decide_eq_false fun heq => hm ?_
    rw [hl, ← hs, heq.1]
    simp [footprint]
  | revoked f tokens time _ _ htouch _ _ hdb =>
    exact .of_stays (hdb.mcpTokens ▸ .update fun s hs =>
      decide_eq_false fun hmem => hm (htouch m (hs ▸ hmem)))
  | dashboard f token tokens time now _ _ htouch _ _ htoken hdb =>
    refine .of_stays (hdb.mcpTokens ▸ .trans (.update fun s hs => ?_) (.update fun s hs => ?_))
    · exact decide_eq_false fun hmem => hm (htouch m (hs ▸ hmem))
    · exact decide_eq_false fun heq => hm (htouch m (hs ▸ heq ▸ htoken))
  | disabled token row now _ _ htouch _ _ hdb =>
    exact .of_stays (hdb.mcpTokens ▸ .update fun s hs =>
      decide_eq_false fun heq => hm (hs ▸ heq ▸ htouch))
  | created token secret _ _ _ _ _ hdb => exact .of_stays (hdb.mcpTokens ▸ .insert _ _ _)
  | used token now _ _ hdb =>
    intro row hrow
    rw [hdb.mcpTokens]
    exact exists_of_map_eq (Table.map_get_update McpToken.standing _ (fun _ => rfl) m).symm hrow

end SameStanding

/-- The same allowances, and the same grants of every token of `a`. -/
structure SamePermissions (a b : Db) : Prop where
  allowances : b.userToolAllowances = a.userToolAllowances
  tokens : ∀ m, a.mcpTokens.get m ≠ none → b.mcpTokens.get m ≠ none
  grants : ∀ m, a.mcpTokens.get m ≠ none → ∀ tool, b.Granted m tool ↔ a.Granted m tool

namespace SamePermissions

variable {a b c : Db}

theorem refl (a : Db) : SamePermissions a a := ⟨rfl, fun _ h => h, fun _ _ _ => .rfl⟩

theorem trans (hab : SamePermissions a b) (hbc : SamePermissions b c) : SamePermissions a c where
  allowances := hbc.allowances.trans hab.allowances
  tokens := fun m hm => hbc.tokens m (hab.tokens m hm)
  grants := fun m hm tool => (hbc.grants m (hab.tokens m hm) tool).trans (hab.grants m hm tool)

theorem step (hk : KnownRows (Known d base h) (after base h)) (hs : Step d base h e)
    (hr : registryKey d ∉ footprint d e.label) : SamePermissions (after base h) e.db := by
  have htokens : ∀ m, (after base h).mcpTokens.get m ≠ none → e.db.mcpTokens.get m ≠ none := by
    intro m hm
    obtain ⟨token, htoken⟩ := Option.ne_none_iff_exists'.1 hm
    obtain ⟨token', htoken', -⟩ := (Later.step hs).mcpTokens m token htoken
    exact htoken' ▸ Option.some_ne_none token'
  cases hs.permissionChange with
  | same _ hgrants hallow =>
    refine ⟨hallow, htokens, fun m _ tool => ?_⟩
    rw [Db.Granted, hgrants, Db.Granted]
  | issued i _ hfresh hgrants hallow =>
    refine ⟨hallow, htokens, fun m hm tool => ?_⟩
    rw [Db.Granted, hgrants, Db.Granted]
    refine ⟨fun hmem => ?_, Table.mem_insertAll_of_mem⟩
    rcases Table.mem_or_mem_of_mem_insertAll hmem with hmem | hmem
    · exact hmem
    · -- the new grants are of a token that did not exist
      obtain ⟨name, -, heq⟩ := List.mem_map.1 hmem
      have hid : i.accessId = m := congrArg McpTokenToolGrant.mcpTokenId heq
      exact absurd (hk.mcpTokens.get_eq_none hfresh.not_known) (hid ▸ hm)
  | allowances userId toolNames prunedAt pruned hl _ _ _ =>
    exact absurd (by rw [hl]; exact registryKey_mem d) hr
  | grants tokenId toolNames ownedAt userId hl _ _ _ =>
    exact absurd (by rw [hl]; exact registryKey_mem d) hr

end SamePermissions

end ForgejoMcp.OAuth
