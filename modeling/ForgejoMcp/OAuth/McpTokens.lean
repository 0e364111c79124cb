import ForgejoMcp.Forgejo.Configuration
import ForgejoMcp.OAuth.Service

/-!
# The Dashboard's token service

The functions of `application/mcp_token_service.py` that write tokens.
-/

namespace ForgejoMcp.OAuth

open Transactions Rows
open Forgejo (strip)

/-- `description.strip() if description else None`, with an empty result read as absent. -/
def normalizedDescription (description : Option String) : Option String :=
  (description.map strip).filter (· ≠ "")

/-- `McpTokenService.create`. An expiry carries a timezone here. -/
def createMcpToken (d : Deployment) (actorAccountId userId : Uuid) (name : String)
    (description : Option String) (expiresAt : Option Time) : P (McpToken × String) :=
  withSession do
    let user ← Prog.require (← getUser userId) (.notFound "user not found")
    Prog.rejectIf (user.status ≠ .active) (.invalidOperation "MCP tokens require an active user")
    Prog.rejectIf (strip name = "") (.validationFailed "token name is required")
    let now ← now
    Prog.rejectIf (expiresAt.any fun time => time ≤ now)
      (.validationFailed "token expiry must be in the future")
    let secret ← fresh
    let id ← fresh
    let plaintext := d.newMcpToken secret
    let record : McpToken := {
      id := id
      userId := userId
      name := strip name
      description := normalizedDescription description
      tokenPrefix := mcpTokenPrefix plaintext
      tokenHash := d.hashToken plaintext
      kind := .static
      enabled := true
      expiresAt := expiresAt
      revokedAt := none
      lastUsedAt := none }
    mcpTokens.insert [record] (.invalidOperation "could not issue a unique MCP token")
    audit ⟨actorAccountId, "mcp_token.created", "mcp_token", toString id⟩
    commit (.created id secret)
    return (record, plaintext)

/-- The family of an OAuth token; other tokens have none. -/
def dashboardFamily (record : McpToken) : P (Option Uuid) :=
  if record.kind = .oauth then oauthFamilyForMcpToken record.id else return none

/-- The family revocation of `_revoke`, with its audit event. -/
def revokeFamilyByDashboard (actorAccountId : Uuid) (familyId : Option Uuid) (now : Time) :
    P (Option (Uuid × List Uuid)) :=
  match familyId with
  | none => return none
  | some familyId => do
    let tokens ← revokeOauthFamily familyId now
    audit ⟨actorAccountId, "oauth.token_family_revoked_by_dashboard", "oauth_family",
      toString familyId⟩
    return some (familyId, tokens)

/-- `_revoke`. -/
def revokeMcpTokenRecord (actorAccountId : Uuid) (record : McpToken) : P Unit := do
  Prog.rejectIf (record.revokedAt ≠ none) (.invalidOperation "MCP token is already revoked")
  let now ← now
  let familyId ← dashboardFamily record
  let family ← revokeFamilyByDashboard actorAccountId familyId now
  mcpTokens.updateKey record.id ⟨fun r => { r with enabled := false, revokedAt := some now },
    fun _ => rfl⟩
  audit ⟨actorAccountId, "mcp_token.revoked", "mcp_token", toString record.id⟩
  commit (.dashboard record.id family)

/-- `revoke_for_user`. -/
def revokeForUser (actorAccountId userId tokenId : Uuid) : P Unit :=
  withSession do
    let found ← mcpTokens.select fun r => r.id = tokenId ∧ r.userId = userId
    let record ← Prog.require found.head? (.notFound "MCP token not found")
    revokeMcpTokenRecord actorAccountId record

/-- `revoke_as_admin`. -/
def revokeAsAdmin (actorAccountId tokenId : Uuid) : P Unit :=
  withSession do
    let record ← Prog.require (← mcpTokens.find tokenId) (.notFound "MCP token not found")
    revokeMcpTokenRecord actorAccountId record

end ForgejoMcp.OAuth
