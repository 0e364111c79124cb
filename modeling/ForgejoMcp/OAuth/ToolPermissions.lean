import ForgejoMcp.OAuth.Service

/-!
# Tool permissions

The functions of `application/tool_permission_service.py` that write, and of
`db/repositories/tool_permissions.py` below them.
-/

namespace ForgejoMcp.OAuth

open Transactions Rows

/-- `sync_registry`: an upsert for every tool of the registry, in order. -/
def syncRegistry : List ToolSpec → P Unit
  | [] => return ()
  | spec :: specs => do
    toolSettings.upsert ⟨spec.name, false, spec.version⟩
      ⟨fun r => { r with registryVersion := spec.version }, fun _ => rfl⟩
    syncRegistry specs

/-- `_require_tools`. -/
def requireTools (d : Deployment) (toolNames : List String) : P Unit :=
  let unknown := toolNames.filter (· ∉ d.registry.map (·.name))
  Prog.rejectIf (unknown ≠ [])
    (.validationFailed ("unknown tools: " ++ String.intercalate ", " (sorted unknown)))

/-- `allowance_names`, evaluated on one snapshot. -/
def Db.allowanceNames (db : Db) (userId : Uuid) : List String :=
  (db.userToolAllowances.select fun r => r.userId = userId).map (·.toolName)

/-- `set_global_enabled`. -/
def setGlobalEnabled (d : Deployment) (actorAccountId : Uuid) (toolName : String)
    (enabled : Bool) : P Unit :=
  withSession do
    requireTools d [toolName]
    syncRegistry d.registry
    let _ ← toolSettings.update (fun r => r.toolName = toolName)
      ⟨fun r => { r with enabled := enabled }, fun _ => rfl⟩
    audit ⟨actorAccountId, "tool.global_setting_updated", "tool", toolName⟩
    commit (.setting toolName enabled)

/-- `replace_allowances`: prune the grants of the user's tokens, then replace the allowances. The
result is the number of commits before the pruning. -/
def replaceAllowances (userId : Uuid) (toolNames : List String) : P ℕ := do
  let prunedAt ← mcpTokenToolGrants.delete fun db r =>
    (db.mcpTokens.get r.mcpTokenId).any (fun token => token.userId = userId) ∧
      r.toolName ∉ toolNames
  let _ ← userToolAllowances.delete fun _ r => r.userId = userId
  userToolAllowances.insert ((sorted toolNames).map fun name => ⟨userId, name⟩) .integrityError
  return prunedAt

/-- `replace_user_allowances`. -/
def replaceUserAllowances (d : Deployment) (actorAccountId userId : Uuid)
    (toolNames : List String) : P (List String) :=
  withSession do
    let user ← getUser userId
    Prog.rejectIf (user = none) (.notFound "user not found")
    requireTools d toolNames
    syncRegistry d.registry
    let prunedAt ← replaceAllowances userId toolNames
    audit ⟨actorAccountId, "tool.user_allowances_updated", "user", toString userId⟩
    commit (.allowances userId toolNames prunedAt)
    return toolNames

/-- `_owned_token`; the result is the number of commits before the token was read. -/
def ownedToken (userId tokenId : Uuid) : P ℕ := do
  let (ownedAt, record) ← query fun n db =>
    (n, (db.mcpTokens.get tokenId).filter fun r => r.userId = userId)
  let record ← Prog.require record (.notFound "MCP token not found")
  Prog.rejectIf (record.revokedAt ≠ none)
    (.invalidOperation "cannot modify grants for a revoked MCP token")
  return ownedAt

/-- `replace_grants`. -/
def replaceGrants (tokenId : Uuid) (toolNames : List String) : P Unit := do
  let _ ← mcpTokenToolGrants.delete fun _ r => r.mcpTokenId = tokenId
  mcpTokenToolGrants.insert ((sorted toolNames).map fun name => ⟨tokenId, name⟩) .integrityError

/-- `replace_token_grants`. -/
def replaceTokenGrants (d : Deployment) (actorAccountId userId tokenId : Uuid)
    (toolNames : List String) : P (List String) :=
  withSession do
    let ownedAt ← ownedToken userId tokenId
    requireTools d toolNames
    syncRegistry d.registry
    let allowances ← query fun _ db => db.allowanceNames userId
    Prog.rejectIf (¬ toolNames ⊆ allowances)
      (.validationFailed "token grants must be a subset of the user tool allowance")
    replaceGrants tokenId toolNames
    audit ⟨actorAccountId, "tool.token_grants_updated", "mcp_token", toString tokenId⟩
    commit (.grants tokenId toolNames ownedAt)
    return toolNames

end ForgejoMcp.OAuth
