import ForgejoMcp.OAuth.Database

/-!
# Revocation of token families

The functions of `application/oauth_revocation.py`.
-/

namespace ForgejoMcp.OAuth

open Transactions Rows

/-- `lock_oauth_family`. -/
def lockOauthFamily (familyId : Uuid) : P (Option OAuthTokenFamily) :=
  tokenFamilies.selectForUpdate fun r => r.id = familyId

/-- `oauth_family_for_mcp_token`: a join of the access link with its refresh token. -/
def oauthFamilyForMcpToken (tokenId : Uuid) : P (Option Uuid) :=
  query fun _ db => do
    let link ← db.accessTokens.get tokenId
    let refresh ← db.refreshTokens.get link.refreshTokenId
    return refresh.familyId

/-- `revoke_oauth_family`. -/
def revokeOauthFamily (familyId : Uuid) (revokedAt : Time) : P (List Uuid) := do
  let family ← Prog.require (← lockOauthFamily familyId)
    (.valueError "OAuth token family is missing")
  let effectiveRevokedAt := family.revokedAt.getD revokedAt
  tokenFamilies.updateKey familyId ⟨fun r => { r with revokedAt := effectiveRevokedAt },
    fun _ => rfl⟩
  let tokenIds ← query fun _ db =>
    (db.refreshTokens.select fun r => r.familyId = familyId).filterMap (·.mcpTokenId)
  let _ ← refreshTokens.update (fun r => r.familyId = familyId)
    ⟨fun r => { r with revokedAt := effectiveRevokedAt }, fun _ => rfl⟩
  if tokenIds = [] then
    return tokenIds
  else do
    let _ ← mcpTokens.update (fun r => r.id ∈ tokenIds)
      ⟨fun r => { r with enabled := false, revokedAt := effectiveRevokedAt }, fun _ => rfl⟩
    let _ ← accessTokens.update (fun r => r.mcpTokenId ∈ tokenIds)
      ⟨fun r => { r with revokedAt := effectiveRevokedAt }, fun _ => rfl⟩
    return tokenIds

end ForgejoMcp.OAuth
