import ForgejoMcp.OAuth.Service

/-!
# Bearer authentication

`McpBearerAuthenticator.authenticate` of `auth/mcp_bearer.py`.
-/

namespace ForgejoMcp.OAuth

open Transactions Rows

/-- `AuthenticatedMcpToken`. -/
structure AuthenticatedMcpToken where
  tokenId : Uuid
  userId : Uuid
  expiresAt : Option Time
  scopes : List String
  resource : Option String
  issuer : Option String
  familyId : Option Uuid
  deriving DecidableEq

/-- `valid_mcp_token_format`: `fmcp_[A-Za-z0-9_-]{43}`. -/
def validMcpTokenFormat (token : String) : Bool :=
  startsWith token "fmcp_" && decide (token.length = 48) &&
    (token.toList.drop 5).all fun c => c.isAlphanum || c == '_' || c == '-'

/-- `_active`. -/
def active (record : McpToken) (user : Option User) (now : Time) : Bool :=
  record.enabled && record.revokedAt.isNone && user.any (fun u => u.status = .active) &&
    record.expiresAt.all fun time => decide (now < time)

/-- The link, refresh token and family checks of an OAuth token: its scopes, resource and family,
or `none` when the token is refused. -/
def oauthContext (oauthLink : Option OAuthAccessToken) (oauthResourceUrl oauthIssuerUrl :
    Option String) : P (Option (List String × String × Uuid)) :=
  match oauthLink with
  | none => return none
  | some link =>
    if oauthResourceUrl = none ∨ oauthIssuerUrl = none ∨ link.revokedAt ≠ none ∨
        some link.resource ≠ oauthResourceUrl then return none
    else do
      match ← refreshTokens.find link.refreshTokenId with
      | none => return none
      | some refresh =>
        if refresh.revokedAt ≠ none then return none
        else do
          match ← tokenFamilies.find refresh.familyId with
          | none => return none
          | some family =>
            if family.revokedAt ≠ none then return none
            else return some (refresh.scopes, link.resource, family.id)

/-- The conditional last-used update, its commit and the result. -/
def acceptToken (record : McpToken) (now : Time) (context : Option (List String × String × Uuid))
    (oauthIssuerUrl : Option String) : P (Option AuthenticatedMcpToken) := do
  let updated ← mcpTokens.update
    (fun r => r.id = record.id ∧ r.enabled = true ∧ r.revokedAt = none)
    ⟨fun r => { r with lastUsedAt := some now }, fun _ => rfl⟩
  match updated with
  | [] => return none
  | _ :: _ => do
    commit (.used record.id)
    match context with
    | some (scopes, resource, familyId) =>
      return some ⟨record.id, record.userId, record.expiresAt, scopes, resource, oauthIssuerUrl,
        familyId⟩
    | none => return some ⟨record.id, record.userId, record.expiresAt, [], none, none, none⟩

/-- `authenticate`. -/
def authenticate (d : Deployment) (plaintext : String) (oauthResourceUrl oauthIssuerUrl :
    Option String) : P (Option AuthenticatedMcpToken) :=
  if validMcpTokenFormat plaintext = false then return none
  else withSession do
    let candidates ← mcpTokens.select fun r => r.tokenPrefix = mcpTokenPrefix plaintext
    match candidates.filter fun r => r.tokenHash = d.hashToken plaintext with
    | [record] => do
      let user ← getUser record.userId
      let now ← now
      if active record user now = false then return none
      else do
        let oauthLink ← accessTokens.find record.id
        match record.kind with
        | .oauth => do
          match ← oauthContext oauthLink oauthResourceUrl oauthIssuerUrl with
          | none => return none
          | some context => acceptToken record now (some context) oauthIssuerUrl
        | .static =>
          match oauthLink with
          | none => acceptToken record now none oauthIssuerUrl
          | some _ => return none
        | .other _ => return none
    | _ => return none

end ForgejoMcp.OAuth
