import ForgejoMcp.Transactions.Table
import Mathlib.Data.Nat.Notation
import Mathlib.Data.Int.Notation

/-!
# Database rows

The rows of `db/models.py` that the modelled services read or write, with the columns they use.
Identifiers are the numbers a system draws; times are microseconds since the epoch.
-/

namespace ForgejoMcp

open Transactions

/-- Row identifiers (`uuid.UUID`). -/
abbrev Uuid := ℕ

/-- Instants (`datetime`), in microseconds. -/
abbrev Time := ℤ

/-- `timedelta(seconds=n)`. -/
def seconds (n : ℕ) : Time := n * 1000000

/-- `timedelta(days=n)`. -/
def days (n : ℕ) : Time := n * 86400000000

theorem days_injective {m n : ℕ} (h : days m = days n) : m = n := by
  have hint : (m : ℤ) * 86400000000 = n * 86400000000 := h
  omega

/-- `AccountRole`. -/
inductive AccountRole
  | admin
  | user
  deriving DecidableEq, Repr

/-- `RecordStatus`. -/
inductive RecordStatus
  | pending
  | active
  | disabled
  deriving DecidableEq, Repr

/-- `CredentialStatus`. -/
inductive CredentialStatus
  | active
  | revoked
  deriving DecidableEq, Repr

/-- `mcp_tokens.kind`; any other string fails closed. -/
inductive TokenKind
  | static
  | oauth
  | other (kind : String)
  deriving DecidableEq, Repr

/-- A row of `users`. -/
structure User where
  id : Uuid
  expectedForgejoUsername : String
  normalizedForgejoUsername : String
  status : RecordStatus
  disabledAt : Option Time
  deriving DecidableEq, Repr

/-- A row of `accounts`. -/
structure Account where
  id : Uuid
  userId : Option Uuid
  role : AccountRole
  mustChangePassword : Bool
  status : RecordStatus
  deriving DecidableEq, Repr

/-- A row of `forgejo_credentials`, as the OAuth services read it. -/
structure ForgejoCredential where
  id : Uuid
  userId : Uuid
  status : CredentialStatus
  revokedAt : Option Time
  deriving DecidableEq, Repr

/-- A row of `mcp_tokens`. -/
structure McpToken where
  id : Uuid
  userId : Uuid
  name : String
  description : Option String
  tokenPrefix : String
  tokenHash : String
  kind : TokenKind
  enabled : Bool
  expiresAt : Option Time
  revokedAt : Option Time
  lastUsedAt : Option Time
  deriving DecidableEq, Repr

/-- A row of `tool_settings`. -/
structure ToolSetting where
  toolName : String
  enabled : Bool
  registryVersion : ℕ
  deriving DecidableEq, Repr

/-- A row of `user_tool_allowances`. -/
structure UserToolAllowance where
  userId : Uuid
  toolName : String
  deriving DecidableEq, Repr

/-- A row of `mcp_token_tool_grants`. -/
structure McpTokenToolGrant where
  mcpTokenId : Uuid
  toolName : String
  deriving DecidableEq, Repr

/-- A registered client; `metadataClientId` and `clientName` are the fields of its stored metadata
that are read when a token is issued. -/
structure OAuthClient where
  id : Uuid
  clientId : String
  metadataClientId : String
  clientName : Option String
  deriving DecidableEq, Repr

/-- A row of `oauth_authorization_requests`. -/
structure OAuthAuthorizationRequest where
  id : Uuid
  requestTokenHash : String
  clientId : Uuid
  redirectUri : String
  redirectUriProvidedExplicitly : Bool
  state : Option String
  codeChallenge : String
  scopes : List String
  resource : String
  expiresAt : Time
  resolvedAt : Option Time
  deriving DecidableEq, Repr

/-- A row of `oauth_authorization_codes`. -/
structure OAuthAuthorizationCode where
  id : Uuid
  codeHash : String
  clientId : Uuid
  userId : Uuid
  redirectUri : String
  redirectUriProvidedExplicitly : Bool
  codeChallenge : String
  scopes : List String
  toolNames : List String
  resource : String
  expiresAt : Time
  refreshExpiresAt : Option Time
  consumedAt : Option Time
  deriving DecidableEq, Repr

/-- A row of `oauth_token_families`. -/
structure OAuthTokenFamily where
  id : Uuid
  revokedAt : Option Time
  deriving DecidableEq, Repr

/-- A row of `oauth_refresh_tokens`. -/
structure OAuthRefreshToken where
  id : Uuid
  tokenHash : String
  tokenPrefix : String
  familyId : Uuid
  clientId : Uuid
  userId : Uuid
  scopes : List String
  resource : String
  mcpTokenId : Option Uuid
  expiresAt : Time
  rotatedAt : Option Time
  revokedAt : Option Time
  deriving DecidableEq, Repr

/-- A row of `oauth_access_tokens`. -/
structure OAuthAccessToken where
  mcpTokenId : Uuid
  clientId : Uuid
  refreshTokenId : Uuid
  resource : String
  revokedAt : Option Time
  deriving DecidableEq, Repr

/-- A token without its revocation and last use. -/
def McpToken.core (r : McpToken) : McpToken :=
  { r with enabled := false, revokedAt := none, lastUsedAt := none }

/-- A token without its last use. -/
def McpToken.standing (r : McpToken) : McpToken := { r with lastUsedAt := none }

/-- A refresh token without its rotation and revocation. -/
def OAuthRefreshToken.core (r : OAuthRefreshToken) : OAuthRefreshToken :=
  { r with rotatedAt := none, revokedAt := none }

/-- An access link without its revocation. -/
def OAuthAccessToken.core (r : OAuthAccessToken) : OAuthAccessToken := { r with revokedAt := none }

/-- An audit event, without its free-form details. -/
structure ManagementAuditEvent where
  actorAccountId : Option Uuid
  action : String
  targetType : String
  targetId : String
  deriving DecidableEq, Repr

/-- Failures of the application services, with their messages. -/
inductive Failure
  | tokenError (error description : String)
  | consentUnavailable (reason : String)
  | valueError (message : String)
  | runtimeError (message : String)
  | integrityError
  | notFound (message : String)
  | invalidOperation (message : String)
  | validationFailed (message : String)
  deriving DecidableEq, Repr

/-! ### Fallible functions -/

/-- A sequence of two fallible steps succeeds if both do. -/
theorem bind_eq_ok {ε α β : Type} {x : Except ε α} {f : α → Except ε β} {b : β} :
    x >>= f = .ok b ↔ ∃ a, x = .ok a ∧ f a = .ok b := by
  cases x with
  | error failure => exact ⟨fun h => (nomatch h), fun ⟨a, h, _⟩ => (nomatch h)⟩
  | ok a => exact ⟨fun h => ⟨a, rfl, h⟩, fun ⟨a', h, h'⟩ => Except.ok.inj h ▸ h'⟩

end ForgejoMcp
