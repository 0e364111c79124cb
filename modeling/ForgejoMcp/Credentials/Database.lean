import ForgejoMcp.Transactions.Sql
import ForgejoMcp.Users.Services

/-!
# The database of the Forgejo credentials

The tables that linking an account, saving and using a credential, and the services of the
administrators work on, with the row locks they take, the requests they send to Forgejo, and the
labels of their commits.  A label, and the purpose of a request, records what the program did, for
the statements about histories; no program reads them, and Forgejo is not sent them.
-/

namespace ForgejoMcp.Credentials

open Transactions
open Forgejo (Bytes ForgejoOAuthConfiguration ForgejoOAuthClientConfiguration strip visibleAscii)

/-! ### Rows -/

/-- The row of `forgejo_instances` with the slug `primary`. -/
structure ForgejoInstance where
  id : Uuid
  baseUrl : String
  verifyTls : Bool
  deriving DecidableEq, Repr

/-- `forgejo_credentials.kind`. -/
inductive CredentialKind
  | pat
  | oauth
  deriving DecidableEq, Repr

/-- A row of `forgejo_credentials` with all columns that the services read. -/
structure ForgejoCredential extends ForgejoMcp.ForgejoCredential where
  encryptedToken : Option Bytes
  nonce : Option Bytes
  keyVersion : ℕ
  forgejoUserId : ℤ
  forgejoUsername : String
  normalizedForgejoUsername : String
  kind : CredentialKind
  encryptedRefreshToken : Option Bytes
  refreshNonce : Option Bytes
  accessExpiresAt : Option Time
  oauthBaseUrl : Option String
  oauthClientId : Option String
  deriving DecidableEq, Repr

/-- A row of `forgejo_oauth_requests`. -/
structure ForgejoOAuthRequest where
  id : Uuid
  stateHash : String
  browserTokenHash : String
  sessionId : Uuid
  instanceId : Uuid
  baseUrl : String
  clientId : String
  redirectUrl : String
  configRevision : String
  encryptedVerifier : Bytes
  nonce : Bytes
  keyVersion : ℕ
  expiresAt : Time
  consumedAt : Option Time
  deriving DecidableEq, Repr

/-- The tables. Those of the instance and of the OAuth configuration have at most the row with the
slug `primary`. -/
structure Db where
  users : Table Uuid User User.id
  accounts : Table Uuid Account Account.id
  sessions : Table Uuid Users.Session Users.Session.id
  forgejoInstances : Table Unit ForgejoInstance fun _ => ()
  forgejoOauthConfigurations : Table Unit ForgejoOAuthConfiguration fun _ => ()
  forgejoCredentials : Table Uuid ForgejoCredential fun r => r.id
  forgejoOauthRequests : Table Uuid ForgejoOAuthRequest ForgejoOAuthRequest.id

/-- What a row lock is taken on.  A row also locks its entry in a unique index: those of the names
of the users, and of the users of the active credentials. -/
inductive Key
  | user (id : Uuid)
  | forgejoUsername (name : String)
  | account (id : Uuid)
  | session (id : Uuid)
  | forgejoInstance
  | configuration
  | credential (id : Uuid)
  | activeCredential (userId : Uuid)
  | request (id : Uuid)
  deriving DecidableEq

/-! ### Requests to Forgejo -/

/-- The grant of a token request. -/
inductive Grant
  | authorizationCode (code redirectUri codeVerifier : String)
  | refreshToken (refreshToken : String)
  deriving DecidableEq, Repr

/-- A token in an `Authorization` header: a personal access token or a `ForgejoOAuthToken`. -/
inductive AccessToken
  | pat (value : String)
  | oauth (value : String)
  deriving DecidableEq, Repr

/-- A request to a Forgejo server. -/
inductive Request
  | token (grant : Grant) (configuration : ForgejoOAuthClientConfiguration)
  | currentUser (token : AccessToken)
  | version
  deriving DecidableEq, Repr

/-- What a request is for: the linking request whose code is exchanged, with the session it is
exchanged for; the credential that is refreshed; the credential whose fresh token is checked, with
the identity it must have; the user whose token is verified. -/
inductive Purpose
  | links (request session : Uuid)
  | refreshes (credential : Uuid)
  | confirms (credential : Uuid) (forgejoUserId : ℤ) (username : String)
  | verifies (user : Uuid)
  | checks
  deriving DecidableEq, Repr

/-- A request with its server and its purpose. -/
structure Query where
  baseUrl : String
  verifyTls : Bool
  request : Request
  purpose : Purpose
  deriving DecidableEq, Repr

/-- The fields of a token response. -/
structure TokenResponse where
  accessToken : String
  refreshToken : String
  tokenType : String
  expiresIn : ℤ
  deriving DecidableEq, Repr

/-- The answers of Forgejo: a response that can be read, another status, or none of them. -/
inductive Answer
  | tokens (response : TokenResponse)
  | user (id : ℤ) (login : String)
  | version (version : String)
  | status (code : ℕ)
  | failed
  deriving DecidableEq, Repr

instance : Inhabited Answer := ⟨.failed⟩

/-- A token that can be stored. -/
def TokenField (token : String) : Prop :=
  1 ≤ token.length ∧ token.length ≤ 8192 ∧ visibleAscii token = true

instance (token : String) : Decidable (TokenField token) := inferInstanceAs (Decidable (_ ∧ _))

/-- `ForgejoOAuthTokens`. -/
structure ForgejoOAuthTokens where
  accessToken : String
  refreshToken : String
  expiresIn : ℕ
  access : TokenField accessToken
  refresh : TokenField refreshToken
  expires : 1 ≤ expiresIn ∧ expiresIn ≤ 365 * 86400
  deriving DecidableEq, Repr

/-- `str.lower` of a token type. -/
def lowerTokenType (value : String) : String := String.ofList (value.toList.map Char.toLower)

/-- `ForgejoOAuthTokens.model_validate_json`. -/
def TokenResponse.validate (r : TokenResponse) : Option ForgejoOAuthTokens :=
  if h : TokenField r.accessToken ∧ TokenField r.refreshToken ∧
      (1 ≤ r.expiresIn.toNat ∧ r.expiresIn.toNat ≤ 365 * 86400) ∧
      lowerTokenType r.tokenType = "bearer" then
    some ⟨r.accessToken, r.refreshToken, r.expiresIn.toNat, h.1, h.2.1, h.2.2.1⟩
  else none

/-- The pair that an answer of the token endpoint gives. -/
def Answer.pair? : Answer → Option ForgejoOAuthTokens
  | .tokens response => response.validate
  | _ => none

/-! ### Commits -/

/-- What a committed transaction did. -/
inductive Label
  | requestStarted (request : ForgejoOAuthRequest) (deleted : List Uuid)
  | requestConsumed (request : ForgejoOAuthRequest) (now : Time)
  | verificationFailed (user : Uuid)
  | credentialSaved (credential : ForgejoCredential) (replaced : Option Uuid)
      (pair : Option ForgejoOAuthTokens) (readAt : ℕ)
  | credentialRefreshed (credential : Uuid) (pair : ForgejoOAuthTokens)
  | tokenRead
  | credentialRevoked (credential : Uuid)
  | userUpdated (user : Uuid) (renamed : Bool) (revoked : Option Uuid) (readAt : ℕ)
  | userDisabled (user : Uuid) (revoked : Option Uuid) (readAt : ℕ)
  | userEnabled (user : Uuid) (status : RecordStatus) (readAt : ℕ)
  | instanceConfigured
  | configurationSaved (first : Bool)
  | environment

/-- The types of the system. It keeps nothing in the memory of the process. -/
abbrev sorts : Sorts where
  DB := Db
  Key := Key
  Mem := Unit
  Label := Label
  Query := Query
  Answer := Answer

/-- What the services raise: a failure of the application, an `HTTPException`, or an error that
none of them handles. -/
inductive Raised
  | application (failure : Forgejo.Failure)
  | httpException (status : ℕ) (detail : String)
  | integrityError
  | attributeError
  deriving DecidableEq, Repr

/-- Programs of the system. -/
abbrev P (α : Type) : Type 1 := Prog (Act sorts) Raised α

/-- A fallible function as a program. -/
def fallible {α : Type} : Except Forgejo.Failure α → P α
  | .ok a => return a
  | .error failure => throw (.application failure)

/-! ### Tables -/

namespace Rows

/-- `users`. -/
def users : Rel sorts Uuid User User.id := ⟨Db.users, fun t db => { db with users := t }, .user⟩

/-- `accounts`. -/
def accounts : Rel sorts Uuid Account Account.id :=
  ⟨Db.accounts, fun t db => { db with accounts := t }, .account⟩

/-- `sessions`. -/
def sessions : Rel sorts Uuid Users.Session Users.Session.id :=
  ⟨Db.sessions, fun t db => { db with sessions := t }, .session⟩

/-- `forgejo_instances`. -/
def forgejoInstances : Rel sorts Unit ForgejoInstance fun _ => () :=
  ⟨Db.forgejoInstances, fun t db => { db with forgejoInstances := t }, fun _ => .forgejoInstance⟩

/-- `forgejo_oauth_configurations`. -/
def forgejoOauthConfigurations : Rel sorts Unit ForgejoOAuthConfiguration fun _ => () :=
  ⟨Db.forgejoOauthConfigurations, fun t db => { db with forgejoOauthConfigurations := t },
    fun _ => .configuration⟩

/-- `forgejo_credentials`. -/
def forgejoCredentials : Rel sorts Uuid ForgejoCredential fun r => r.id :=
  ⟨Db.forgejoCredentials, fun t db => { db with forgejoCredentials := t }, .credential⟩

/-- `forgejo_oauth_requests`. -/
def forgejoOauthRequests : Rel sorts Uuid ForgejoOAuthRequest ForgejoOAuthRequest.id :=
  ⟨Db.forgejoOauthRequests, fun t db => { db with forgejoOauthRequests := t }, .request⟩

end Rows

/-- The credential is active, for the user. -/
def ForgejoCredential.isActiveOf (userId : Uuid) (r : ForgejoCredential) : Bool :=
  r.userId = userId && r.status = .active

/-- `_revoke_secret`. -/
def ForgejoCredential.revokeSecret (revokedAt : Time) :
    Assign fun r : ForgejoCredential => r.id where
  apply r := { r with
    status := .revoked
    encryptedToken := none
    nonce := none
    encryptedRefreshToken := none
    refreshNonce := none
    revokedAt := some revokedAt }
  keeps _ := rfl

end ForgejoMcp.Credentials
