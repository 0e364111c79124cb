import ForgejoMcp.Models

/-!
# The Forgejo OAuth client configuration

`ForgejoOAuthConfigService`: the one configuration record, with the client secret that it keeps
encrypted, overrides the settings of the environment.
-/

namespace ForgejoMcp.Forgejo

/-- `bytes`. -/
abbrev Bytes := List ℕ

/-- Failures of the Forgejo services, with their messages. -/
inductive Failure
  | notFound (message : String)
  | conflict (message : String)
  | validationFailed (message : String)
  | configurationUnavailable (message : String)
  | externalServiceUnavailable (message : String)
  | credentialKeyError (message : String)
  deriving DecidableEq, Repr

/-- Authenticated encryption: what a key decrypts is what was encrypted. -/
structure Aead where
  encrypt : Bytes → Bytes → String → String → Bytes
  decrypt : Bytes → Bytes → Bytes → String → Option String
  decrypt_encrypt : ∀ key nonce text data,
    decrypt key nonce (encrypt key nonce text data) data = some text
  eq_of_decrypt : ∀ key key' nonce text text' data data',
    decrypt key nonce (encrypt key' nonce text data') data = some text' → text' = text

/-- A URL split by `urlsplit`. -/
structure SplitUrl where
  scheme : String
  hostname : Option String
  port : Option ℕ
  username : Option String
  password : Option String
  path : String
  query : String
  fragment : String

/-- The libraries that the services call: encryption, URL parsing, and the forms of URLs. -/
structure Library where
  aead : Aead
  /-- `urlsplit`, without a `ValueError`; the scheme and the hostname are in lower case. -/
  urlsplit : String → Option SplitUrl
  /-- `str(httpx.URL(…))`, without an `InvalidURL`. -/
  httpxUrl : String → Option String

/-- The settings of `config.py` that the Forgejo services read.  A file is what a read of it gives. -/
structure ForgejoSettings where
  production : Bool
  allowInsecureForgejoHttp : Bool
  allowUnverifiedForgejoTls : Bool
  /-- `permits_forgejo_base_url`. -/
  permitsForgejoBaseUrl : String → Bool
  forgejoOauthClientId : Option String
  forgejoOauthRedirectUrl : Option String
  /-- The text of the file, if it can be read. -/
  forgejoOauthClientSecretFile : Option (Option String)
  /-- The key of the file, or why it is none. -/
  credentialEncryptionKeyFile : Option (Except String Bytes)
  credentialEncryptionKeyVersion : ℕ
  clientId_ne_empty : forgejoOauthClientId ≠ some ""
  redirect : forgejoOauthClientId = none ↔ forgejoOauthRedirectUrl = none
  secretFile : forgejoOauthClientId = none → forgejoOauthClientSecretFile = none

/-! ### Text -/

/-- The characters that `str.strip` removes. -/
def isSpace (c : Char) : Bool :=
  (9 ≤ c.toNat && c.toNat ≤ 13) || (28 ≤ c.toNat && c.toNat ≤ 32) ||
    c.toNat ∈ [0x85, 0xA0, 0x1680, 0x2028, 0x2029, 0x202F, 0x205F, 0x3000] ||
    (0x2000 ≤ c.toNat && c.toNat ≤ 0x200A)

/-- `str.strip`. -/
def strip (s : String) : String :=
  String.ofList (((s.toList.dropWhile isSpace).reverse.dropWhile isSpace).reverse)

/-- ASCII without blanks and control characters. -/
def visibleAscii (s : String) : Bool := s.toList.all fun c => 32 < c.toNat && c.toNat < 127

/-- `normalize_http_origin`. -/
def normalizeHttpOrigin (lib : Library) (value : String) : Option String := do
  let parsed ← lib.urlsplit (strip value)
  let hostname ← parsed.hostname
  if ¬ (parsed.scheme = "http" ∨ parsed.scheme = "https") ∨ parsed.username ≠ none ∨
      parsed.password ≠ none ∨ ¬ (parsed.path = "" ∨ parsed.path = "/") ∨ parsed.query ≠ "" ∨
      parsed.fragment ≠ "" then none
  else
    let defaultPort := if parsed.scheme = "http" then 80 else 443
    let host := if ':' ∈ hostname.toList then "[" ++ hostname ++ "]" else hostname
    let netloc := match parsed.port with
      | none => host
      | some port => if port = defaultPort then host else host ++ ":" ++ toString port
    some (parsed.scheme ++ "://" ++ netloc)

/-! ### The cipher -/

/-- A key of `CredentialCipher`, with its version. -/
structure CredentialCipher where
  key : Bytes
  keyVersion : ℕ
  deriving DecidableEq, Repr

/-- `EncryptedCredential`. -/
structure EncryptedCredential where
  ciphertext : Bytes
  nonce : Bytes
  keyVersion : ℕ
  deriving DecidableEq, Repr

/-- `associated_data`. -/
def associatedData (userId : Uuid) (keyVersion : ℕ) (purpose : String) : String :=
  let legacy := "forgejo-credential:" ++ toString userId ++ ":v" ++ toString keyVersion
  if purpose = "access" then legacy else legacy ++ ":" ++ purpose

namespace CredentialCipher

variable (cipher : CredentialCipher) (aead : Aead)

/-- `CredentialCipher.encrypt`, with the nonce it draws. -/
def encrypt (nonce : Bytes) (token : String) (userId : Uuid) (purpose : String) :
    EncryptedCredential where
  ciphertext := aead.encrypt cipher.key nonce token (associatedData userId cipher.keyVersion purpose)
  nonce := nonce
  keyVersion := cipher.keyVersion

/-- `CredentialCipher.decrypt`. -/
def decrypt (ciphertext nonce : Bytes) (userId : Uuid) (keyVersion : ℕ) (purpose : String) :
    Except String String :=
  if keyVersion ≠ cipher.keyVersion then
    .error "credential encryption key version is unavailable"
  else match aead.decrypt cipher.key nonce ciphertext (associatedData userId keyVersion purpose) with
    | none => .error "credential authentication failed"
    | some text => .ok text

end CredentialCipher

/-! ### The record -/

/-- The type of an OAuth client at Forgejo. -/
inductive ClientType
  | publicClient
  | confidential
  deriving DecidableEq, Repr

/-- The row of `forgejo_oauth_configurations` with the slug `primary`. -/
structure ForgejoOAuthConfiguration where
  id : Uuid
  enabled : Bool
  clientId : String
  clientType : ClientType
  baseUrl : String
  encryptedSecret : Option Bytes
  nonce : Option Bytes
  keyVersion : Option ℕ
  revision : Uuid
  updatedByAccountId : Uuid
  deriving DecidableEq, Repr

/-- The secret is stored in all of its three columns. -/
def ForgejoOAuthConfiguration.secretConfigured (r : ForgejoOAuthConfiguration) : Bool :=
  r.encryptedSecret.isSome && r.nonce.isSome && r.keyVersion.isSome

/-- `ForgejoOAuthClientConfiguration`. -/
structure ForgejoOAuthClientConfiguration where
  clientId : String
  redirectUrl : String
  clientSecret : Option String
  revision : String
  deriving DecidableEq, Repr

/-- `FORGEJO_OAUTH_CALLBACK_PATH`. -/
def forgejoOauthCallbackPath : String := "/api/me/credential/oauth/callback"

/-- `cipher`. -/
def configurationCipher (settings : ForgejoSettings) : Except Failure CredentialCipher :=
  match settings.credentialEncryptionKeyFile with
  | some (.ok key) => .ok ⟨key, settings.credentialEncryptionKeyVersion⟩
  | _ => .error (.configurationUnavailable "OAuth client secret encryption key is unavailable")

/-- `read_secret_file`. -/
def readSecretFile (file : Option String) : Except Failure String :=
  match file with
  | none => .error (.configurationUnavailable "Forgejo OAuth client secret file is unavailable")
  | some text =>
    let value := strip text
    if value = "" ∨ 4096 < value.length then
      .error (.configurationUnavailable "Forgejo OAuth client secret file is invalid")
    else .ok value

/-- The secret of an enabled record. -/
def storedSecret (lib : Library) (settings : ForgejoSettings) (record : ForgejoOAuthConfiguration) :
    Except Failure (Option String) :=
  match record.clientType with
  | .publicClient => .ok none
  | .confidential =>
    match record.encryptedSecret, record.nonce, record.keyVersion with
    | some ciphertext, some nonce, some keyVersion =>
      match configurationCipher settings with
      | .error failure => .error failure
      | .ok cipher =>
        match cipher.decrypt lib.aead ciphertext nonce record.id keyVersion "oauth-client-secret" with
        | .error _ => .error (.configurationUnavailable
          "Forgejo OAuth client secret cannot be decrypted")
        | .ok secret => .ok (some secret)
    | _, _, _ => .error (.configurationUnavailable "Forgejo OAuth client secret is not configured")

/-- The configuration of the environment. -/
def environmentConfiguration (settings : ForgejoSettings) :
    Except Failure (Option ForgejoOAuthClientConfiguration) :=
  match settings.forgejoOauthClientId, settings.forgejoOauthRedirectUrl with
  | some clientId, some redirectUrl =>
    match settings.forgejoOauthClientSecretFile with
    | none => .ok (some ⟨clientId, redirectUrl, none, "environment"⟩)
    | some file =>
      match readSecretFile file with
      | .error failure => .error failure
      | .ok secret => .ok (some ⟨clientId, redirectUrl, some secret, "environment"⟩)
  | _, _ => .ok none

/-- `resolve`, once the record is read. -/
def resolve (lib : Library) (settings : ForgejoSettings)
    (record : Option ForgejoOAuthConfiguration) :
    Except Failure (Option ForgejoOAuthClientConfiguration) :=
  match record with
  | none => environmentConfiguration settings
  | some record =>
    -- an explicit disable overrides the settings of the environment
    if ¬ record.enabled then .ok none
    else match storedSecret lib settings record with
      | .error failure => .error failure
      | .ok secret => .ok (some ⟨record.clientId, record.baseUrl ++ forgejoOauthCallbackPath, secret,
          toString record.revision⟩)

/-! ### Saving -/

/-- The arguments of `save`. -/
structure SaveRequest where
  actorAccountId : Uuid
  enabled : Bool
  clientId : String
  baseUrl : String
  clientType : ClientType
  clientSecret : Option String
  deriving DecidableEq, Repr

/-- The random values that `save` draws. -/
structure SaveDraws where
  id : Uuid
  revision : Uuid
  nonce : Bytes
  deriving DecidableEq, Repr

/-- Fails just if the condition holds. -/
def rejectIf (b : Bool) (failure : Failure) : Except Failure Unit :=
  if b then .error failure else .ok ()

/-- The base URL as it is stored. -/
def saveOrigin (lib : Library) (settings : ForgejoSettings) (baseUrl : String) :
    Except Failure String :=
  match (normalizeHttpOrigin lib baseUrl).bind lib.httpxUrl with
  | none => .error (.validationFailed ("MCP public base URL must contain only scheme and host/port, "
      ++ "with no path, credentials, query or fragment"))
  | some url =>
    let origin := String.ofList (url.toList.reverse.dropWhile (· = '/')).reverse
    let hostname := (lib.urlsplit origin).bind (·.hostname)
    if "http://".isPrefixOf origin ∧ (settings.production ∨
        hostname ∉ [some "localhost", some "127.0.0.1", some "::1"]) then
      .error (.validationFailed ("Use an HTTPS MCP public base URL; HTTP is allowed only "
        ++ "for local non-production testing"))
    else .ok origin

/-- The secret that `save` stores, if it is not empty: the one that is supplied, or the one of the
environment when the first record for its client is saved. -/
def effectiveSecret (settings : ForgejoSettings) (record : Option ForgejoOAuthConfiguration)
    (request : SaveRequest) : Except Failure String :=
  let secret := request.clientSecret.getD ""
  match settings.forgejoOauthClientSecretFile with
  | some file =>
    if request.clientType = .confidential ∧ request.enabled ∧ secret = "" ∧ record = none ∧
        settings.forgejoOauthClientId = some (strip request.clientId) then readSecretFile file
    else .ok secret
  | none => .ok secret

/-- The client that is configured so far. -/
def currentId (settings : ForgejoSettings) (record : Option ForgejoOAuthConfiguration) :
    Option String :=
  match record with
  | some record => some record.clientId
  | none => settings.forgejoOauthClientId

/-- The record before the new values, without the secret of another client or of a public one. -/
def recordToUpdate (settings : ForgejoSettings) (draws : SaveDraws)
    (record : Option ForgejoOAuthConfiguration) (request : SaveRequest) :
    ForgejoOAuthConfiguration :=
  let record' := record.getD ⟨draws.id, false, "", .publicClient, "", none, none, none,
    draws.revision, request.actorAccountId⟩
  if request.clientType = .publicClient ∨ currentId settings record ≠ some (strip request.clientId)
  then { record' with encryptedSecret := none, nonce := none, keyVersion := none }
  else record'

/-- Encrypts a secret that is not empty into the record. -/
def storeSecret (lib : Library) (settings : ForgejoSettings) (draws : SaveDraws) (secret : String)
    (record : ForgejoOAuthConfiguration) : Except Failure ForgejoOAuthConfiguration :=
  if secret = "" then .ok record
  else match configurationCipher settings with
    | .error failure => .error failure
    | .ok cipher =>
      let encrypted := cipher.encrypt lib.aead draws.nonce secret record.id "oauth-client-secret"
      .ok { record with
        encryptedSecret := some encrypted.ciphertext
        nonce := some encrypted.nonce
        keyVersion := some encrypted.keyVersion }

/-- `save`, once the record is read, up to its commit. -/
def save (lib : Library) (settings : ForgejoSettings) (draws : SaveDraws)
    (record : Option ForgejoOAuthConfiguration) (request : SaveRequest) :
    Except Failure ForgejoOAuthConfiguration := do
  let origin ← saveOrigin lib settings request.baseUrl
  let clientId := strip request.clientId
  rejectIf ((request.enabled && clientId = "") || (clientId ≠ "" && !visibleAscii clientId))
    (.validationFailed "A valid Client ID is required to enable Forgejo OAuth")
  let supplied := request.clientSecret.getD ""
  rejectIf (decide (4096 < supplied.length) || (supplied ≠ "" && !visibleAscii supplied))
    (.validationFailed "Client secret is invalid")
  rejectIf (supplied ≠ "" && clientId = "")
    (.validationFailed "A Client ID is required when saving a client secret")
  rejectIf (request.clientType = .publicClient && supplied ≠ "")
    (.validationFailed "Public clients use PKCE without a client secret")
  let secret ← effectiveSecret settings record request
  rejectIf (request.clientType = .confidential && request.enabled && secret = "" &&
      (!(record.map (·.secretConfigured)).getD false ||
        currentId settings record ≠ some clientId))
    (.validationFailed
      "Enter a client secret for this confidential Client ID, or choose public client")
  let record ← storeSecret lib settings draws secret (recordToUpdate settings draws record request)
  return { record with
    enabled := request.enabled
    clientId := clientId
    baseUrl := origin
    clientType := request.clientType
    updatedByAccountId := request.actorAccountId
    revision := draws.revision }

/-! ### A sample -/

/-- Encryption that hides nothing. -/
def sampleAead : Aead where
  encrypt _ _ text _ := text.toList.map Char.toNat
  decrypt _ _ ciphertext _ := some (String.ofList (ciphertext.map Char.ofNat))
  decrypt_encrypt _ _ text _ := by simp [Function.comp_def]
  eq_of_decrypt _ _ _ text text' _ _ h := by simpa [Function.comp_def, eq_comm] using h

/-- A library that reads every URL as one of an HTTPS server. -/
def sampleLibrary : Library where
  aead := sampleAead
  urlsplit _ := some ⟨"https", some "mcp.example", none, none, none, "", "", ""⟩
  httpxUrl := some

/-- Production settings that permit one server. -/
def sampleSettings : ForgejoSettings where
  production := true
  allowInsecureForgejoHttp := false
  allowUnverifiedForgejoTls := false
  permitsForgejoBaseUrl url := url = "https://forgejo.example"
  forgejoOauthClientId := none
  forgejoOauthRedirectUrl := none
  forgejoOauthClientSecretFile := none
  credentialEncryptionKeyFile := some (.ok [1, 2, 3])
  credentialEncryptionKeyVersion := 1
  clientId_ne_empty := by decide
  redirect := by decide
  secretFile := by decide

end ForgejoMcp.Forgejo
