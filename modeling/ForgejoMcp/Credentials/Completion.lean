import ForgejoMcp.Credentials.System

/-!
# Calls can be completed

Every call of the system opens a session, and none waits for the memory of the process: so whatever
a call is doing, it can be run to its end.
-/

namespace ForgejoMcp.Credentials

open Transactions Rows
open Forgejo (Bytes CredentialCipher ForgejoOAuthClientConfiguration)

set_option synthInstance.maxSize 4096

variable (server : Server)

/-! ### Requests and reads -/

instance ask_prompt (q : Query) : Prompt (ask q : P Answer) := @Prompt.ask sorts Raised q

instance commit_prompt (label : Label) : Prompt (commit label : P Unit) :=
  @Prompt.commit sorts Raised label

instance fallible_prompt {α : Type} (x : Except Forgejo.Failure α) : Prompt (fallible x : P α) := by
  cases x
  · exact .throw _
  · exact .pure _

instance exchange_prompt (baseUrl : String) (verifyTls : Bool) (grant : Grant)
    (configuration : ForgejoOAuthClientConfiguration) (purpose : Purpose) :
    Prompt (exchange server baseUrl verifyTls grant configuration purpose) := by
  unfold exchange
  infer_instance

instance getCurrentUser_prompt (baseUrl : String) (verifyTls : Bool) (token : AccessToken)
    (purpose : Purpose) : Prompt (getCurrentUser baseUrl verifyTls token purpose) := by
  unfold getCurrentUser
  infer_instance

instance getVersion_prompt (baseUrl : String) (verifyTls : Bool) :
    Prompt (getVersion baseUrl verifyTls) := by
  unfold getVersion
  infer_instance

instance encrypt_prompt (c : CredentialCipher) (text : String) (userId : Uuid) (purpose : String) :
    Prompt (encrypt server c text userId purpose) := by
  unfold encrypt
  infer_instance

instance decrypt_prompt (c : CredentialCipher) (ciphertext nonce : Bytes) (userId : Uuid)
    (keyVersion : ℕ) (purpose : String) :
    Prompt (decrypt server c ciphertext nonce userId keyVersion purpose) := by
  unfold decrypt
  split <;> infer_instance

instance getUser_prompt (loaded : Option (Loaded User)) (userId : Uuid) :
    Prompt (getUser loaded userId) := by
  unfold getUser
  infer_instance

instance refreshUser_prompt (userId : Uuid) : Prompt (refreshUser userId) := by
  unfold refreshUser
  infer_instance

instance primary_prompt (loaded : Option ForgejoInstance) : Prompt (primary loaded) := by
  unfold primary
  infer_instance

instance activeForUser_prompt (userId : Uuid) : Prompt (activeForUser userId) := by
  unfold activeForUser
  infer_instance

instance record_prompt (lock : Bool) : Prompt (record lock) := by
  unfold record
  infer_instance

instance refreshInstance_prompt (loaded : Option ForgejoInstance) :
    Prompt (refreshInstance loaded) := by
  unfold refreshInstance
  split <;> infer_instance

/-! ### Saving -/

instance verificationFailure_prompt {α : Type} (userId : Uuid) (failure : Raised) :
    Prompt (verificationFailure userId failure : P α) := by
  unfold verificationFailure
  infer_instance

instance verifiedUser_prompt (baseUrl : String) (verifyTls : Bool) (token : AccessToken)
    (userId : Uuid) : Prompt (verifiedUser baseUrl verifyTls token userId) := by
  unfold verifiedUser
  exact @Prompt.handle _ _ _ _ _ inferInstance fun failure => by split <;> infer_instance

instance verify_prompt (loadedUser : Option (Loaded User)) (loadedInstance : Option ForgejoInstance)
    (userId : Uuid) (token : String) (oauth : Bool) :
    Prompt (verify server loadedUser loadedInstance userId token oauth) := by
  unfold verify
  infer_instance

instance recheck_prompt (oauth : OAuthSave) (loadedInstance : Option ForgejoInstance) :
    Prompt (recheck server oauth loadedInstance) := by
  unfold recheck
  infer_instance

instance flushRevoked_prompt (current : Option ForgejoCredential) (now : Time) :
    Prompt (flushRevoked current now) := by
  unfold flushRevoked
  split <;> infer_instance

instance store_prompt (row : ForgejoCredential) (replaced : Option Uuid)
    (pair : Option ForgejoOAuthTokens) (readAt : ℕ) : Prompt (store row replaced pair readAt) := by
  unfold store insertCredential
  infer_instance

instance oauthColumns_prompt (c : CredentialCipher) (oauth : OAuthSave) (inst : ForgejoInstance)
    (configuration : ForgejoOAuthClientConfiguration) (userId : Uuid) (now : Time) :
    Prompt (oauthColumns server c oauth inst configuration userId now) := by
  unfold oauthColumns
  infer_instance

instance save_prompt (loadedUser : Option (Loaded User)) (loadedInstance : Option ForgejoInstance)
    (userId : Uuid) (token : String) (oauth : Option OAuthSave) :
    Prompt (save server loadedUser loadedInstance userId token oauth) := by
  unfold save
  cases oauth <;> infer_instance

instance revoke_prompt (loadedUser : Option (Loaded User)) (userId : Uuid) :
    Prompt (revoke loadedUser userId) := by
  unfold revoke
  infer_instance

/-! ### Linking -/

instance loadSession_prompt (session : Users.Session) : Prompt (loadSession session) := by
  unfold loadSession
  exact @Prompt.bind _ _ _ _ _ _ inferInstance fun found =>
    @Prompt.bind _ _ _ _ _ _ inferInstance fun account => by split <;> infer_instance

instance userSession_prompt (sessionToken : String) : Prompt (userSession server sessionToken) := by
  unfold userSession getCurrentSession
  infer_instance

instance requireSession_prompt (current : CurrentSession) : Prompt (requireSession current) := by
  unfold requireSession
  infer_instance

instance configuration_prompt (lock : Bool) : Prompt (configuration server lock) := by
  unfold configuration
  infer_instance

instance start_prompt (current : CurrentSession) (userId : Uuid) :
    Prompt (start server current userId) := by
  unfold start addRequest
  infer_instance

instance callbackSession_prompt (state : String) (browserToken : Option String) :
    Prompt (callbackSession server state browserToken) := by
  unfold callbackSession
  infer_instance

instance consume_prompt (current : CurrentSession) (userId : Uuid) (state : String)
    (inst : ForgejoInstance) (configuration : ForgejoOAuthClientConfiguration) :
    Prompt (consume server current userId state inst configuration) := by
  unfold consume
  infer_instance

instance complete_prompt (current : CurrentSession) (state code : String) (denied : Bool) :
    Prompt (complete server current state code denied) := by
  unfold complete
  infer_instance

instance completeForgejoOauth_prompt (state code : String)
    (error browserToken dashboard : Option String) :
    Prompt (completeForgejoOauth server state code error browserToken dashboard) := by
  unfold completeForgejoOauth
  exact @Prompt.handle _ _ _ _ _ inferInstance fun failure => by split <;> infer_instance

/-! ### Using a link -/

instance refreshTokens_prompt (c : CredentialCipher) (inst : ForgejoInstance)
    (configuration : ForgejoOAuthClientConfiguration) (user : User)
    (credential : ForgejoCredential) :
    Prompt (refreshTokens server c inst configuration user credential) := by
  unfold refreshTokens
  infer_instance

instance accessToken_prompt (userId : Uuid) : Prompt (accessToken server userId) := by
  unfold accessToken
  infer_instance

instance connection_prompt (userId : Uuid) : Prompt (connection server userId) := by
  unfold connection
  infer_instance

/-! ### Administration -/

instance flushUser_prompt (loaded value : User) : Prompt (flushUser loaded value) := by
  unfold flushUser
  infer_instance

instance flushAccountStatus_prompt (loaded : Account) (status : RecordStatus) :
    Prompt (flushAccountStatus loaded status) := by
  unfold flushAccountStatus
  infer_instance

instance updateUser_prompt (userId : Uuid) (displayName forgejoUsername : String) :
    Prompt (updateUser server userId displayName forgejoUsername) := by
  unfold updateUser
  infer_instance

instance disableUser_prompt (userId : Uuid) : Prompt (disableUser userId) := by
  unfold disableUser accountOf
  refine @Prompt.bind _ _ _ _ _ _ inferInstance fun user =>
    @Prompt.bind _ _ _ _ _ _ inferInstance fun found =>
      @Prompt.bind _ _ _ _ _ _ inferInstance fun time =>
        @Prompt.bind _ _ _ _ _ _ inferInstance fun _ => ?_
  dsimp only
  split <;> infer_instance

instance enableUser_prompt (userId : Uuid) : Prompt (enableUser userId) := by
  unfold enableUser accountOf
  infer_instance

instance check_prompt (baseUrl : String) (verifyTls : Bool) :
    Prompt (check server baseUrl verifyTls) := by
  unfold check
  dsimp only
  split <;> infer_instance

instance configure_prompt (displayName baseUrl : String) (verifyTls : Bool) :
    Prompt (configure server displayName baseUrl verifyTls) := by
  unfold configure
  refine @Prompt.bind _ _ _ _ _ _ inferInstance fun _ =>
    @Prompt.bind _ _ _ _ _ _ inferInstance fun url =>
      @Prompt.bind _ _ _ _ _ _ inferInstance fun found => ?_
  split <;> infer_instance

instance writeConfiguration_prompt (found : Option Forgejo.ForgejoOAuthConfiguration)
    (saved : Forgejo.ForgejoOAuthConfiguration) : Prompt (writeConfiguration found saved) := by
  unfold writeConfiguration
  split <;> infer_instance

instance saveConfiguration_prompt (request : Forgejo.SaveRequest) :
    Prompt (saveConfiguration server request) := by
  unfold saveConfiguration
  infer_instance

instance body_prompt (call : Call) : Prompt (body server call) := by
  cases call <;> (rw [body]; infer_instance)

end ForgejoMcp.Credentials
