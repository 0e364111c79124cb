import ForgejoMcp.Models
import Mathlib.Data.List.Sort
import Mathlib.Data.List.Dedup
import Mathlib.Data.String.Basic

/-!
# Deployment

The settings of `config.py` that the OAuth service reads, the tool registry, and the primitives the
tokens are made with.  Random text is a function of the number drawn for it; different numbers give
different text, and different texts have different hashes.
-/

namespace ForgejoMcp

/-- The OAuth settings of an enabled deployment. -/
structure Settings where
  oauthIssuerUrl : String
  oauthResourceUrl : String
  oauthAccessTokenTtlSeconds : ℕ
  oauthRefreshTokenTtlDays : ℕ
  oauthRefreshTokenMaxTtlDays : ℕ
  oauthRefreshTokenReuseGraceSeconds : ℕ
  oauthAuthorizationCodeTtlSeconds : ℕ
  accessTtl : 300 ≤ oauthAccessTokenTtlSeconds ∧ oauthAccessTokenTtlSeconds ≤ 86400
  refreshTtl : 1 ≤ oauthRefreshTokenTtlDays ∧
    oauthRefreshTokenTtlDays ≤ oauthRefreshTokenMaxTtlDays ∧ oauthRefreshTokenMaxTtlDays ≤ 90
  grace : oauthRefreshTokenReuseGraceSeconds ≤ 60
  codeTtl : 60 ≤ oauthAuthorizationCodeTtlSeconds ∧ oauthAuthorizationCodeTtlSeconds ≤ 600

/-- `oauth_grant_ttl_options_days`: the consent choices bounded by deployment policy. -/
def Settings.oauthGrantTtlOptionsDays (s : Settings) : List ℕ :=
  (([1, 7, 30, 90].insert s.oauthRefreshTokenTtlDays).filter
    (· ≤ s.oauthRefreshTokenMaxTtlDays)).insertionSort (· ≤ ·)

/-- A tool of the registry (`ToolSpec`), with its name and version. -/
structure ToolSpec where
  name : String
  version : ℕ
  deriving DecidableEq, Repr

/-- What a running server is given: its settings, the tools of its registry, random URL-safe text,
the token hash, and the hostname of an `https` URL. -/
structure Deployment extends Settings where
  registry : List ToolSpec
  tokenUrlsafe : ℕ → String
  sha256 : String → String
  httpsHostname : String → Option String
  registry_ne_nil : registry ≠ []
  tokenUrlsafe_injective : Function.Injective tokenUrlsafe
  sha256_injective : Function.Injective sha256

/-- The first `n` characters of a string. -/
def slice (s : String) (n : ℕ) : String := String.ofList (s.toList.take n)

/-- `mcp_token_prefix`. -/
def mcpTokenPrefix (token : String) : String := slice token 13

/-- A set of names in increasing order (`sorted`). -/
def sorted (names : List String) : List String := names.dedup.insertionSort (· ≤ ·)

@[simp] theorem mem_sorted {names : List String} {x : String} : x ∈ sorted names ↔ x ∈ names := by
  rw [sorted, List.mem_insertionSort, List.mem_dedup]

theorem nodup_sorted (names : List String) : (sorted names).Nodup :=
  (List.perm_insertionSort _ _).nodup_iff.2 (List.nodup_dedup names)

namespace Deployment

variable (d : Deployment)

/-- `new_mcp_token`. -/
def newMcpToken (secret : ℕ) : String := "fmcp_" ++ d.tokenUrlsafe secret

/-- `new_oauth_refresh_token`. -/
def newOauthRefreshToken (secret : ℕ) : String := "fmcp_rt_" ++ d.tokenUrlsafe secret

/-- `new_oauth_code`. -/
def newOauthCode (secret : ℕ) : String := "fmcp_ac_" ++ d.tokenUrlsafe secret

/-- `hash_token`. -/
def hashToken (token : String) : String := d.sha256 token

theorem newMcpToken_injective : Function.Injective d.newMcpToken := fun _ _ h =>
  d.tokenUrlsafe_injective (String.append_right_inj _ |>.1 h)

theorem newOauthRefreshToken_injective : Function.Injective d.newOauthRefreshToken := fun _ _ h =>
  d.tokenUrlsafe_injective (String.append_right_inj _ |>.1 h)

/-- A deployment with two tools, on which runs are evaluated. -/
def sample : Deployment where
  oauthIssuerUrl := "https://mcp.example"
  oauthResourceUrl := "https://mcp.example/mcp"
  oauthAccessTokenTtlSeconds := 3600
  oauthRefreshTokenTtlDays := 30
  oauthRefreshTokenMaxTtlDays := 90
  oauthRefreshTokenReuseGraceSeconds := 10
  oauthAuthorizationCodeTtlSeconds := 300
  accessTtl := by decide
  refreshTtl := by decide
  grace := by decide
  codeTtl := by decide
  registry := [⟨"read", 1⟩, ⟨"write", 1⟩]
  tokenUrlsafe := fun n => String.ofList (List.replicate n 'a')
  sha256 := id
  httpsHostname := fun _ => none
  registry_ne_nil := by decide
  tokenUrlsafe_injective := fun m n h => by simpa using congrArg String.length h
  sha256_injective := Function.injective_id

end Deployment

end ForgejoMcp
