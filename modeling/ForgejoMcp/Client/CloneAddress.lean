import ForgejoMcp.Client.Validation
import ForgejoMcp.Python.Url

/-!
# Addresses of migrations

`_clone_address` lets a migration read from hosts that are not private.  It knows a private address
by what `ip_address` reads; a resolver reads more.
-/

namespace ForgejoMcp.Client

open Python

/-! ### Functions -/

/-- `_bounded_option_string`. -/
def boundedOptionString (value : Json) (label : String) (maximum : ℕ) (allowEmpty : Bool) :
    Except Failure Text :=
  match value with
  | .str value =>
    if maximum < value.length ∨ ¬allowEmpty ∧ value = [] ∨ value.any control then
      .error (.validationFailed (label ++ " is invalid"))
    else .ok value
  | _ => .error (.validationFailed (label ++ " must be a string"))

variable (u : Unicode) (v : UrlUnicode)

/-- `hostname.rstrip(".").casefold()`. -/
def normalizedHost (hostname : Text) : Text := u.casefold (hostname.rdropWhile (· = 0x2E))

/-- `_is_private_migration_host`. -/
def isPrivateMigrationHost (hostname : Text) : Bool :=
  let normalized := normalizedHost u hostname
  if (0x2E : CodePoint) ∉ normalized ∨ normalized = text "localhost" ∨
      ([".localhost", ".local", ".internal", ".home.arpa"].any fun ending =>
        Text.endswith normalized (text ending)) then true
  else
    match ipAddress normalized with
    | none => false
    | some address => !address.isGlobal

/-- `_clone_address`. -/
def cloneAddress (value : Json) (allowPrivateHosts : Bool) : Except Failure Text := do
  let address ← boundedOptionString value "clone_addr" 2048 false
  if address.any CodePoint.isspace then .error (.validationFailed "clone_addr is invalid")
  else
    match urlsplit v address with
    | none => .error (.validationFailed "clone_addr is invalid")
    | some parsed =>
      if ¬parsed.validPort then .error (.validationFailed "clone_addr is invalid")
      else
        match parsed.hostname v with
        | none =>
          .error (.validationFailed "clone_addr must be an http, https, ssh, or git URL with a host")
        | some hostname =>
          if v.lower parsed.scheme ∉ ["http", "https", "ssh", "git"].map text then
            .error (.validationFailed
              "clone_addr must be an http, https, ssh, or git URL with a host")
          else if parsed.userinfo ≠ (none, none) then
            .error (.validationFailed
              "clone_addr must not contain credentials; use auth_username and auth_password")
          else if parsed.query ≠ [] ∨ parsed.fragment ≠ [] then
            .error (.validationFailed "clone_addr must not contain a query string or fragment")
          else if ¬allowPrivateHosts ∧ isPrivateMigrationHost u hostname then
            .error (.validationFailed ("clone_addr must use a public host unless private migration " ++
              "hosts are explicitly enabled"))
          else .ok address

/-! ### What a resolver reads -/

/-- The address that a resolver takes a host to be: what `inet_aton` reads, or an IPv6 address. -/
def numericHost (host : Text) : Option IpAddress :=
  ((inetAton host).map .v4).or ((ipv6Address host).map .v6)

/-- The host is a name of the machine itself. -/
def localhostName (host : Text) : Prop :=
  host = text "localhost" ∨ Text.endswith host (text ".localhost") = true

/-- The host is neither a name of the local host nor a number of an address that is not global; dots
at its end and the case of letters do not count. -/
structure PublicHost (hostname : Text) : Prop where
  name : ¬localhostName (normalizedHost u hostname)
  number : ∀ a, numericHost (normalizedHost u hostname) = some a → a.isGlobal = true

/-- The host is a number of an IPv4 address that is not global, and no dotted quad of plain decimal
numbers. -/
def UnusualNotation (hostname : Text) : Prop := ipv4Address (normalizedHost u hostname) = none ∧
  ∃ n, inetAton (normalizedHost u hostname) = some n ∧ isGlobal4 n = false

variable {u v} {value : Json} {address hostname : Text}

theorem publicHost_iff (h : isPrivateMigrationHost u hostname = false) :
    PublicHost u hostname ↔ ¬UnusualNotation u hostname := by
  rw [isPrivateMigrationHost] at h
  split at h
  · cases h
  rename_i hname
  have hlocal : ¬localhostName (normalizedHost u hostname) := by
    rintro (hlocalhost | hends)
    · exact hname (.inr (.inl hlocalhost))
    · exact hname (.inr (.inr (by rw [List.any_cons, hends, Bool.true_or])))
  have hglobal : ∀ a, ipAddress (normalizedHost u hostname) = some a → a.isGlobal = true := by
    intro a ha
    rw [ha] at h
    simpa using h
  constructor
  · rintro hpublic ⟨-, n, hn, hnot⟩
    have hn' := hpublic.number (.v4 n) (by rw [numericHost, hn]; rfl)
    exact absurd (hnot.symm.trans hn') Bool.false_ne_true
  · intro hnot
    refine ⟨hlocal, fun a ha => ?_⟩
    rw [numericHost] at ha
    cases haton : inetAton (normalizedHost u hostname) with
    | some n =>
      rw [haton] at ha
      cases ha
      by_contra hn
      have hquad : ipv4Address (normalizedHost u hostname) ≠ none := fun hnone =>
        hnot ⟨hnone, n, haton, Bool.eq_false_iff.2 hn⟩
      obtain ⟨m, hm⟩ := Option.ne_none_iff_exists'.1 hquad
      obtain rfl := Option.some.inj ((inetAton_of_ipv4Address hm).symm.trans haton)
      exact hn (hglobal (.v4 m) (by rw [ipAddress, hm]; rfl))
    | none =>
      have hquad : ipv4Address (normalizedHost u hostname) = none := by
        by_contra hne
        obtain ⟨m, hm⟩ := Option.ne_none_iff_exists'.1 hne
        rw [inetAton_of_ipv4Address hm] at haton
        cases haton
      refine hglobal a ?_
      rw [ipAddress, hquad, ← ha, haton]

theorem hostname_of_cloneAddress (h : cloneAddress u v value false = .ok address) :
    ∃ parsed hostname, urlsplit v address = some parsed ∧ parsed.hostname v = some hostname ∧
      isPrivateMigrationHost u hostname = false := by
  obtain ⟨address', -, h⟩ := bind_eq_ok.1 h
  split at h
  · cases h
  split at h
  · cases h
  rename_i parsed hparsed
  split at h
  · cases h
  split at h
  · cases h
  rename_i hostname hhostname
  split at h
  · cases h
  split at h
  · cases h
  split at h
  · cases h
  split at h
  · cases h
  rename_i hpublic
  cases h
  exact ⟨parsed, hostname, hparsed, hhostname, by simpa using hpublic⟩

/-- An address is accepted with a host that is public, or else with a number that `ip_address` does
not read. -/
theorem publicHost_iff_of_cloneAddress (h : cloneAddress u v value false = .ok address) :
    ∃ parsed hostname, urlsplit v address = some parsed ∧ parsed.hostname v = some hostname ∧
      (PublicHost u hostname ↔ ¬UnusualNotation u hostname) := by
  obtain ⟨parsed, hostname, hparsed, hhostname, hpublic⟩ := hostname_of_cloneAddress h
  exact ⟨parsed, hostname, hparsed, hhostname, publicHost_iff hpublic⟩

/-- A public address in the dotted notation, and one that only a resolver reads. -/
theorem publicHost_iff_of_cloneAddress_sample :
    (∃ parsed hostname, urlsplit .ascii (text "http://8.8.8.8/r.git") = some parsed ∧
      parsed.hostname .ascii = some hostname ∧
      (PublicHost .ascii hostname ↔ ¬UnusualNotation .ascii hostname)) ∧
    ∃ parsed hostname, urlsplit .ascii (text "http://127.1/") = some parsed ∧
      parsed.hostname .ascii = some hostname ∧
      (PublicHost .ascii hostname ↔ ¬UnusualNotation .ascii hostname) := by
  have hdotted : cloneAddress .ascii .ascii (.str (text "http://8.8.8.8/r.git")) false =
      .ok (text "http://8.8.8.8/r.git") := by decide +kernel
  have hshort : cloneAddress .ascii .ascii (.str (text "http://127.1/")) false =
      .ok (text "http://127.1/") := by decide +kernel
  exact ⟨publicHost_iff_of_cloneAddress hdotted, publicHost_iff_of_cloneAddress hshort⟩

/-- `http://127.1/` is accepted, which is the local host to a resolver. -/
theorem not_publicHost : cloneAddress .ascii .ascii (.str (text "http://127.1/")) false =
      .ok (text "http://127.1/") ∧
    ((urlsplit .ascii (text "http://127.1/")).bind (·.hostname .ascii)) = some (text "127.1") ∧
    ¬PublicHost .ascii (text "127.1") := by
  refine ⟨by decide +kernel, by decide +kernel, fun h => ?_⟩
  have hglobal := h.number (.v4 0x7F000001) (by decide +kernel)
  exact absurd hglobal (by decide +kernel)

end ForgejoMcp.Client
