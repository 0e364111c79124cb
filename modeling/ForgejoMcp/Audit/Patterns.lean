import ForgejoMcp.Python.Str
import ForgejoMcp.Regex.Substitution

/-!
# Redaction of text

The patterns of `audit/redaction.py`, `_sensitive_key` and `_redact_text`.
-/

namespace ForgejoMcp.Audit

open Python Regex Regex.Pattern

/-! ### Classes of characters -/

/-- `[…]` with single characters. -/
def oneOf (chars : String) (c : CodePoint) : Bool := (text chars).contains c

/-- `[a-z]`. -/
def lower (c : CodePoint) : Bool := decide (0x61 ≤ c.val ∧ c.val ≤ 0x7A)

/-- `[A-Z]`. -/
def upper (c : CodePoint) : Bool := decide (0x41 ≤ c.val ∧ c.val ≤ 0x5A)

/-- `[0-9]`. -/
def digit (c : CodePoint) : Bool := decide (0x30 ≤ c.val ∧ c.val ≤ 0x39)

/-- `[A-Za-z]`. -/
def letter (c : CodePoint) : Bool := lower c || upper c

/-- `[a-zA-Z0-9+.-]`. -/
def schemeChar (c : CodePoint) : Bool := letter c || digit c || oneOf "+.-" c

/-- `[^/\s]`. -/
def credentialChar (c : CodePoint) : Bool := !(oneOf "/" c || c.isspace)

/-- `[^/:\s"'()]`. -/
def usernameChar (c : CodePoint) : Bool := !(oneOf "/:\"'()" c || c.isspace)

/-- `[^\s"']`. -/
def passwordChar (c : CodePoint) : Bool := !(oneOf "\"'" c || c.isspace)

/-- `[^/\s"'(),;\[\]<>?#]`. -/
def hostChar (c : CodePoint) : Bool := !(oneOf "/\"'(),;[]<>?#" c || c.isspace)

/-- `[0-9A-Fa-f:.]`. -/
def addressChar (c : CodePoint) : Bool :=
  digit c || decide (0x41 ≤ c.val ∧ c.val ≤ 0x46 ∨ 0x61 ≤ c.val ∧ c.val ≤ 0x66) || oneOf ":." c

/-- `[A-Za-z0-9]`. -/
def nameEnd (c : CodePoint) : Bool := letter c || digit c

/-- `[A-Za-z0-9._-]`. -/
def nameChar (c : CodePoint) : Bool := letter c || digit c || oneOf "._-" c

/-- `/|\s|["'),;\[\]<>?#]`. -/
def terminatorChar (c : CodePoint) : Bool := oneOf "/" c || c.isspace || oneOf "\"'),;[]<>?#" c

theorem of_oneOf {chars : String} {p : CodePoint → Bool} {c : CodePoint} (h : oneOf chars c = true)
    (hp : (text chars).all p = true) : p c = true :=
  List.all_eq_true.1 hp c (List.contains_iff_mem.1 h)

/-- Nothing between the blank and the end of ASCII is a blank. -/
theorem isspace_eq_false {c : CodePoint} (h : 0x20 < c.val ∧ c.val < 0x7F) : c.isspace = false := by
  rw [CodePoint.isspace, Bool.or_eq_false_iff]
  refine ⟨decide_eq_false (by omega), ?_⟩
  simp
  omega

/-- The characters of a scheme end no authority. -/
theorem terminatorChar_of_schemeChar {c : CodePoint} (h : schemeChar c = true) :
    terminatorChar c = false := by
  have hval : 0x20 < c.val ∧ c.val < 0x7F := by
    rw [schemeChar, letter, Bool.or_eq_true, Bool.or_eq_true, Bool.or_eq_true] at h
    rcases h with ((h | h) | h) | h
    · have := of_decide_eq_true h
      omega
    · have := of_decide_eq_true h
      omega
    · have := of_decide_eq_true h
      omega
    · exact of_decide_eq_true (of_oneOf (p := fun c => decide (0x20 < c.val ∧ c.val < 0x7F)) h
        (by decide))
  have hone : ∀ {chars}, (text chars).all (fun c => !schemeChar c) = true → oneOf chars c = false := by
    intro chars hchars
    rw [← Bool.not_eq_true]
    intro hc
    exact absurd (of_oneOf hc hchars) (by rw [h]; exact Bool.false_ne_true)
  rw [terminatorChar, isspace_eq_false hval, hone (by decide), hone (by decide)]
  rfl

/-! ### Patterns -/

/-- `_URL_CREDENTIALS`. -/
def urlCredentials : Pattern CodePoint :=
  cat (group "scheme" (cat (char letter) (cat (star (char schemeChar)) (lit (text "://")))))
    (cat (plus (char credentialChar)) (lit (text "@")))

/-- `(?<![^\s(/"'\[<])`. -/
def authorityStart : List CodePoint → List CodePoint → Bool
  | [], _ => true
  | c :: _, _ => c.isspace || oneOf "(/\"'[<" c

/-- `(?!//)`. -/
def notSlashes (_ rest : List CodePoint) : Bool := !(text "//").isPrefixOf rest

/-- `$`. -/
def atEnd (_ rest : List CodePoint) : Bool := rest.isEmpty || decide (rest = [0x0A])

/-- `\[[0-9A-Fa-f:.]+\]`. -/
def bracketed : Pattern CodePoint :=
  cat (lit (text "[")) (cat (plus (char addressChar)) (lit (text "]")))

/-- The authority of `_AUTHORITY_CANDIDATE`. -/
def authority : Pattern CodePoint :=
  cat (plus (char usernameChar)) (cat (lit (text ":")) (cat (look notSlashes)
    (cat (plus (char passwordChar)) (cat (lit (text "@")) (alt bracketed (plus (char hostChar)))))))

/-- `_AUTHORITY_CANDIDATE`. -/
def authorityCandidate : Pattern CodePoint :=
  cat (look authorityStart) (cat (group "authority" authority)
    (group "terminator" (alt (lit (text "/")) (alt (look atEnd) (char fun c =>
      c.isspace || oneOf "\"'),;[]<>?#" c)))))

/-- `[A-Za-z0-9](?:[A-Za-z0-9._-]*[A-Za-z0-9])?`. -/
def hostName : Pattern CodePoint :=
  cat (char nameEnd) (opt (cat (star (char nameChar)) (char nameEnd)))

/-- `_AUTHORITY_HOST`. -/
def authorityHost : Pattern CodePoint :=
  cat (alt bracketed hostName) (cat (opt (cat (lit (text ":")) (plus (char nameChar))))
    (opt (lit (text "."))))

/-- `v[0-9]+(?:\.[0-9]+)*`. -/
def releaseVersion : Pattern CodePoint :=
  cat (lit (text "v")) (cat (plus (char digit)) (star (cat (lit (text ".")) (plus (char digit)))))

/-- `(?:[01]?[0-9]|2[0-3]):[0-5][0-9]`. -/
def clockTime : Pattern CodePoint :=
  cat (alt (cat (opt (char (oneOf "01"))) (char digit)) (cat (lit (text "2")) (char (oneOf "0123"))))
    (cat (lit (text ":")) (cat (char (oneOf "012345")) (char digit)))

/-- `_CAMEL_CASE_BOUNDARY`. -/
def camelCaseBoundary : Pattern CodePoint :=
  look fun before rest => before.head?.any (fun c => lower c || digit c) && rest.head?.any upper

/-! ### Functions -/

/-- What stands in the place of a secret. -/
def redacted : Text := text "[REDACTED]"

/-- `_SENSITIVE_FRAGMENTS`. -/
def sensitiveFragments : List Text := ["authorization", "api_key", "cookie", "credential", "password",
  "passwd", "private_key", "secret", "token"].map text

variable (u : Unicode)

/-- `_sensitive_key`. -/
def sensitiveKey (key : Text) : Bool :=
  let normalized := (u.casefold (camelCaseBoundary.sub (fun _ => text "_") key)).map fun c =>
    if c = 0x2D then 0x5F else c
  let collapsed := normalized.filter (· ≠ 0x5F)
  sensitiveFragments.any fun fragment =>
    Text.includes normalized fragment || Text.includes collapsed (fragment.filter (· ≠ 0x5F))

/-- `s.isdecimal()`. -/
def isdecimal (s : Text) : Bool := !s.isEmpty && s.all u.isdecimal

/-- `_redact_schemeless_authority`. -/
def redactSchemelessAuthority (m : Match CodePoint) : Text :=
  let authority := m.group "authority"
  let (userinfo, separator, host) := Text.rpartition authority 0x40
  let (username, colon, password) := Text.partition userinfo 0x3A
  let pre := u.casefold (Text.rstrip m.before.reverse)
  if Text.endswith pre (text "ratio") && isdecimal u username && isdecimal u password ||
      decide (username = text "release") && releaseVersion.fullmatch password then m.text
  else if separator.isEmpty || colon.isEmpty || username.isEmpty || password.isEmpty ||
      username.contains 0x40 || clockTime.fullmatch userinfo || !authorityHost.fullmatch host then
    m.text
  else redacted ++ text "@" ++ host ++ m.group "terminator"

/-- The first pass of `_redact_text`. -/
def redactUrls (value : Text) : Text :=
  urlCredentials.sub (fun m => m.group "scheme" ++ redacted ++ text "@") value

/-- `_redact_text`. -/
def redactText (value : Text) : Text :=
  authorityCandidate.sub (redactSchemelessAuthority u) (redactUrls value)

end ForgejoMcp.Audit
