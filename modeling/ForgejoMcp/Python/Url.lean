import ForgejoMcp.Python.IpAddress

/-!
# URLs

`urllib.parse.urlsplit` and the parts of a network location.
-/

namespace Python

/-- What the parsing of URLs takes from the Unicode database: `s.lower()` and the NFKC form. -/
structure UrlUnicode where
  lower : Text → Text
  nfkc : Text → Text

/-- The database as far as ASCII goes. -/
def UrlUnicode.ascii : UrlUnicode where
  lower := fun s => s.map fun c => if 0x41 ≤ c.val ∧ c.val ≤ 0x5A then c + 0x20 else c
  nfkc := id

/-- `str.isascii` of a character. -/
def CodePoint.isascii (c : CodePoint) : Bool := decide (c.val < 0x80)

/-- `c.isalpha()` of an ASCII character. -/
def CodePoint.letter (c : CodePoint) : Bool :=
  decide (0x41 ≤ c.val ∧ c.val ≤ 0x5A ∨ 0x61 ≤ c.val ∧ c.val ≤ 0x7A)

/-- A decimal digit of ASCII. -/
def CodePoint.digit (c : CodePoint) : Bool := decide (0x30 ≤ c.val ∧ c.val ≤ 0x39)

/-- `SplitResult`. -/
structure SplitResult where
  scheme : Text
  netloc : Text
  path : Text
  query : Text
  fragment : Text

variable (u : UrlUnicode)

/-- The scheme before the first colon, in lower case, and what is after it. -/
def splitScheme (url : Text) : Text × Text :=
  let (scheme, colon, rest) := url.partition 0x3A
  let schemeChar := fun c : CodePoint => c.letter || c.digit || (text "+-.").contains c
  if colon ≠ [] ∧ scheme.head?.any CodePoint.letter ∧ scheme.all schemeChar then
    (u.lower scheme, rest)
  else ([], url)

/-- `re.match(r"\Av[a-fA-F0-9]+\..+\Z", s)`. -/
def ipFuture (s : Text) : Bool :=
  match s with
  | 0x76 :: s =>
    let digits := s.takeWhile fun c => c.digit?.isSome
    let rest := s.drop digits.length
    !digits.isEmpty && rest.head? == some 0x2E && decide (2 ≤ rest.length) && !rest.contains 0x0A
  | _ => false

/-- `_check_bracketed_host`. -/
def bracketedHost (host : Text) : Bool :=
  if host.head? = some 0x76 then ipFuture host
  else
    match ipAddress host with
    | some (.v6 _) => true
    | _ => false

/-- `_checknetloc`. -/
def checkNetloc (netloc : Text) : Bool :=
  netloc.all CodePoint.isascii ||
    (let n := netloc.filter fun c => !(text "@:#?").contains c
    let normal := u.nfkc n
    decide (n = normal) || !(text "/?#@:").any normal.contains)

/-- `urlsplit(url)`, `none` when it raises. The brackets of a host are checked as in Python 3.12 up to
3.12.8; later versions also refuse other text beside them. -/
def urlsplit (url : Text) : Option SplitResult :=
  let url := (url.dropWhile fun c => decide (c.val ≤ 0x20)).filter fun c =>
    !(text "\t\r\n").contains c
  let (scheme, url) := splitScheme u url
  let (netloc, url) :=
    if (text "//").isPrefixOf url then
      (url.drop 2).span fun c => !(text "/?#").contains c
    else ([], url)
  let opening := netloc.contains 0x5B
  let closing := netloc.contains 0x5D
  let bracketed := (Text.partition (Text.partition netloc 0x5B).2.2 0x5D).1
  if opening ≠ closing ∨ opening ∧ ¬bracketedHost bracketed ∨ ¬checkNetloc u netloc then none
  else
    let (url, _, fragment) := Text.partition url 0x23
    let (path, _, query) := Text.partition url 0x3F
    some ⟨scheme, netloc, path, query, fragment⟩

namespace SplitResult

variable (result : SplitResult)

/-- `_userinfo`. -/
def userinfo : Option Text × Option Text :=
  let (userinfo, separator, _) := result.netloc.rpartition 0x40
  if separator = [] then (none, none)
  else
    let (username, colon, password) := Text.partition userinfo 0x3A
    (some username, if colon = [] then none else some password)

/-- `_hostinfo`; an empty port stands for none. -/
def hostinfo : Text × Text :=
  let (_, _, hostinfo) := result.netloc.rpartition 0x40
  let (_, opening, bracketed) := Text.partition hostinfo 0x5B
  if opening ≠ [] then
    let (hostname, _, port) := Text.partition bracketed 0x5D
    (hostname, (Text.partition port 0x3A).2.2)
  else
    let (hostname, _, port) := Text.partition hostinfo 0x3A
    (hostname, port)

/-- `result.hostname`; a scope keeps its case. -/
def hostname : Option Text :=
  let host := result.hostinfo.1
  if host = [] then none
  else
    let (hostname, percent, zone) := Text.partition host 0x25
    some (u.lower hostname ++ percent ++ zone)

/-- `result.port`; the outer `none` when it raises. -/
def port : Option (Option ℕ) :=
  let port := result.hostinfo.2
  if port = [] then some none
  else if 4300 < port.length then none
  else ((port.number 10).filter (· ≤ 65535)).map some

/-- `result.port` does not raise. -/
def validPort : Bool := result.port.isSome

end SplitResult

end Python
