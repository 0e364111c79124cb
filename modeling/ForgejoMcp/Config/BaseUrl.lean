import ForgejoMcp.Config.HttpOrigin
import ForgejoMcp.Python.UrlLower

/-!
# Base URLs

The base URL of the Forgejo instance is pinned to the ones that the settings allow. What is checked is
written again by a second function, which strips what the first one left at the end.
-/

namespace ForgejoMcp.Config

open Python

variable (u : UrlUnicode)

/-! ### The code -/

/-- `path.rstrip("/")`. -/
def rstripSlashes (path : Text) : Text := path.rdropWhile (· = 0x2F)

/-- `normalize_base_url` of `forgejo/client.py`. -/
def normalizeBaseUrl (value : Text) : Except String Text :=
  match urlsplit u value.strip with
  | none => .error "invalid Forgejo base URL"
  | some parsed =>
    if parsed.port = none then .error "invalid Forgejo base URL"
    else if ¬HttpScheme (u.lower parsed.scheme) ∨ parsed.hostname u = none then
      .error "Forgejo base URL must use http or https"
    else if ¬(parsed.userinfo.1 = none ∨ parsed.userinfo.1 = some []) ∨
        ¬(parsed.userinfo.2 = none ∨ parsed.userinfo.2 = some []) then
      .error "Forgejo base URL must not contain credentials"
    else if parsed.query ≠ [] ∨ parsed.fragment ≠ [] then
      .error "Forgejo base URL must not contain query or fragment"
    else
      .ok (urlunsplit ⟨u.lower parsed.scheme, u.lower parsed.netloc,
        rstripSlashes parsed.path, [], []⟩)

/-- `_normalize_external_base_url` of `config.py`. -/
def normalizeExternalBaseUrl (value : Text) : Except String Text :=
  match urlsplit u value.strip with
  | none => .error "Forgejo allowed base URLs must be valid HTTP URLs"
  | some parsed =>
    if parsed.port = none then .error "Forgejo allowed base URLs must be valid HTTP URLs"
    else if ¬HttpScheme (u.lower parsed.scheme) ∨ parsed.hostname u = none ∨
        parsed.userinfo.1 ≠ none ∨ parsed.userinfo.2 ≠ none ∨ parsed.query ≠ [] ∨
        parsed.fragment ≠ [] then
      .error "Forgejo allowed base URLs must be credential-free HTTP URLs"
    else
      .ok (urlunsplit ⟨u.lower parsed.scheme, u.lower parsed.netloc,
        rstripSlashes parsed.path, [], []⟩)

/-- `Settings.validate_forgejo_allowed_base_urls`. -/
def validateForgejoAllowedBaseUrls (baseUrls : List Text) : Except String (List Text) :=
  baseUrls.mapM (normalizeExternalBaseUrl u)

/-- `Settings.permits_forgejo_base_url`. -/
def permitsForgejoBaseUrl (forgejoAllowedBaseUrls : List Text) (baseUrl : Text) : Bool :=
  if forgejoAllowedBaseUrls.isEmpty then false
  else
    match normalizeExternalBaseUrl u baseUrl with
    | .error _ => false
    | .ok normalized => forgejoAllowedBaseUrls.contains normalized

/-- The settings that `ForgejoInstanceService.check` reads. -/
structure InstanceSettings where
  forgejoAllowedBaseUrls : List Text
  allowUnverifiedForgejoTls : Bool
  allowInsecureForgejoHttp : Bool

/-- The URL that `ForgejoInstanceService.check` contacts and `configure` stores. -/
def checkedBaseUrl (settings : InstanceSettings) (baseUrl : Text) (verifyTls : Bool) :
    Except String Text :=
  match normalizeBaseUrl u baseUrl with
  | .error error => .error error
  | .ok normalizedUrl =>
    if !permitsForgejoBaseUrl u settings.forgejoAllowedBaseUrls normalizedUrl then
      .error "Forgejo base URL is not permitted by deployment policy"
    else if !verifyTls && !settings.allowUnverifiedForgejoTls then
      .error "unverified Forgejo TLS is disabled; enable it explicitly in deployment policy"
    else if (urlsplit u normalizedUrl).any (·.scheme = text "http") &&
        !settings.allowInsecureForgejoHttp then
      .error "HTTP Forgejo URLs are disabled; use HTTPS or explicitly allow insecure HTTP"
    else .ok normalizedUrl

/-! ### The pin -/

/-- What the pin of the base URL promises of one input. -/
structure Pinned (value : Text) : Prop where
  base : ∀ baseUrl, normalizeBaseUrl u value = .ok baseUrl →
    normalizeBaseUrl u baseUrl = .ok baseUrl
  external : ∀ baseUrl, normalizeExternalBaseUrl u value = .ok baseUrl →
    normalizeExternalBaseUrl u baseUrl = .ok baseUrl
  listed : ∀ (configured allowed : List Text) (baseUrl : Text),
    validateForgejoAllowedBaseUrls u configured = .ok allowed →
      normalizeBaseUrl u value = .ok baseUrl → permitsForgejoBaseUrl u allowed baseUrl = true →
        baseUrl ∈ allowed

/-- An input that both functions read alike: an HTTP URL with a host and a valid port, without
credentials, query and fragment. -/
structure Usable (parsed : SplitResult) : Prop where
  port : parsed.port ≠ none
  http : HttpScheme parsed.scheme
  hostname : parsed.hostname u ≠ none
  query : parsed.query = []
  fragment : parsed.fragment = []

/-- The last character before the slashes, the `?` and the `#` that end an input is a blank. -/
def trailingBlank (value : Text) : Bool :=
  (rstripSlashes ((removeUnsafe value.strip).rdropWhile fun c => c = 0x3F ∨ c = 0x23)).getLast?.any
    (·.isspace)

/-! ### What is written -/

/-- The user name and the password are absent or empty. -/
def NoCredentials (parsed : SplitResult) : Prop :=
  (parsed.userinfo.1 = none ∨ parsed.userinfo.1 = some []) ∧
    (parsed.userinfo.2 = none ∨ parsed.userinfo.2 = some [])

/-- There is no user name and no password. -/
def NoUserinfo (parsed : SplitResult) : Prop :=
  parsed.userinfo.1 = none ∧ parsed.userinfo.2 = none

/-- The parts that are put together again. -/
def rewritten (parsed : SplitResult) : SplitResult :=
  ⟨parsed.scheme, u.lower parsed.netloc, rstripSlashes parsed.path, [], []⟩

variable {u} {value baseUrl : Text} {parsed : SplitResult}

theorem normalizeBaseUrl_iff (hu : u.Lawful) : normalizeBaseUrl u value = .ok baseUrl ↔
    ∃ parsed, urlsplit u value.strip = some parsed ∧ Usable u parsed ∧ NoCredentials parsed ∧
      urlunsplit (rewritten u parsed) = baseUrl := by
  rw [normalizeBaseUrl]
  cases hparsed : urlsplit u value.strip with
  | none => simp
  | some parsed =>
    dsimp only
    rw [lower_scheme hu hparsed]
    constructor
    · intro h
      split_ifs at h with hport hhttp hcredentials hquery
      obtain ⟨hhttp, hhostname⟩ := not_or.1 hhttp
      obtain ⟨husername, hpassword⟩ := not_or.1 hcredentials
      obtain ⟨hquery, hfragment⟩ := not_or.1 hquery
      exact ⟨parsed, rfl, ⟨hport, not_not.1 hhttp, hhostname, not_not.1 hquery,
        not_not.1 hfragment⟩, ⟨not_not.1 husername, not_not.1 hpassword⟩, Except.ok.inj h⟩
    · rintro ⟨_, ⟨⟩, husable, ⟨husername, hpassword⟩, rfl⟩
      rw [if_neg husable.port, if_neg, if_neg, if_neg]
      · rfl
      · exact not_or.2 ⟨not_not.2 husable.query, not_not.2 husable.fragment⟩
      · exact not_or.2 ⟨not_not.2 husername, not_not.2 hpassword⟩
      · exact not_or.2 ⟨not_not.2 husable.http, husable.hostname⟩

theorem normalizeExternalBaseUrl_iff (hu : u.Lawful) :
    normalizeExternalBaseUrl u value = .ok baseUrl ↔
      ∃ parsed, urlsplit u value.strip = some parsed ∧ Usable u parsed ∧ NoUserinfo parsed ∧
        urlunsplit (rewritten u parsed) = baseUrl := by
  rw [normalizeExternalBaseUrl]
  cases hparsed : urlsplit u value.strip with
  | none => simp
  | some parsed =>
    dsimp only
    rw [lower_scheme hu hparsed]
    constructor
    · intro h
      split_ifs at h with hport hok
      simp only [not_or, not_not] at hok
      obtain ⟨hhttp, hhostname, husername, hpassword, hquery, hfragment⟩ := hok
      exact ⟨parsed, rfl, ⟨hport, hhttp, hhostname, hquery, hfragment⟩, ⟨husername, hpassword⟩,
        Except.ok.inj h⟩
    · rintro ⟨_, ⟨⟩, husable, ⟨husername, hpassword⟩, rfl⟩
      rw [if_neg husable.port, if_neg]
      · rfl
      · simp only [not_or, not_not]
        exact ⟨husable.http, husable.hostname, husername, hpassword, husable.query,
          husable.fragment⟩

theorem Usable.netloc_ne_nil (h : Usable u parsed) : parsed.netloc ≠ [] := by
  obtain ⟨hostname, hhostname⟩ := Option.ne_none_iff_exists'.1 h.hostname
  exact SplitResult.netloc_ne_nil hhostname

/-- A path without the slashes that end it is empty or absolute as it was. -/
theorem prefix_rstripSlashes (path : Text) : rstripSlashes path <+: path :=
  List.rdropWhile_prefix _ _

theorem absolute_of_front {path path' : Text} (hfront : path' <+: path)
    (h : path = [] ∨ path.head? = some 0x2F) : path' = [] ∨ path'.head? = some 0x2F := by
  obtain ⟨rest, rfl⟩ := hfront
  cases path' with
  | nil => exact .inl rfl
  | cons c path' => exact h.imp (fun hnil => absurd hnil (List.cons_ne_nil _ _)) id

theorem getLast?_append_isspace {s t : Text} (ht : t ≠ []) :
    (s ++ t).getLast?.any (·.isspace) = t.getLast?.any (·.isspace) := by
  obtain ⟨init, c, rfl⟩ := (List.eq_nil_or_concat' t).resolve_left ht
  rw [← List.append_assoc, List.getLast?_concat, List.getLast?_concat]

section Rewritten

variable {url : Text} (hu : u.Lawful) (hparts : Parts u url parsed) (husable : Usable u parsed)

include hparts in
theorem slash_not_mem_netloc : (0x2F : CodePoint) ∉ parsed.netloc :=
  fun hmem => hparts.netloc _ hmem (by decide)

include hu hparts in
theorem reads_rewritten : Reads (u.lower parsed.netloc) (rstripSlashes parsed.path) := by
  have hnetloc {c : CodePoint} (hmark : c ∈ Origin.originMarks) (hc : c ∈ u.lower parsed.netloc) :
      c ∈ parsed.netloc := by
    obtain ⟨hascii, hletter⟩ := Origin.ascii_of_mem_originMarks hmark
    exact ((hu.lowers _).mem_iff hascii hletter).1 hc
  have hpath {c : CodePoint} (hc : c ∈ rstripSlashes parsed.path) : c ∈ parsed.path :=
    (prefix_rstripSlashes _).subset hc
  refine ⟨fun c hc hends => ?_, fun c hc => hparts.path c (hpath hc),
    absolute_of_front (prefix_rstripSlashes _) hparts.absolute, fun c hc hsafe => ?_⟩
  · exact hparts.netloc c (hnetloc (List.mem_append_left _ hends) hc) hends
  · refine hparts.safe c (List.mem_append.2 ?_) hsafe
    have hmark : c ∈ Origin.originMarks :=
      List.mem_append_right _ (List.mem_cons_of_mem _ hsafe)
    exact (List.mem_append.1 hc).imp (hnetloc hmark) hpath

include hu husable in
theorem usable_rewritten : Usable u (rewritten u parsed) where
  port := by
    have hlowers : Lowers parsed.netloc (rewritten u parsed).netloc := hu.lowers _
    rw [SplitResult.port_lowers hlowers husable.port]
    exact husable.port
  http := husable.http
  hostname := by
    have hlowers : Lowers parsed.netloc (rewritten u parsed).netloc := hu.lowers _
    exact mt (SplitResult.hostname_lowers hlowers).2 husable.hostname
  query := rfl
  fragment := rfl

include hu in
/-- What is written is written again as it is. -/
theorem rewritten_rewritten : rewritten u (rewritten u parsed) = rewritten u parsed := by
  rw [rewritten, rewritten]
  dsimp only
  rw [hu.lower_lower, rstripSlashes, rstripSlashes, List.rdropWhile_idempotent]

include hu hparts husable

theorem urlunsplit_rewritten : urlunsplit (rewritten u parsed) =
    parsed.scheme ++ 0x3A :: (text "//" ++ u.lower parsed.netloc ++ rstripSlashes parsed.path) :=
  urlunsplit_http (mt (hu.lowers _).eq_nil_iff.1 husable.netloc_ne_nil) husable.http
    (absolute_of_front (prefix_rstripSlashes _) hparts.absolute)

theorem urlsplit_rewritten : urlsplit u (urlunsplit (rewritten u parsed)) =
    some (rewritten u parsed) := by
  classical
  rw [urlunsplit_rewritten hu hparts husable,
    urlsplit_http hu husable.http (reads_rewritten hu hparts),
    if_pos (hparts.ok.lower hu (slash_not_mem_netloc hparts))]
  rfl

/-- What is written, with the part that may end in a blank apart. -/
theorem urlunsplit_rewritten_eq : urlunsplit (rewritten u parsed) =
    parsed.scheme ++ text "://" ++ (u.lower parsed.netloc ++ rstripSlashes parsed.path) := by
  rw [urlunsplit_rewritten hu hparts husable]
  simp [text]

/-- Whether what is written ends in a blank is told by the parts. -/
theorem getLast?_rewritten : (urlunsplit (rewritten u parsed)).getLast?.any (·.isspace) =
    (parsed.netloc ++ rstripSlashes parsed.path).getLast?.any (·.isspace) := by
  have hlower : u.lower parsed.netloc ≠ [] := mt (hu.lowers _).eq_nil_iff.1 husable.netloc_ne_nil
  rw [urlunsplit_rewritten_eq hu hparts husable,
    getLast?_append_isspace (List.append_ne_nil_of_left_ne_nil hlower _)]
  by_cases hpath : rstripSlashes parsed.path = []
  · rw [hpath, List.append_nil, List.append_nil]
    exact (hu.lowers _).getLast?_isspace
  · rw [getLast?_append_isspace hpath, getLast?_append_isspace hpath]

omit hu hparts in
theorem trailingBlank_eq {value : Text} (hvalue : Parts u value.strip parsed) :
    trailingBlank value = (parsed.netloc ++ rstripSlashes parsed.path).getLast?.any (·.isspace) := by
  obtain ⟨head, query, fragment, heq, hquery, hfragment⟩ := hvalue.text
  obtain ⟨init, c, hnetloc⟩ := (List.eq_nil_or_concat' parsed.netloc).resolve_left husable.netloc_ne_nil
  have hc : c ∈ parsed.netloc := by rw [hnetloc]; simp
  have hslash : c ≠ 0x2F := fun heq => slash_not_mem_netloc hvalue (heq ▸ hc)
  obtain ⟨front, hfront⟩ : ∃ front, removeUnsafe value.strip =
      front ++ (parsed.netloc ++ parsed.path) ++ (query ++ fragment) := by
    have hcut : removeUnsafe value.strip =
        removeUnsafe (value.strip.takeWhile fun c => decide (c.val ≤ 0x20)) ++
          cleaned value.strip := by
      rw [cleaned, removeUnsafe, removeUnsafe, removeUnsafe, ← List.filter_append,
        List.takeWhile_append_dropWhile]
    refine ⟨removeUnsafe (value.strip.takeWhile fun c => decide (c.val ≤ 0x20)) ++ head, ?_⟩
    rw [hcut, heq]
    simp only [List.append_assoc]
  have hmarks : ∀ d ∈ query ++ fragment, decide (d = 0x3F ∨ d = 0x23) = true := by
    rw [husable.query] at hquery
    rw [husable.fragment] at hfragment
    intro d hd
    rw [decide_eq_true_eq]
    rcases List.mem_append.1 hd with hd | hd
    · rcases hquery with ⟨rfl, _⟩ | rfl
      · exact (List.not_mem_nil hd).elim
      · exact .inl (List.mem_singleton.1 hd)
    · rcases hfragment with ⟨rfl, _⟩ | rfl
      · exact (List.not_mem_nil hd).elim
      · exact .inr (List.mem_singleton.1 hd)
  have hkept : (front ++ (parsed.netloc ++ parsed.path)).getLast?.any
      (fun d => decide (d = 0x3F ∨ d = 0x23)) = false := by
    obtain ⟨init, d, hlast⟩ := (List.eq_nil_or_concat' (parsed.netloc ++ parsed.path)).resolve_left
      (List.append_ne_nil_of_left_ne_nil husable.netloc_ne_nil _)
    have hd : d ∈ parsed.netloc ++ parsed.path := by rw [hlast]; simp
    rw [hlast, ← List.append_assoc, List.getLast?_concat, Option.any_some, decide_eq_false_iff_not,
      not_or]
    rcases List.mem_append.1 hd with hd | hd
    · have hends := hvalue.netloc d hd
      exact ⟨fun heq => hends (by rw [heq]; decide), fun heq => hends (by rw [heq]; decide)⟩
    · exact hvalue.path d hd
  have hslashes : rstripSlashes (front ++ (parsed.netloc ++ parsed.path)) =
      front ++ (parsed.netloc ++ rstripSlashes parsed.path) := by
    have hcut (path : Text) : front ++ (parsed.netloc ++ path) = front ++ init ++ c :: path := by
      rw [hnetloc]
      simp
    rw [hcut, hcut, rstripSlashes, rdropWhile_append_cons _ (decide_eq_false hslash), rstripSlashes]
  rw [trailingBlank, hfront, rdropWhile_append_of_pos _ hmarks, rdropWhile_eq_self hkept, hslashes,
    getLast?_append_isspace (List.append_ne_nil_of_left_ne_nil husable.netloc_ne_nil _)]

/-- Without a blank at its end, what is written is read as the parts it is written from. -/
theorem urlsplit_strip_rewritten
    (hblank : (urlunsplit (rewritten u parsed)).getLast?.any (·.isspace) = false) :
    urlsplit u (urlunsplit (rewritten u parsed)).strip = some (rewritten u parsed) := by
  have hlower : u.lower parsed.netloc ≠ [] := mt (hu.lowers _).eq_nil_iff.1 husable.netloc_ne_nil
  rw [urlunsplit_rewritten_eq hu hparts husable,
    getLast?_append_isspace (List.append_ne_nil_of_left_ne_nil hlower _)] at hblank
  have hstrip : (urlunsplit (rewritten u parsed)).strip = urlunsplit (rewritten u parsed) := by
    rw [urlunsplit_rewritten hu hparts husable, List.append_assoc, strip_http husable.http,
      Text.rstrip, rdropWhile_eq_self hblank]
  rw [hstrip]
  exact urlsplit_rewritten hu hparts husable

/-- With a blank at its end, what is written is not written again: the blank comes off it, and what
is written of the rest is shorter or ends in no blank. -/
theorem urlunsplit_ne_of_blank {parsed' : SplitResult}
    (hblank : (urlunsplit (rewritten u parsed)).getLast?.any (·.isspace) = true)
    (hparsed' : urlsplit u (urlunsplit (rewritten u parsed)).strip = some parsed')
    (husable' : Usable u parsed') :
    urlunsplit (rewritten u parsed') ≠ urlunsplit (rewritten u parsed) := by
  classical
  intro heq
  have hparts' := urlsplit_parts hparsed' husable'.netloc_ne_nil
  have hreads := reads_rewritten hu hparts
  rw [urlunsplit_rewritten hu hparts husable, List.append_assoc, strip_http husable.http] at hparsed'
  rw [urlunsplit_rewritten hu hparts' husable', urlunsplit_rewritten hu hparts husable] at heq
  rw [urlunsplit_rewritten_eq hu hparts husable] at hblank
  cases hpath : rstripSlashes parsed.path with
  | nil =>
    rw [hpath, List.append_nil] at hparsed' hblank heq
    rw [← List.append_nil (Text.rstrip _), ← List.append_assoc, urlsplit_http hu husable.http
      (hreads.mono (Text.prefix_rstrip _) List.nil_prefix)] at hparsed'
    split at hparsed'
    · obtain rfl := Option.some.inj hparsed'
      have hsame : u.lower (u.lower parsed.netloc).rstrip = u.lower parsed.netloc := by
        simpa [rstripSlashes] using heq
      have hlast := (hu.lowers (u.lower parsed.netloc).rstrip).getLast?_isspace
      rw [hsame, Text.rstrip, getLast?_rdropWhile] at hlast
      rw [getLast?_append_isspace (mt (hu.lowers _).eq_nil_iff.1 husable.netloc_ne_nil), hlast]
        at hblank
      cases hblank
    · cases hparsed'
  | cons c path =>
    obtain rfl : c = 0x2F := by
      have habsolute := hreads.absolute
      rw [hpath] at habsolute
      exact Option.some.inj (habsolute.resolve_left (List.cons_ne_nil _ _))
    rw [hpath] at hparsed' hblank heq hreads
    have hfront : 0x2F :: Text.rstrip path <+: 0x2F :: path :=
      List.prefix_cons_inj _ |>.2 (Text.prefix_rstrip path)
    rw [Text.rstrip, rdropWhile_append_cons _ (by decide), ← Text.rstrip, ← List.append_assoc,
      urlsplit_http hu husable.http (hreads.mono (List.prefix_refl _) hfront)] at hparsed'
    split at hparsed'
    · obtain rfl := Option.some.inj hparsed'
      have hsame : rstripSlashes (0x2F :: Text.rstrip path) = 0x2F :: path := by
        simpa [hu.lower_lower] using heq
      have hlast : path.getLast?.any (·.isspace) = true := by
        rw [← List.append_assoc, getLast?_append_isspace (List.cons_ne_nil _ _)] at hblank
        cases path with
        | nil => exact absurd hblank (by decide)
        | cons d path => rwa [List.getLast?_cons_cons] at hblank
      have hshort : (Text.rstrip path).length < path.length := length_rdropWhile_lt hlast
      have hle := (prefix_rstripSlashes (0x2F :: Text.rstrip path)).length_le
      rw [hsame, List.length_cons, List.length_cons] at hle
      omega
    · cases hparsed'

end Rewritten

theorem noCredentials_rewritten (hu : u.Lawful) (h : NoCredentials parsed) :
    NoCredentials (rewritten u parsed) := by
  have hlowers : Lowers parsed.netloc (rewritten u parsed).netloc := hu.lowers _
  obtain ⟨husername, hpassword, husername', hpassword'⟩ := SplitResult.userinfo_lowers hlowers
  exact ⟨h.1.imp husername.1 husername'.1, h.2.imp hpassword.1 hpassword'.1⟩

theorem noUserinfo_rewritten (hu : u.Lawful) (h : NoUserinfo parsed) :
    NoUserinfo (rewritten u parsed) := by
  have hlowers : Lowers parsed.netloc (rewritten u parsed).netloc := hu.lowers _
  obtain ⟨husername, hpassword, _⟩ := SplitResult.userinfo_lowers hlowers
  exact ⟨husername.1 h.1, hpassword.1 h.2⟩

/-! ### The condition -/

/-- An input that `normalize_base_url` lets through. -/
def Readable (u : UrlUnicode) (value : Text) : Prop :=
  ∃ parsed, urlsplit u value.strip = some parsed ∧ Usable u parsed ∧ NoCredentials parsed

/-- An input without such a blank is written in a form that stays as it is. -/
theorem pinned_of_not_blank (hu : u.Lawful)
    (hcondition : Readable u value → trailingBlank value = false) : Pinned u value := by
  have hagain {parsed : SplitResult} (hparsed : urlsplit u value.strip = some parsed)
      (husable : Usable u parsed) (hcredentials : NoCredentials parsed) :
      urlsplit u (urlunsplit (rewritten u parsed)).strip = some (rewritten u parsed) ∧
        Usable u (rewritten u parsed) ∧ rewritten u (rewritten u parsed) = rewritten u parsed := by
    have hparts := urlsplit_parts hparsed husable.netloc_ne_nil
    have hblank := hcondition ⟨parsed, hparsed, husable, hcredentials⟩
    rw [trailingBlank_eq husable hparts, ← getLast?_rewritten hu hparts husable]
      at hblank
    exact ⟨urlsplit_strip_rewritten hu hparts husable hblank, usable_rewritten hu husable,
      rewritten_rewritten hu⟩
  refine ⟨fun baseUrl h => ?_, fun baseUrl h => ?_, fun configured allowed baseUrl _ h hpermits => ?_⟩
  · obtain ⟨parsed, hparsed, husable, hcredentials, rfl⟩ := (normalizeBaseUrl_iff hu).1 h
    obtain ⟨hsplit, husable', hsame⟩ := hagain hparsed husable hcredentials
    exact (normalizeBaseUrl_iff hu).2
      ⟨_, hsplit, husable', noCredentials_rewritten hu hcredentials, by rw [hsame]⟩
  · obtain ⟨parsed, hparsed, husable, huserinfo, rfl⟩ := (normalizeExternalBaseUrl_iff hu).1 h
    obtain ⟨hsplit, husable', hsame⟩ := hagain hparsed husable ⟨.inl huserinfo.1, .inl huserinfo.2⟩
    exact (normalizeExternalBaseUrl_iff hu).2
      ⟨_, hsplit, husable', noUserinfo_rewritten hu huserinfo, by rw [hsame]⟩
  · obtain ⟨parsed, hparsed, husable, hcredentials, rfl⟩ := (normalizeBaseUrl_iff hu).1 h
    obtain ⟨hsplit, husable', hsame⟩ := hagain hparsed husable hcredentials
    rw [permitsForgejoBaseUrl] at hpermits
    split at hpermits
    · cases hpermits
    · split at hpermits
      · cases hpermits
      · rename_i normalized hnormalized
        obtain ⟨parsed', hparsed', _, _, rfl⟩ := (normalizeExternalBaseUrl_iff hu).1 hnormalized
        obtain rfl := Option.some.inj (hsplit.symm.trans hparsed')
        rw [hsame] at hpermits
        exact List.contains_iff_mem.1 hpermits

theorem not_blank_of_pinned (hu : u.Lawful) (hpinned : Pinned u value) :
    Readable u value → trailingBlank value = false := by
  rintro ⟨parsed, hparsed, husable, hcredentials⟩
  have hparts := urlsplit_parts hparsed husable.netloc_ne_nil
  rw [trailingBlank_eq husable hparts, ← getLast?_rewritten hu hparts husable,
    ← Bool.not_eq_true]
  intro hblank
  have hagain := hpinned.base _ ((normalizeBaseUrl_iff hu).2
    ⟨parsed, hparsed, husable, hcredentials, rfl⟩)
  obtain ⟨parsed', hparsed', husable', _, heq⟩ := (normalizeBaseUrl_iff hu).1 hagain
  exact urlunsplit_ne_of_blank hu hparts husable hblank hparsed' husable' heq

/-- The URL that is contacted is one that the settings list. -/
theorem checkedBaseUrl_mem (hu : u.Lawful) {settings : InstanceSettings} {configured : List Text}
    {verifyTls : Bool} (hblank : trailingBlank value = false)
    (hvalid : validateForgejoAllowedBaseUrls u configured = .ok settings.forgejoAllowedBaseUrls)
    (h : checkedBaseUrl u settings value verifyTls = .ok baseUrl) :
    baseUrl ∈ settings.forgejoAllowedBaseUrls := by
  rw [checkedBaseUrl] at h
  split at h
  · cases h
  · rename_i normalizedUrl hnormalized
    split_ifs at h with hpermits
    cases h
    refine (pinned_of_not_blank hu fun _ => hblank).listed configured _ _ hvalid hnormalized ?_
    simpa using hpermits

/-- The pin of the base URL holds of just the inputs without such a blank. -/
theorem pinned_iff (hu : u.Lawful) (value : Text) :
    Pinned u value ↔ (Readable u value → trailingBlank value = false) :=
  ⟨not_blank_of_pinned hu, pinned_of_not_blank hu⟩

theorem pinned_iff_ascii : Pinned .ascii (text "https://git.example/a") ↔
    (Readable .ascii (text "https://git.example/a") →
      trailingBlank (text "https://git.example/a") = false) :=
  pinned_iff UrlUnicode.ascii_lawful _

/-- A blank before the slash that ends a URL gets past the pin. -/
theorem not_pinned_blank : ¬Pinned .ascii (text "https://git.example/a /") := by
  intro h
  have hallowed := h.listed [text "https://git.example/a"] [text "https://git.example/a"]
    (text "https://git.example/a ") (by decide +kernel) (by decide +kernel) (by decide +kernel)
  exact absurd hallowed (by decide +kernel)

end ForgejoMcp.Config
