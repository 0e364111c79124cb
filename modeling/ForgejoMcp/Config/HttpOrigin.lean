import ForgejoMcp.Python.UrlSplit

/-!
# Origins

`normalize_http_origin` writes an origin in one way: two origins are written alike just if they have
the same scheme, host and port. The checks of request origins compare what it writes.
-/

namespace ForgejoMcp.Config

open Python

variable (u : UrlUnicode)

/-! ### `config.py` -/

/-- The port that an origin of a scheme has without one. -/
def defaultPort (scheme : Text) : ℕ := if scheme = text "http" then 80 else 443

/-- `normalize_http_origin`. -/
def normalizeHttpOrigin (value : Text) : Except String Text :=
  match urlsplit u value.strip with
  | none => .error "MCP allowed origins must be valid HTTP origins"
  | some parsed =>
    match parsed.port with
    | none => .error "MCP allowed origins must be valid HTTP origins"
    | some port =>
      let scheme := u.lower parsed.scheme
      match parsed.hostname u with
      | none => .error "MCP allowed origins must contain only an HTTP scheme and authority"
      | some hostname =>
        if ¬HttpScheme scheme ∨ parsed.userinfo.1 ≠ none ∨ parsed.userinfo.2 ≠ none ∨
            ¬(parsed.path = [] ∨ parsed.path = text "/") ∨ parsed.query ≠ [] ∨
            parsed.fragment ≠ [] then
          .error "MCP allowed origins must contain only an HTTP scheme and authority"
        else
          let host :=
            if (0x3A : CodePoint) ∈ hostname then 0x5B :: (u.lower hostname ++ [0x5D])
            else u.lower hostname
          let netloc := match port with
            | none => host
            | some port =>
              if port = defaultPort scheme then host else host ++ 0x3A :: numeral 10 port
          .ok (urlunsplit ⟨scheme, netloc, [], [], []⟩)

/-- `_normalize_oauth_url`. -/
def normalizeOauthUrl (value : Text) (label : String) : Except String Text :=
  match urlsplit u value.strip with
  | none => .error (label ++ " must be a valid HTTP URL")
  | some parsed =>
    if parsed.port = none then .error (label ++ " must be a valid HTTP URL")
    else if ¬HttpScheme (u.lower parsed.scheme) ∨ parsed.hostname u = none ∨
        parsed.userinfo.1 ≠ none ∨ parsed.userinfo.2 ≠ none ∨ parsed.query ≠ [] ∨
        parsed.fragment ≠ [] then
      .error (label ++ " must be a credential-free HTTP URL")
    else
      .ok (urlunsplit ⟨u.lower parsed.scheme, u.lower parsed.netloc,
        parsed.path.rdropWhile (· = 0x2F), [], []⟩)

/-- `Settings.validate_mcp_allowed_origins`. -/
def validateMcpAllowedOrigins (origins : List Text) : Except String (List Text) :=
  origins.mapM (normalizeHttpOrigin u)

/-- The values of `Settings.environment`. -/
inductive Environment
  | development
  | test
  | production
  deriving DecidableEq

/-- The settings that `validate_oauth_settings` reads. -/
structure OAuthSettings where
  environment : Environment
  oauthEnabled : Bool
  oauthIssuerUrl : Option Text
  oauthResourceUrl : Option Text
  oauthCimdAllowedOrigins : List Text
  oauthRefreshTokenTtlDays : ℕ
  oauthRefreshTokenMaxTtlDays : ℕ

/-- The conditions on the normalised issuer and resource. -/
def checkOauthUrls (settings : OAuthSettings) (issuerUrl resourceUrl : Text) :
    Except String Unit :=
  match urlsplit u issuerUrl, urlsplit u resourceUrl with
  | some issuer, some resource =>
    if ¬(issuer.path = [] ∨ issuer.path = text "/") then
      .error "OAuth issuer URL must be an origin without a path"
    else
      match normalizeHttpOrigin u (resource.scheme ++ text "://" ++ resource.netloc) with
      | .error error => .error error
      | .ok origin =>
        if origin ≠ issuerUrl ∨ resource.path ≠ text "/mcp" then
          .error "OAuth resource URL must be the issuer origin followed by /mcp"
        else if settings.environment = .production then
          if ¬(text "https://").isPrefixOf issuerUrl then
            .error "production OAuth issuer URL must use HTTPS"
          else if ¬(text "https://").isPrefixOf resourceUrl then
            .error "production OAuth resource URL must use HTTPS"
          else if settings.oauthCimdAllowedOrigins.any (!(text "https://").isPrefixOf ·) then
            .error "production OAuth CIMD origins must use HTTPS"
          else .ok ()
        else .ok ()
  | _, _ => .error "ValueError"

/-- `Settings.validate_oauth_settings`. -/
def validateOauthSettings (settings : OAuthSettings) : Except String OAuthSettings :=
  if ¬settings.oauthEnabled then .ok settings
  else if settings.oauthRefreshTokenMaxTtlDays < settings.oauthRefreshTokenTtlDays then
    .error "OAuth refresh token default TTL must not exceed the configured maximum"
  else
    match settings.oauthIssuerUrl, settings.oauthResourceUrl with
    | some issuer, some resource => do
      let issuer ← normalizeOauthUrl u issuer "OAuth issuer URL"
      let resource ← normalizeOauthUrl u resource "OAuth resource URL"
      checkOauthUrls u settings issuer resource
      return { settings with oauthIssuerUrl := some issuer, oauthResourceUrl := some resource }
    | _, _ => .error "OAuth requires FMCP_OAUTH_ISSUER_URL and FMCP_OAUTH_RESOURCE_URL"

/-! ### The checks of requests -/

/-- `_origin_allowed` of `mcp/server.py`. -/
def originAllowed (origin : Text) (allowedOrigins : List Text) : Bool :=
  match normalizeHttpOrigin u origin with
  | .error _ => false
  | .ok normalized => allowedOrigins.contains normalized

/-- `_same_origin` of `api/oauth.py`; `origin` is the header of the request. -/
def sameOrigin (origin : Option Text) (issuerUrl : Text) : Bool :=
  match origin with
  | none => false
  | some origin =>
    match normalizeHttpOrigin u origin, normalizeHttpOrigin u issuerUrl with
    | .ok normalized, .ok issuer => normalized == issuer
    | _, _ => false

/-! ### Origins -/

/-- A scheme, a host in lower case and the port that is used. -/
structure Origin where
  scheme : Text
  host : Text
  port : ℕ
  deriving DecidableEq

/-- The origin that a text denotes, as `urlsplit` reads it. -/
def originOf (value : Text) : Option Origin := do
  let parsed ← urlsplit u value.strip
  let hostname ← parsed.hostname u
  let port ← parsed.port
  return ⟨parsed.scheme, u.lower hostname, port.getD (defaultPort parsed.scheme)⟩

namespace Origin

/-- The origin as a network location, without a port that is the default. -/
def netloc (o : Origin) : Text :=
  let host := if (0x3A : CodePoint) ∈ o.host then 0x5B :: (o.host ++ [0x5D]) else o.host
  if o.port = defaultPort o.scheme then host else host ++ 0x3A :: numeral 10 o.port

/-- The text of an origin. -/
def render (o : Origin) : Text := o.scheme ++ 0x3A :: (text "//" ++ o.netloc)

/-- The characters that no origin is written with, after its slashes. -/
def originMarks : Text := netlocEnds ++ 0x40 :: text "\t\r\n"

theorem ascii_of_mem_originMarks {c : CodePoint} (h : c ∈ originMarks) :
    c.isascii = true ∧ c.letter = false := by
  have hmarks : originMarks.all (fun c => c.isascii && !c.letter) = true := by decide
  simpa using List.all_eq_true.1 hmarks c h

/-- What the host of an HTTP origin may hold. -/
structure WellFormed (o : Origin) : Prop where
  http : HttpScheme o.scheme
  host : o.host ≠ []
  closing : (0x5D : CodePoint) ∉ o.host
  opening : (0x3A : CodePoint) ∉ o.host → o.host.head? ≠ some 0x5B
  safe : ∀ c ∈ o.host, c ∉ originMarks

/-- A text before a separator is told by the whole. -/
theorem append_cons_inj {c : CodePoint} {s s' t t' : Text} (hs : c ∉ s) (hs' : c ∉ s')
    (heq : s ++ c :: t = s' ++ c :: t') : s = s' ∧ t = t' := by
  have hpart := congrArg (Text.partition · c) heq
  rw [Text.partition_append_cons hs, Text.partition_append_cons hs'] at hpart
  simpa using hpart

/-- The port that is written, with its colon. -/
def portSuffix (o : Origin) : Text :=
  if o.port = defaultPort o.scheme then [] else 0x3A :: numeral 10 o.port

theorem netloc_eq (o : Origin) : o.netloc =
    (if (0x3A : CodePoint) ∈ o.host then 0x5B :: (o.host ++ [0x5D]) else o.host) ++ o.portSuffix := by
  rw [netloc, portSuffix]
  split
  · rw [List.append_nil]
  · rfl

theorem portSuffix_injective {o o' : Origin} (hscheme : o.scheme = o'.scheme)
    (heq : o.portSuffix = o'.portSuffix) : o.port = o'.port := by
  rw [portSuffix, portSuffix, hscheme] at heq
  split at heq
  · rename_i hdefault
    split at heq
    · rename_i hdefault'
      rw [hdefault, hdefault']
    · cases heq
  · split at heq
    · cases heq
    · have hnumber := congrArg (Text.number 10) (List.cons.inj heq).2
      rw [number_numeral (by omega) (by omega), number_numeral (by omega) (by omega)] at hnumber
      exact Option.some.inj hnumber

/-- A host without colons, in front of a port or of nothing. -/
theorem partition_host {o : Origin} {host : Text} (hcolon : (0x3A : CodePoint) ∉ host) :
    ((host ++ o.portSuffix).partition 0x3A).1 = host := by
  rw [portSuffix]
  split
  · rw [List.append_nil, Text.partition_of_not_mem hcolon]
  · rw [Text.partition_append_cons hcolon]

/-- Different origins are written differently. -/
theorem render_injective {o o' : Origin} (h : o.WellFormed) (h' : o'.WellFormed)
    (heq : o.render = o'.render) : o = o' := by
  have hcolon {scheme : Text} (hscheme : HttpScheme scheme) : (0x3A : CodePoint) ∉ scheme := by
    rcases hscheme with rfl | rfl <;> decide
  obtain ⟨hscheme, hrest⟩ := append_cons_inj (hcolon h.http) (hcolon h'.http) heq
  have hnetloc : o.netloc = o'.netloc := List.append_cancel_left hrest
  rw [netloc_eq, netloc_eq] at hnetloc
  have hhead {o o' : Origin} (h' : o'.WellFormed) (hmem : (0x3A : CodePoint) ∉ o'.host)
      (heq : 0x5B :: (o.host ++ [0x5D]) ++ o.portSuffix = o'.host ++ o'.portSuffix) : False := by
    have hfirst := congrArg List.head? heq
    rw [List.cons_append, List.head?_cons, List.head?_append_of_ne_nil _ h'.host] at hfirst
    exact h'.opening hmem hfirst.symm
  have hboth : o.host = o'.host ∧ o.portSuffix = o'.portSuffix := by
    by_cases hmem : (0x3A : CodePoint) ∈ o.host
    · rw [if_pos hmem] at hnetloc
      by_cases hmem' : (0x3A : CodePoint) ∈ o'.host
      · rw [if_pos hmem'] at hnetloc
        simp only [List.cons_append, List.append_assoc] at hnetloc
        exact append_cons_inj h.closing h'.closing (List.cons.inj hnetloc).2
      · rw [if_neg hmem'] at hnetloc
        exact (hhead h' hmem' hnetloc).elim
    · rw [if_neg hmem] at hnetloc
      by_cases hmem' : (0x3A : CodePoint) ∈ o'.host
      · rw [if_pos hmem'] at hnetloc
        exact (hhead h hmem hnetloc.symm).elim
      · rw [if_neg hmem'] at hnetloc
        have hhost : o.host = o'.host := by
          rw [← partition_host hmem, hnetloc, partition_host hmem']
        rw [hhost] at hnetloc
        exact ⟨hhost, List.append_cancel_left hnetloc⟩
  have hport := portSuffix_injective hscheme hboth.2
  cases o
  cases o'
  simp_all

end Origin

/-! ### Comparing origins -/

variable {u}

/-- An accepted origin is written as the origin that it denotes. -/
theorem normalizeHttpOrigin_eq_ok (hu : u.Lawful) {value normalized : Text}
    (h : normalizeHttpOrigin u value = .ok normalized) :
    ∃ o, originOf u value = some o ∧ o.WellFormed ∧ normalized = o.render := by
  rw [normalizeHttpOrigin] at h
  split at h
  · cases h
  rename_i parsed hparsed
  split at h
  · cases h
  rename_i port hport
  dsimp only at h
  split at h
  · cases h
  rename_i hostname hhostname
  split at h
  · cases h
  rename_i hok
  have hscheme : u.lower parsed.scheme = parsed.scheme := lower_scheme hu hparsed
  rw [hscheme] at h hok
  simp only [not_or, not_not] at hok
  obtain ⟨hhttp, huser, _, _, _, _⟩ := hok
  have hat := SplitResult.userinfo_eq_none_iff.1 huser
  obtain ⟨hne, hmem, hhead⟩ := SplitResult.hostname_eq_some hu hhostname
  have hparts := urlsplit_parts hparsed (SplitResult.netloc_ne_nil hhostname)
  let o : Origin := ⟨parsed.scheme, u.lower hostname, port.getD (defaultPort parsed.scheme)⟩
  have hlower : o.host ≠ [] := mt (hu.lowers _).eq_nil_iff.1 hne
  have hwell : o.WellFormed := by
    refine ⟨hhttp, hlower, ?_, fun hcolon => ?_, fun c hc hmark => ?_⟩
    · rw [(hu.lowers _).mem_iff (by decide) (by decide), hmem _ (by decide) (by decide)]
      exact hparts.ok.closing_not_mem_host hat
    · have hcolon' : (0x3A : CodePoint) ∉ parsed.hostinfo.1 := by
        rw [← hmem _ (by decide) (by decide), ← (hu.lowers _).mem_iff (by decide) (by decide)]
        exact hcolon
      rcases hparts.ok.head?_host hat hcolon' with hopening | hv
      · intro hfirst
        have hin : (0x5B : CodePoint) ∈ o.host := List.mem_of_mem_head? hfirst
        rw [(hu.lowers _).mem_iff (by decide) (by decide), hmem _ (by decide) (by decide)] at hin
        exact hopening hin
      · have hlowerv := (hu.lowers _).head?_ascii (hhead hv) (by decide)
        intro hfirst
        rw [hlowerv] at hfirst
        exact absurd hfirst (by decide)
    · obtain ⟨hascii, hletter⟩ := Origin.ascii_of_mem_originMarks hmark
      rw [(hu.lowers _).mem_iff hascii hletter, hmem _ hascii hletter] at hc
      have hin := SplitResult.mem_netloc_of_mem_host hat hc
      rcases List.mem_append.1 hmark with hmark | hmark
      · exact hparts.netloc c hin hmark
      · rcases List.mem_cons.1 hmark with rfl | hmark
        · exact hat hin
        · exact hparts.safe c (List.mem_append_left _ hin) hmark
  refine ⟨o, ?_, hwell, ?_⟩
  · rw [originOf, hparsed, Option.bind_eq_bind, Option.bind_some, hhostname]
    simp [hport, o]
  · have hcolon : (0x3A : CodePoint) ∈ hostname ↔ (0x3A : CodePoint) ∈ o.host :=
      ((hu.lowers _).mem_iff (by decide) (by decide)).symm
    have hnetloc : o.netloc ≠ [] := by
      rw [Origin.netloc_eq]
      split
      · exact List.cons_ne_nil _ _
      · exact List.append_ne_nil_of_left_ne_nil hlower _
    rw [Origin.render, ← List.append_nil (text "//" ++ o.netloc),
      ← urlunsplit_http hnetloc hhttp (.inl rfl), ← Except.ok.inj h]
    simp only [hcolon]
    cases port with
    | none => rw [Origin.netloc, if_pos (show o.port = defaultPort o.scheme from rfl)]
    | some port => rfl

variable (u) in
/-- A text that `normalize_http_origin` lets through, and the origin that it denotes. -/
structure Accepted (value : Text) (o : Origin) : Prop where
  normalized : ∃ normalized, normalizeHttpOrigin u value = .ok normalized
  denotes : originOf u value = some o

theorem normalizeHttpOrigin_eq_iff (hu : u.Lawful) {value value' normalized normalized' : Text}
    (h : normalizeHttpOrigin u value = .ok normalized)
    (h' : normalizeHttpOrigin u value' = .ok normalized') :
    normalized = normalized' ↔ originOf u value = originOf u value' := by
  obtain ⟨o, ho, hwell, rfl⟩ := normalizeHttpOrigin_eq_ok hu h
  obtain ⟨o', ho', hwell', rfl⟩ := normalizeHttpOrigin_eq_ok hu h'
  rw [ho, ho', Option.some.injEq]
  exact ⟨Origin.render_injective hwell hwell', fun heq => heq ▸ rfl⟩

theorem exists_accepted (hu : u.Lawful) {value normalized : Text}
    (h : normalizeHttpOrigin u value = .ok normalized) : ∃ o, Accepted u value o :=
  let ⟨o, ho, _⟩ := normalizeHttpOrigin_eq_ok hu h
  ⟨o, ⟨normalized, h⟩, ho⟩

/-- Two texts are written alike just if both are accepted and denote one origin. -/
theorem normalizeHttpOrigin_same_iff (hu : u.Lawful) {value value' : Text} :
    (∃ normalized, normalizeHttpOrigin u value = .ok normalized ∧
      normalizeHttpOrigin u value' = .ok normalized) ↔
        ∃ o, Accepted u value o ∧ Accepted u value' o := by
  constructor
  · rintro ⟨normalized, h, h'⟩
    obtain ⟨o, ho⟩ := exists_accepted hu h
    have hsame := (normalizeHttpOrigin_eq_iff hu h h').1 rfl
    exact ⟨o, ho, ⟨normalized, h'⟩, hsame ▸ ho.denotes⟩
  · rintro ⟨o, ⟨⟨normalized, h⟩, ho⟩, ⟨normalized', h'⟩, ho'⟩
    have hsame := (normalizeHttpOrigin_eq_iff hu h h').2 (ho.trans ho'.symm)
    exact ⟨normalized, h, hsame ▸ h'⟩

/-- An origin with other parts than a scheme and an authority. -/
def Carries (parsed : SplitResult) : Prop :=
  parsed.userinfo.1 ≠ none ∨ parsed.userinfo.2 ≠ none ∨
    ¬(parsed.path = [] ∨ parsed.path = text "/") ∨ parsed.query ≠ [] ∨ parsed.fragment ≠ []

theorem normalizeHttpOrigin_of_carries {value normalized : Text} {parsed : SplitResult}
    (hparsed : urlsplit u value.strip = some parsed) (hcarries : Carries parsed) :
    normalizeHttpOrigin u value ≠ .ok normalized := by
  intro h
  rw [normalizeHttpOrigin, hparsed] at h
  dsimp only at h
  split at h
  · cases h
  · split at h
    · cases h
    · rw [if_pos (.inr hcarries)] at h
      cases h

theorem mem_validated_iff {configured allowed : List Text} {normalized : Text}
    (hvalid : validateMcpAllowedOrigins u configured = .ok allowed) :
    normalized ∈ allowed ↔ ∃ value ∈ configured, normalizeHttpOrigin u value = .ok normalized := by
  rw [validateMcpAllowedOrigins] at hvalid
  induction configured generalizing allowed with
  | nil =>
    cases hvalid
    simp
  | cons value configured ih =>
    rw [List.mapM_cons] at hvalid
    cases hfirst : normalizeHttpOrigin u value with
    | error error =>
      rw [hfirst] at hvalid
      cases hvalid
    | ok first =>
      cases hrest : configured.mapM (normalizeHttpOrigin u) with
      | error error =>
        rw [hfirst, hrest] at hvalid
        cases hvalid
      | ok rest =>
        rw [hfirst, hrest] at hvalid
        cases hvalid
        rw [List.mem_cons, ih hrest, List.exists_mem_cons_iff, hfirst, Except.ok.injEq, eq_comm]

theorem originAllowed_iff {origin : Text} {configured allowed : List Text}
    (hvalid : validateMcpAllowedOrigins u configured = .ok allowed) :
    originAllowed u origin allowed = true ↔ ∃ value ∈ configured, ∃ normalized,
      normalizeHttpOrigin u origin = .ok normalized ∧
        normalizeHttpOrigin u value = .ok normalized := by
  rw [originAllowed]
  cases normalizeHttpOrigin u origin with
  | error => simp
  | ok normalized =>
    dsimp only
    rw [List.contains_iff_mem, mem_validated_iff hvalid]
    constructor
    · rintro ⟨value, hvalue, h⟩
      exact ⟨value, hvalue, normalized, rfl, h⟩
    · rintro ⟨value, hvalue, _, ⟨⟩, h⟩
      exact ⟨value, hvalue, h⟩

theorem sameOrigin_iff {origin issuerUrl : Text} : sameOrigin u (some origin) issuerUrl = true ↔
    ∃ normalized, normalizeHttpOrigin u origin = .ok normalized ∧
      normalizeHttpOrigin u issuerUrl = .ok normalized := by
  rw [sameOrigin]
  cases normalizeHttpOrigin u origin with
  | error => simp
  | ok normalized =>
    cases normalizeHttpOrigin u issuerUrl with
    | error => simp
    | ok issuer =>
      dsimp only
      rw [beq_iff_eq]
      constructor
      · rintro rfl
        exact ⟨_, rfl, rfl⟩
      · rintro ⟨_, ⟨⟩, ⟨⟩⟩
        rfl

/-! ### The issuer -/

theorem issuer_of_checked {settings : OAuthSettings} {issuerUrl resourceUrl : Text}
    (h : checkOauthUrls u settings issuerUrl resourceUrl = .ok ()) :
    ∃ value, normalizeHttpOrigin u value = .ok issuerUrl := by
  rw [checkOauthUrls] at h
  split at h
  · split at h
    · cases h
    · split at h
      · cases h
      · rename_i origin horigin
        split at h
        · cases h
        · rename_i hsame
          exact ⟨_, not_not.1 (not_or.1 hsame).1 ▸ horigin⟩
  · cases h

/-- What the settings keep as the issuer is an origin as it is written. -/
theorem issuer_of_validated {settings settings' : OAuthSettings} {issuerUrl : Text}
    (hvalid : validateOauthSettings u settings = .ok settings')
    (henabled : settings.oauthEnabled = true) (hissuer : settings'.oauthIssuerUrl = some issuerUrl) :
    ∃ value, normalizeHttpOrigin u value = .ok issuerUrl := by
  rw [validateOauthSettings, if_neg (not_not.2 henabled)] at hvalid
  split at hvalid
  · cases hvalid
  · split at hvalid
    · rename_i issuer resource _ _
      cases hnormalized : normalizeOauthUrl u issuer "OAuth issuer URL" with
      | error error =>
        rw [hnormalized] at hvalid
        cases hvalid
      | ok issuer' =>
        cases hresource : normalizeOauthUrl u resource "OAuth resource URL" with
        | error error =>
          rw [hnormalized, hresource] at hvalid
          cases hvalid
        | ok resource' =>
          cases hchecked : checkOauthUrls u settings issuer' resource' with
          | error error =>
            rw [hnormalized, hresource] at hvalid
            simp only [bind, Except.bind, hchecked] at hvalid
            cases hvalid
          | ok =>
            rw [hnormalized, hresource] at hvalid
            simp only [bind, Except.bind, hchecked] at hvalid
            cases hvalid
            cases hissuer
            exact issuer_of_checked hchecked
    · cases hvalid

/-- Blanks are stripped from the end of a URL, and not beyond its slashes. -/
theorem strip_http {scheme rest : Text} (hscheme : HttpScheme scheme) :
    Text.strip (scheme ++ 0x3A :: (text "//" ++ rest)) =
      scheme ++ 0x3A :: (text "//" ++ rest.rstrip) := by
  have hfirst : (scheme ++ 0x3A :: (text "//" ++ rest)).head?.all (!·.isspace) = true := by
    rcases hscheme with rfl | rfl <;> rfl
  have hslash : scheme ++ 0x3A :: (text "//" ++ rest) =
      scheme ++ text ":/" ++ 0x2F :: rest := by
    simp [text]
  rw [Text.strip, Text.dropWhile_eq_self hfirst, hslash, rdropWhile_append_cons _ (by decide)]
  simp [text, Text.rstrip]

/-- Nothing that ends an authority or begins one is written of an origin. -/
theorem Origin.WellFormed.not_mem_netloc {o : Origin} (h : o.WellFormed) {c : CodePoint}
    (hc : c ∈ Origin.originMarks) : c ∉ o.netloc := by
  have hmarks : Origin.originMarks.all (fun c => decide (c.digit? = none) &&
      !(text ":[]").contains c) = true := by decide
  have hc' := List.all_eq_true.1 hmarks c hc
  rw [Bool.and_eq_true, Bool.not_eq_true', decide_eq_true_eq, ← Bool.not_eq_true,
    List.contains_iff_mem] at hc'
  obtain ⟨hdigit, hbrackets⟩ := hc'
  have hcolon : c ≠ 0x3A := fun heq => hbrackets (by rw [heq]; decide)
  have hopening : c ≠ 0x5B := fun heq => hbrackets (by rw [heq]; decide)
  have hclosing : c ≠ 0x5D := fun heq => hbrackets (by rw [heq]; decide)
  have hhost : c ∉ o.host := fun hmem => h.safe c hmem hc
  have hsuffix : c ∉ o.portSuffix := by
    rw [Origin.portSuffix]
    split
    · exact List.not_mem_nil
    · rw [List.mem_cons, not_or]
      exact ⟨hcolon, not_mem_numeral (by omega) (by omega) hdigit⟩
  rw [Origin.netloc_eq, List.mem_append, not_or]
  refine ⟨?_, hsuffix⟩
  split
  · simp [hopening, hhost, hclosing]
  · exact hhost

/-- What is written of an origin is accepted again if it denotes an origin. -/
theorem accepted_of_render (hu : u.Lawful) {o o' : Origin} (h : o.WellFormed)
    (hdenotes : originOf u o.render = some o') : Accepted u o.render o' := by
  refine ⟨?_, hdenotes⟩
  have hnot {c : CodePoint} (hc : c ∈ Origin.originMarks) : c ∉ o.netloc.rstrip :=
    fun hmem => h.not_mem_netloc hc ((Text.prefix_rstrip _).subset hmem)
  have hreads : Reads o.netloc.rstrip [] := by
    refine ⟨fun c hc hends => ?_, fun c hc => (List.not_mem_nil hc).elim, .inl rfl,
      fun c hc hsafe => ?_⟩
    · exact hnot (List.mem_append_left _ hends) hc
    · rw [List.append_nil] at hc
      exact hnot (List.mem_append_right _ (List.mem_cons_of_mem _ hsafe)) hc
  obtain ⟨parsed, hparsed, hrest⟩ := Option.bind_eq_some_iff.1 hdenotes
  obtain ⟨hostname, hhostname, hrest⟩ := Option.bind_eq_some_iff.1 hrest
  obtain ⟨port, hport, _⟩ := Option.bind_eq_some_iff.1 hrest
  have hstrip : o.render.strip = o.scheme ++ 0x3A :: (text "//" ++ o.netloc.rstrip ++ []) := by
    rw [Origin.render, strip_http h.http, List.append_nil]
  have hsplit := hparsed
  rw [hstrip, urlsplit_http hu h.http hreads] at hsplit
  split at hsplit
  · obtain rfl := Option.some.inj hsplit
    have hat : SplitResult.userinfo ⟨o.scheme, o.netloc.rstrip, [], [], []⟩ = (none, none) := by
      rw [SplitResult.userinfo, Text.rpartition_of_not_mem (hnot (by simp [Origin.originMarks]))]
      rfl
    have hlower : u.lower o.scheme = o.scheme := lower_scheme hu hparsed
    rw [normalizeHttpOrigin, hparsed]
    dsimp only
    rw [hport]
    dsimp only
    rw [hhostname]
    dsimp only
    rw [hlower, hat, if_neg]
    · exact ⟨_, rfl⟩
    · simp [h.http]
  · cases hsplit

theorem sameOrigin_issuer_iff (hu : u.Lawful) {settings settings' : OAuthSettings}
    {issuerUrl origin : Text} (hvalid : validateOauthSettings u settings = .ok settings')
    (henabled : settings.oauthEnabled = true) (hissuer : settings'.oauthIssuerUrl = some issuerUrl) :
    sameOrigin u (some origin) issuerUrl = true ↔
      ∃ o, Accepted u origin o ∧ originOf u issuerUrl = some o := by
  obtain ⟨value, hvalue⟩ := issuer_of_validated hvalid henabled hissuer
  obtain ⟨written, _, hwell, rfl⟩ := normalizeHttpOrigin_eq_ok hu hvalue
  rw [sameOrigin_iff, normalizeHttpOrigin_same_iff hu]
  constructor
  · rintro ⟨o, horigin, hissuer⟩
    exact ⟨o, horigin, hissuer.denotes⟩
  · rintro ⟨o, horigin, hdenotes⟩
    exact ⟨o, horigin, accepted_of_render hu hwell hdenotes⟩

/-! ### Exactness -/

variable (u) in
/-- Origins are compared by their schemes, hosts and ports. -/
structure ExactOrigins : Prop where
  normalized : ∀ value value' normalized normalized' : Text,
    normalizeHttpOrigin u value = .ok normalized → normalizeHttpOrigin u value' = .ok normalized' →
      (normalized = normalized' ↔ ∃ o, originOf u value = some o ∧ originOf u value' = some o)
  allowed : ∀ (configured allowed : List Text) (origin : Text),
    validateMcpAllowedOrigins u configured = .ok allowed →
      (originAllowed u origin allowed = true ↔
        ∃ value ∈ configured, ∃ o, Accepted u origin o ∧ Accepted u value o)
  same : ∀ origin issuerUrl : Text, sameOrigin u (some origin) issuerUrl = true ↔
    ∃ o, Accepted u origin o ∧ Accepted u issuerUrl o
  /-- An issuer that the settings keep is accepted if it denotes an origin at all. -/
  issuer : ∀ (settings settings' : OAuthSettings) (issuerUrl origin : Text),
    validateOauthSettings u settings = .ok settings' → settings.oauthEnabled = true →
      settings'.oauthIssuerUrl = some issuerUrl →
        (sameOrigin u (some origin) issuerUrl = true ↔
          ∃ o, Accepted u origin o ∧ originOf u issuerUrl = some o)
  missing : ∀ issuerUrl : Text, sameOrigin u none issuerUrl = false
  carries : ∀ (origin : Text) (parsed : SplitResult), urlsplit u origin.strip = some parsed →
    Carries parsed → (∀ allowed, originAllowed u origin allowed = false) ∧
      ∀ issuerUrl, sameOrigin u (some origin) issuerUrl = false

theorem exact_origins (hu : u.Lawful) : ExactOrigins u where
  normalized value value' normalized normalized' h h' := by
    rw [normalizeHttpOrigin_eq_iff hu h h']
    obtain ⟨o, ho, _⟩ := normalizeHttpOrigin_eq_ok hu h
    constructor
    · intro hsame
      exact ⟨o, ho, hsame ▸ ho⟩
    · rintro ⟨o, ho, ho'⟩
      rw [ho, ho']
  allowed configured allowed origin hvalid := by
    rw [originAllowed_iff hvalid]
    exact exists_congr fun value => and_congr_right fun _ => normalizeHttpOrigin_same_iff hu
  same origin issuerUrl := by rw [sameOrigin_iff, normalizeHttpOrigin_same_iff hu]
  issuer settings settings' issuerUrl origin hvalid henabled hissuer :=
    sameOrigin_issuer_iff hu hvalid henabled hissuer
  missing issuerUrl := rfl
  carries origin parsed hparsed hcarries := by
    have hrejected : ∃ error, normalizeHttpOrigin u origin = .error error := by
      cases h : normalizeHttpOrigin u origin with
      | error error => exact ⟨error, rfl⟩
      | ok normalized => exact (normalizeHttpOrigin_of_carries hparsed hcarries h).elim
    obtain ⟨error, herror⟩ := hrejected
    refine ⟨fun allowed => ?_, fun issuerUrl => ?_⟩
    · rw [originAllowed, herror]
    · rw [sameOrigin, herror]

theorem exact_origins_ascii : ExactOrigins .ascii := exact_origins UrlUnicode.ascii_lawful

example : normalizeHttpOrigin .ascii (text " HTTPS://CLIENT.example:443/") =
    .ok (text "https://client.example") := by
  decide +kernel

end ForgejoMcp.Config
