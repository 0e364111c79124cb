import ForgejoMcp.Config.HttpOrigin
import ForgejoMcp.Forgejo.Configuration

/-!
# The texts of the Forgejo services

The services keep their texts as strings and take the splitting of URLs from a library.  On strings
their functions are those of `str` on code points, and with a library that splits URLs as `urlsplit`
does they write an origin as `config.py` does.
-/

namespace ForgejoMcp.Forgejo

open Python

variable {u : UrlUnicode} {lib : Library} {s t : String} {c : Char}

/-! ### Strings as texts -/

/-- The code point of a character. -/
def codePoint (c : Char) : CodePoint := Fin.ofNat _ c.toNat

theorem val_codePoint (c : Char) : (codePoint c).val = c.toNat := by
  have hvalid : c.toNat < 0xD800 ∨ 0xDFFF < c.toNat ∧ c.toNat < 0x110000 := c.valid
  exact Nat.mod_eq_of_lt (by omega)

theorem codePoint_injective : Function.Injective codePoint := by
  intro c d heq
  have hval := congrArg Fin.val heq
  rw [val_codePoint, val_codePoint] at hval
  exact Char.toNat_inj.1 hval

theorem text_eq (s : String) : text s = s.toList.map codePoint := rfl

theorem text_injective : Function.Injective text := by
  intro s t heq
  rw [text_eq, text_eq] at heq
  exact String.toList_injective (List.map_injective_iff.2 codePoint_injective heq)

theorem text_append (s t : String) : text (s ++ t) = text s ++ text t := by
  rw [text_eq, String.toList_append, List.map_append, ← text_eq, ← text_eq]

theorem codePoint_mem_text : codePoint c ∈ text s ↔ c ∈ s.toList := by
  rw [text_eq, List.mem_map_of_injective codePoint_injective]

theorem isspace_codePoint (c : Char) : (codePoint c).isspace = isSpace c := by
  rw [CodePoint.isspace, val_codePoint, isSpace, Bool.eq_iff_iff]
  simp only [Bool.or_eq_true, Bool.and_eq_true, decide_eq_true_iff, List.contains_iff_mem]
  tauto

/-- Stripping a string strips its text. -/
theorem text_strip (s : String) : text (strip s) = (text s).strip := by
  have hspace : CodePoint.isspace ∘ codePoint = isSpace := funext isspace_codePoint
  rw [text_eq, strip, String.toList_ofList, Text.strip, text_eq, List.dropWhile_map, List.rdropWhile,
    ← List.map_reverse, List.dropWhile_map, hspace, List.map_reverse]

/-! ### Origins -/

/-- The parts of a URL are those that `urlsplit` leaves, with the hostname in lower case. -/
structure SplitUrl.Reads (u : UrlUnicode) (url : SplitUrl) (parsed : SplitResult) : Prop where
  scheme : text url.scheme = parsed.scheme
  hostname : url.hostname.map text = (parsed.hostname u).map u.lower
  port : parsed.port = some url.port
  username : url.username.map text = parsed.userinfo.1
  password : url.password.map text = parsed.userinfo.2
  path : text url.path = parsed.path
  query : text url.query = parsed.query
  fragment : text url.fragment = parsed.fragment

/-- The library splits a URL as `urlsplit` does, unless that or the port raises. -/
def Library.Reads (lib : Library) (u : UrlUnicode) : Prop :=
  ∀ value, Option.Rel (SplitUrl.Reads u) (lib.urlsplit value)
    ((Python.urlsplit u (text value)).filter SplitResult.validPort)

/-- The other parts of a URL are those of an origin. -/
theorem SplitUrl.Reads.rejected_iff {url : SplitUrl} {parsed : SplitResult} (h : url.Reads u parsed) :
    (¬ (url.scheme = "http" ∨ url.scheme = "https") ∨ url.username ≠ none ∨ url.password ≠ none ∨
      ¬ (url.path = "" ∨ url.path = "/") ∨ url.query ≠ "" ∨ url.fragment ≠ "") ↔
    (¬ HttpScheme parsed.scheme ∨ parsed.userinfo.1 ≠ none ∨ parsed.userinfo.2 ≠ none ∨
      ¬ (parsed.path = [] ∨ parsed.path = text "/") ∨ parsed.query ≠ [] ∨ parsed.fragment ≠ []) := by
  have hempty : ([] : Text) = text "" := rfl
  simp only [HttpScheme, ← h.scheme, ← h.username, ← h.password, ← h.path, ← h.query, ← h.fragment,
    hempty, text_injective.eq_iff, ne_eq, Option.map_eq_none_iff]

/-- The host of an origin, on strings and on texts. -/
theorem text_host {hostname : String} {host : Text} (hu : u.Lawful)
    (hhost : text hostname = u.lower host) :
    text (if ':' ∈ hostname.toList then "[" ++ hostname ++ "]" else hostname) =
      if (0x3A : CodePoint) ∈ host then 0x5B :: (u.lower host ++ [0x5D]) else u.lower host := by
  have hcolon : ':' ∈ hostname.toList ↔ (0x3A : CodePoint) ∈ host := by
    rw [← (hu.lowers host).mem_iff (by decide) (by decide), ← hhost]
    exact codePoint_mem_text.symm
  rw [← hhost, apply_ite text, text_append, text_append]
  exact if_congr hcolon rfl rfl

/-- The port of an origin after its host, on strings and on texts. -/
theorem text_port {scheme host : String} (port : ℕ) :
    text (if port = (if scheme = "http" then 80 else 443) then host
      else host ++ ":" ++ toString port) =
    if port = Config.defaultPort (text scheme) then text host
      else text host ++ 0x3A :: numeral 10 port := by
  have hdefault : (if scheme = "http" then 80 else 443) = Config.defaultPort (text scheme) :=
    if_congr text_injective.eq_iff.symm rfl rfl
  rw [hdefault, apply_ite text, text_append, text_append, List.append_assoc]
  rfl

theorem text_origin {scheme netloc : String} (hhttp : HttpScheme (text scheme))
    (hnetloc : text netloc ≠ []) :
    text (scheme ++ "://" ++ netloc) = urlunsplit ⟨text scheme, text netloc, [], [], []⟩ := by
  rw [urlunsplit_http hnetloc hhttp (.inl rfl), text_append, text_append, List.append_nil,
    List.append_assoc]
  rfl

/-- On strings `normalize_http_origin` writes what it writes on texts. -/
theorem text_normalizeHttpOrigin (hu : u.Lawful) (hlib : lib.Reads u) (value : String) :
    (normalizeHttpOrigin lib value).map text =
      (Config.normalizeHttpOrigin u (text value)).toOption := by
  have hreads := hlib (strip value)
  rw [text_strip] at hreads
  rw [normalizeHttpOrigin, Config.normalizeHttpOrigin]
  generalize lib.urlsplit (strip value) = url? at hreads ⊢
  cases hparsed : Python.urlsplit u (text value).strip with
  | none =>
    rw [hparsed] at hreads
    cases hreads
    rfl
  | some parsed =>
    rw [hparsed, Option.filter_some, SplitResult.validPort] at hreads
    dsimp only
    cases hport : parsed.port with
    | none =>
      rw [hport] at hreads
      cases hreads
      rfl
    | some port =>
      rw [hport] at hreads
      cases hreads with
      | @some url _ hurl =>
        obtain rfl := Option.some.inj (hport.symm.trans hurl.port)
        have hscheme : u.lower parsed.scheme = parsed.scheme := lower_scheme hu hparsed
        have hname := hurl.hostname
        rw [hscheme]
        dsimp only [Option.bind_eq_bind, Option.bind_some]
        cases hhostname : parsed.hostname u with
        | none =>
          rw [hhostname, Option.map_none, Option.map_eq_none_iff] at hname
          rw [hname]
          rfl
        | some host =>
          rw [hhostname, Option.map_some, Option.map_eq_some_iff] at hname
          obtain ⟨hostname, hsome, htext⟩ := hname
          rw [hsome]
          dsimp only [Option.bind_some]
          rw [if_congr hurl.rejected_iff rfl rfl]
          by_cases hrejected : ¬HttpScheme parsed.scheme ∨ parsed.userinfo.1 ≠ none ∨
            parsed.userinfo.2 ≠ none ∨ ¬(parsed.path = [] ∨ parsed.path = text "/") ∨
            parsed.query ≠ [] ∨ parsed.fragment ≠ []
          · rw [if_pos hrejected, if_pos hrejected]
            rfl
          · rw [if_neg hrejected, if_neg hrejected]
            have hhttp : HttpScheme parsed.scheme := not_not.1 fun hnot => hrejected (.inl hnot)
            have hlower : u.lower host ≠ [] :=
              mt (hu.lowers host).eq_nil_iff.1 (SplitResult.hostname_eq_some hu hhostname).1
            have hhost := text_host hu htext
            have hne : text (if ':' ∈ hostname.toList then "[" ++ hostname ++ "]" else hostname) ≠
                [] := by
              rw [hhost]
              split
              · exact List.cons_ne_nil _ _
              · exact hlower
            rw [← hurl.scheme] at hhttp ⊢
            cases url.port with
            | none =>
              dsimp only
              rw [Option.map_some, text_origin hhttp hne, hhost]
              rfl
            | some port =>
              dsimp only
              have hport := @text_port url.scheme
                (if ':' ∈ hostname.toList then "[" ++ hostname ++ "]" else hostname) port
              rw [Option.map_some, text_origin hhttp, hport, hhost]
              · rfl
              · rw [hport]
                split
                · exact hne
                · exact List.append_ne_nil_of_left_ne_nil hne _

end ForgejoMcp.Forgejo
