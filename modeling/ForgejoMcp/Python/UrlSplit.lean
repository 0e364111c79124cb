import ForgejoMcp.Python.IpNetwork
import ForgejoMcp.Python.Url

/-!
# The parts of a URL

What `urlsplit` leaves in each part, and that a URL put together from parts in lower case splits into
the same parts.
-/

namespace Python

/-! ### Lower case -/

/-- The lower case of an ASCII character. -/
def CodePoint.asciiLower (c : CodePoint) : CodePoint :=
  if 0x41 ≤ c.val ∧ c.val ≤ 0x5A then c + 0x20 else c

/-- The lower case of a text, character by character: ASCII keeps to ASCII, and of the others none
becomes an ASCII character but a letter, and none changes into a blank or out of one. -/
inductive Lowers : Text → Text → Prop
  | nil : Lowers [] []
  | ascii {c : CodePoint} {s t : Text} : c.isascii = true → Lowers s t →
      Lowers (c :: s) (c.asciiLower :: t)
  | other {c : CodePoint} {piece s t : Text} : c.isascii = false → piece ≠ [] →
      (∀ d ∈ piece, (d.isascii = true → d.letter = true) ∧ d.isspace = c.isspace) → Lowers s t →
      Lowers (c :: s) (piece ++ t)

/-- What holds of the Unicode database: lower case is stable, and does not bring the characters that
`_checknetloc` looks for into the NFKC form. -/
structure UrlUnicode.Lawful (u : UrlUnicode) : Prop where
  lowers : ∀ s, Lowers s (u.lower s)
  lower_lower : ∀ s, u.lower (u.lower s) = u.lower s
  checkNetloc_lower : ∀ s : Text, (0x2F : CodePoint) ∉ s → checkNetloc u s = true →
    checkNetloc u (u.lower s) = true

namespace CodePoint

theorem val_asciiLower (c : CodePoint) :
    c.asciiLower.val = if 0x41 ≤ c.val ∧ c.val ≤ 0x5A then c.val + 0x20 else c.val := by
  rw [asciiLower]
  split
  · rw [Fin.val_add]
    exact Nat.mod_eq_of_lt (by change c.val + 0x20 < 0x110000; omega)
  · rfl

theorem asciiLower_asciiLower (c : CodePoint) : c.asciiLower.asciiLower = c.asciiLower := by
  apply Fin.ext
  rw [val_asciiLower, val_asciiLower]
  split_ifs <;> omega

theorem asciiLower_eq_self {c : CodePoint} (h : c.letter = false) : c.asciiLower = c := by
  have hletter := of_decide_eq_false h
  rw [asciiLower, if_neg (by omega)]

/-- Only a letter becomes another character. -/
theorem eq_asciiLower_iff {c d : CodePoint} (hc : c.letter = false) : c = d.asciiLower ↔ c = d := by
  have hletter := of_decide_eq_false hc
  have hval := val_asciiLower d
  constructor
  · rintro rfl
    rw [asciiLower] at hletter ⊢
    split_ifs at hval ⊢ with hupper
    · rw [asciiLower, if_pos hupper] at hval
      rw [if_pos hupper] at hletter
      omega
    · rfl
  · rintro rfl
    exact (asciiLower_eq_self hc).symm

theorem isspace_of_letter {c : CodePoint} (h : c.letter = true) : c.isspace = false := by
  have hletter := of_decide_eq_true h
  rw [isspace, Bool.or_eq_false_iff]
  refine ⟨decide_eq_false (by omega), ?_⟩
  rw [← Bool.not_eq_true, List.contains_iff_mem]
  intro hmem
  simp only [List.mem_cons, List.not_mem_nil, or_false] at hmem
  omega

theorem isspace_asciiLower (c : CodePoint) : c.asciiLower.isspace = c.isspace := by
  by_cases hupper : 0x41 ≤ c.val ∧ c.val ≤ 0x5A
  · have hval := val_asciiLower c
    rw [if_pos hupper] at hval
    rw [isspace_of_letter (decide_eq_true (by omega)), isspace_of_letter (decide_eq_true (by omega))]
  · rw [asciiLower, if_neg hupper]

end CodePoint

theorem UrlUnicode.ascii_lawful : UrlUnicode.ascii.Lawful where
  lowers s := by
    induction s with
    | nil => exact .nil
    | cons c s ih =>
      cases hc : c.isascii with
      | true => exact .ascii hc ih
      | false =>
        have hlower : c.asciiLower = c := by
          have hbig := of_decide_eq_false hc
          rw [CodePoint.asciiLower, if_neg (by omega)]
        have hcons : ascii.lower (c :: s) = [c] ++ ascii.lower s := congrArg (· :: _) hlower
        rw [hcons]
        refine .other hc (List.cons_ne_nil _ _) (fun d hd => ?_) ih
        rw [List.mem_singleton.1 hd]
        exact ⟨fun h => absurd (hc.symm.trans h) Bool.false_ne_true, rfl⟩
  lower_lower s := by
    change (s.map CodePoint.asciiLower).map CodePoint.asciiLower = s.map CodePoint.asciiLower
    rw [List.map_map]
    exact List.map_congr_left fun c _ => c.asciiLower_asciiLower
  checkNetloc_lower s _ _ := by
    rw [checkNetloc, Bool.or_eq_true]
    exact .inr (by simp [UrlUnicode.ascii])

namespace Lowers

variable {s t : Text}

theorem append {s' t' : Text} (h : Lowers s t) (h' : Lowers s' t') : Lowers (s ++ s') (t ++ t') := by
  induction h with
  | nil => exact h'
  | ascii hc _ ih => exact .ascii hc ih
  | other hc hne hpiece _ ih =>
    rw [List.append_assoc]
    exact .other hc hne hpiece ih

/-- The lower case of a text cut in two. -/
theorem split {s' : Text} (h : Lowers (s ++ s') t) :
    ∃ t₁ t₂, t = t₁ ++ t₂ ∧ Lowers s t₁ ∧ Lowers s' t₂ := by
  induction s generalizing t with
  | nil => exact ⟨[], t, rfl, .nil, h⟩
  | cons c s ih =>
    cases h with
    | ascii hc h =>
      obtain ⟨t₁, t₂, rfl, h₁, h₂⟩ := ih h
      exact ⟨_, t₂, rfl, .ascii hc h₁, h₂⟩
    | other hc hne hpiece h =>
      obtain ⟨t₁, t₂, rfl, h₁, h₂⟩ := ih h
      exact ⟨_, t₂, (List.append_assoc _ _ _).symm, .other hc hne hpiece h₁, h₂⟩

theorem eq_nil_iff (h : Lowers s t) : t = [] ↔ s = [] := by
  cases h with
  | nil => exact Iff.rfl
  | ascii => simp
  | other _ hne => simp [hne]

/-- ASCII characters that are no letters stay where they are. -/
theorem mem_iff {c : CodePoint} (h : Lowers s t) (hc : c.isascii = true) (hletter : c.letter = false) :
    c ∈ t ↔ c ∈ s := by
  induction h with
  | nil => exact Iff.rfl
  | ascii _ _ ih => rw [List.mem_cons, List.mem_cons, ih, CodePoint.eq_asciiLower_iff hletter]
  | @other d piece _ _ hother _ hpiece _ ih =>
    have hnot : c ∉ piece := fun hmem => by
      rw [(hpiece c hmem).1 hc] at hletter
      cases hletter
    have hne : c ≠ d := fun heq => by
      rw [← heq, hc] at hother
      cases hother
    rw [List.mem_append, List.mem_cons, ih]
    exact ⟨fun h => .inr (h.resolve_left hnot), fun h => .inr (h.resolve_left hne)⟩

/-- The lower case of an ASCII text. -/
theorem eq_map (h : Lowers s t) (hs : ∀ c ∈ s, c.isascii = true) : t = s.map CodePoint.asciiLower := by
  induction h with
  | nil => rfl
  | ascii _ _ ih =>
    rw [List.map_cons, ih fun c hc => hs c (List.mem_cons_of_mem _ hc)]
  | other hc =>
    rw [hs _ List.mem_cons_self] at hc
    cases hc

theorem getLast?_isspace (h : Lowers s t) :
    t.getLast?.any (·.isspace) = s.getLast?.any (·.isspace) := by
  rcases List.eq_nil_or_concat' s with rfl | ⟨init, c, rfl⟩
  · rw [h.eq_nil_iff.2 rfl]
  · obtain ⟨t₁, t₂, rfl, _, h₂⟩ := h.split
    rw [List.getLast?_concat, Option.any_some]
    cases h₂ with
    | ascii _ hnil =>
      rw [hnil.eq_nil_iff.2 rfl, List.getLast?_concat, Option.any_some,
        CodePoint.isspace_asciiLower]
    | other _ hne hpiece hnil =>
      obtain ⟨d, hd⟩ := Option.isSome_iff_exists.1 (List.getLast?_isSome.2 hne)
      rw [hnil.eq_nil_iff.2 rfl, List.append_nil, List.getLast?_append, hd, Option.some_or,
        Option.any_some, (hpiece d (List.mem_of_getLast? hd)).2]

end Lowers

/-! ### What `urlsplit` splits -/

/-- A text without the characters that `urlsplit` removes. -/
def removeUnsafe (s : Text) : Text := s.filter fun c => !(text "\t\r\n").contains c

/-- What `urlsplit` checks of a network location. -/
structure NetlocOk (u : UrlUnicode) (netloc : Text) : Prop where
  brackets : (0x5B : CodePoint) ∈ netloc ↔ (0x5D : CodePoint) ∈ netloc
  bracketed : (0x5B : CodePoint) ∈ netloc →
    bracketedHost (Text.partition (netloc.partition 0x5B).2.2 0x5D).1 = true
  check : checkNetloc u netloc = true

/-- The characters that end a network location. -/
def netlocEnds : Text := text "/?#"

variable {u : UrlUnicode}

theorem netlocOk_iff {netloc : Text} : NetlocOk u netloc ↔
    ¬(netloc.contains 0x5B ≠ netloc.contains 0x5D ∨ netloc.contains 0x5B ∧
      ¬bracketedHost (Text.partition (netloc.partition 0x5B).2.2 0x5D).1 ∨
        ¬checkNetloc u netloc) := by
  simp only [not_or, not_and, not_not, List.contains_eq_mem, decide_eq_true_eq, ne_eq,
    decide_eq_decide]
  exact ⟨fun h => ⟨h.brackets, h.bracketed, h.check⟩, fun h => ⟨h.1, h.2.1, h.2.2⟩⟩

/-- What `urlsplit` takes off the front of a URL and out of it. -/
def cleaned (url : Text) : Text := removeUnsafe (url.dropWhile fun c => decide (c.val ≤ 0x20))

/-- The parts of a URL with a network location. -/
structure Parts (u : UrlUnicode) (url : Text) (r : SplitResult) : Prop where
  ok : NetlocOk u r.netloc
  netloc : ∀ c ∈ r.netloc, c ∉ netlocEnds
  path : ∀ c ∈ r.path, c ≠ 0x3F ∧ c ≠ 0x23
  absolute : r.path = [] ∨ r.path.head? = some 0x2F
  text : ∃ head query fragment, cleaned url = head ++ r.netloc ++ r.path ++ query ++ fragment ∧
    (query = [] ∧ r.query = [] ∨ query = 0x3F :: r.query) ∧
    (fragment = [] ∧ r.fragment = [] ∨ fragment = 0x23 :: r.fragment)

theorem splitScheme_suffix (url : Text) : ∃ head, url = head ++ (splitScheme u url).2 := by
  rw [splitScheme]
  rcases Text.partition_cases url 0x3A with ⟨_, hpart⟩ | ⟨scheme, rest, _, rfl, hpart⟩
  · rw [hpart]
    exact ⟨[], rfl⟩
  · rw [hpart]
    dsimp only
    split
    · exact ⟨scheme ++ [0x3A], by simp⟩
    · exact ⟨[], rfl⟩

/-- The scheme is in lower case. -/
theorem lower_splitScheme (hu : u.Lawful) (url : Text) :
    u.lower (splitScheme u url).1 = (splitScheme u url).1 := by
  rw [splitScheme]
  dsimp only
  split
  · exact hu.lower_lower _
  · exact (hu.lowers []).eq_nil_iff.2 rfl

/-- The network location after `//`, and what is after it. -/
def splitNetloc (rest : Text) : Text × Text :=
  if (text "//").isPrefixOf rest then (rest.drop 2).span fun c => !netlocEnds.contains c
  else ([], rest)

/-- A path, a query and a fragment. -/
def splitPath (tail : Text) : Text × Text × Text :=
  let (rest, _, fragment) := tail.partition 0x23
  let (path, _, query) := rest.partition 0x3F
  (path, query, fragment)

open scoped Classical in
theorem urlsplit_eq (url : Text) : urlsplit u url =
    let scheme := splitScheme u (cleaned url)
    let netloc := splitNetloc scheme.2
    let path := splitPath netloc.2
    if NetlocOk u netloc.1 then some ⟨scheme.1, netloc.1, path.1, path.2.1, path.2.2⟩ else none := by
  dsimp only
  simp only [netlocOk_iff, ite_not]
  rfl

theorem splitNetloc_cases (rest : Text) : (splitNetloc rest).1 = [] ∨
    rest = text "//" ++ (splitNetloc rest).1 ++ (splitNetloc rest).2 ∧
      (∀ c ∈ (splitNetloc rest).1, c ∉ netlocEnds) ∧
      ∀ c ∈ (splitNetloc rest).2.head?, c ∈ netlocEnds := by
  rw [splitNetloc]
  split
  · rename_i hprefix
    obtain ⟨after, rfl⟩ := List.isPrefixOf_iff_prefix.1 hprefix
    have hdrop : (text "//" ++ after).drop 2 = after := rfl
    rw [hdrop, List.span_eq_takeWhile_dropWhile]
    refine .inr ⟨?_, fun c hc => ?_, fun c hc => ?_⟩
    · rw [List.append_assoc, List.takeWhile_append_dropWhile]
    · have hnot := List.mem_takeWhile_imp hc
      rwa [Bool.not_eq_true', ← Bool.not_eq_true, List.contains_iff_mem] at hnot
    · have hnot := List.head?_dropWhile_not (fun c => !netlocEnds.contains c) after
      rw [Option.mem_def] at hc
      rw [hc] at hnot
      dsimp only at hnot
      rwa [Bool.not_eq_false', List.contains_iff_mem] at hnot
  · exact .inl rfl

theorem splitPath_spec (tail : Text) : (∀ c ∈ (splitPath tail).1, c ≠ 0x3F ∧ c ≠ 0x23) ∧
    ∃ query fragment, tail = (splitPath tail).1 ++ query ++ fragment ∧
      (query = [] ∧ (splitPath tail).2.1 = [] ∨ query = 0x3F :: (splitPath tail).2.1) ∧
      (fragment = [] ∧ (splitPath tail).2.2 = [] ∨ fragment = 0x23 :: (splitPath tail).2.2) := by
  have hpath (rest : Text) (hrest : (0x23 : CodePoint) ∉ rest) :
      (∀ c ∈ (rest.partition 0x3F).1, c ≠ 0x3F ∧ c ≠ 0x23) ∧
        ∃ query, rest = (rest.partition 0x3F).1 ++ query ∧
          (query = [] ∧ (rest.partition 0x3F).2.2 = [] ∨ query = 0x3F :: (rest.partition 0x3F).2.2) := by
    rcases Text.partition_cases rest 0x3F with ⟨hmem, hpart⟩ | ⟨path, query, hmem, rfl, hpart⟩
    · rw [hpart]
      exact ⟨fun c hc => ⟨fun heq => hmem (heq ▸ hc), fun heq => hrest (heq ▸ hc)⟩,
        [], (List.append_nil _).symm, .inl ⟨rfl, rfl⟩⟩
    · rw [hpart]
      exact ⟨fun c hc => ⟨fun heq => hmem (heq ▸ hc),
        fun heq => hrest (heq ▸ List.mem_append_left _ hc)⟩, _, rfl, .inr rfl⟩
  rw [splitPath]
  rcases Text.partition_cases tail 0x23 with ⟨hmem, hpart⟩ | ⟨rest, fragment, hmem, rfl, hpart⟩
  · obtain ⟨hchars, query, heq, hquery⟩ := hpath tail hmem
    rw [hpart]
    exact ⟨hchars, query, [], by rw [List.append_nil]; exact heq, hquery, .inl ⟨rfl, rfl⟩⟩
  · obtain ⟨hchars, query, heq, hquery⟩ := hpath rest hmem
    rw [hpart]
    exact ⟨hchars, query, _, congrArg (· ++ _) heq, hquery, .inr rfl⟩

theorem urlsplit_parts {url : Text} {r : SplitResult} (h : urlsplit u url = some r)
    (hnetloc : r.netloc ≠ []) : Parts u url r := by
  classical
  rw [urlsplit_eq] at h
  dsimp only at h
  split at h
  · rename_i hok
    obtain rfl := Option.some.inj h
    obtain ⟨head, hhead⟩ := splitScheme_suffix (u := u) (cleaned url)
    have hrest := (splitNetloc_cases (splitScheme u (cleaned url)).2).resolve_left hnetloc
    generalize splitScheme u (cleaned url) = scheme at *
    generalize splitNetloc scheme.2 = netloc at *
    obtain ⟨hrest, hends, htail⟩ := hrest
    obtain ⟨hpath, query, fragment, heq, hquery, hfragment⟩ := splitPath_spec netloc.2
    refine ⟨hok, hends, hpath, ?_, head ++ text "//", query, fragment, ?_, hquery, hfragment⟩
    · cases hp : (splitPath netloc.2).1 with
      | nil => exact .inl rfl
      | cons c path =>
        rw [hp] at heq hpath
        have hc := htail c (by rw [heq]; rfl)
        have hne := hpath c List.mem_cons_self
        refine .inr (congrArg some ?_)
        simpa [netlocEnds, text, hne.1, hne.2] using hc
    · rw [hhead, hrest]
      simp only [List.append_assoc]
      rw [← List.append_assoc (splitPath netloc.2).1, ← heq]
  · cases h

theorem Parts.safe {url : Text} {r : SplitResult} (h : Parts u url r) :
    ∀ c ∈ r.netloc ++ r.path, c ∉ Python.text "\t\r\n" := by
  obtain ⟨head, query, fragment, heq, _⟩ := h.text
  intro c hc
  have hcleaned : c ∈ cleaned url := by
    rw [heq]
    simp only [List.mem_append] at hc ⊢
    rcases hc with hc | hc
    · exact .inl (.inl (.inl (.inr hc)))
    · exact .inl (.inl (.inr hc))
  have hkept := (List.mem_filter.1 hcleaned).2
  rwa [Bool.not_eq_true', ← Bool.not_eq_true, List.contains_iff_mem] at hkept

/-- The scheme of a result is in lower case. -/
theorem lower_scheme (hu : u.Lawful) {url : Text} {r : SplitResult} (h : urlsplit u url = some r) :
    u.lower r.scheme = r.scheme := by
  classical
  rw [urlsplit_eq] at h
  dsimp only at h
  split at h
  · obtain rfl := Option.some.inj h
    exact lower_splitScheme hu _
  · cases h

/-! ### URLs put together -/

/-- `urllib.parse.uses_netloc`, without the empty scheme. -/
def usesNetloc : List Text :=
  ["ftp", "http", "gopher", "nntp", "telnet", "imap", "wais", "file", "mms", "https", "shttp",
    "snews", "prospero", "rtsp", "rtsps", "rtspu", "rsync", "svn", "svn+ssh", "sftp", "nfs", "git",
    "git+ssh", "ws", "wss", "itms-services"].map text

/-- `urlunsplit`. -/
def urlunsplit (r : SplitResult) : Text :=
  let url :=
    if r.netloc ≠ [] then
      text "//" ++ r.netloc ++
        if r.path ≠ [] ∧ r.path.head? ≠ some 0x2F then 0x2F :: r.path else r.path
    else if r.path.take 2 = text "//" then text "//" ++ r.path
    else if r.scheme ∈ usesNetloc ∧ (r.path = [] ∨ r.path.head? = some 0x2F) then
      text "//" ++ r.path
    else r.path
  let url := if r.scheme ≠ [] then r.scheme ++ 0x3A :: url else url
  let url := if r.query ≠ [] then url ++ 0x3F :: r.query else url
  if r.fragment ≠ [] then url ++ 0x23 :: r.fragment else url

/-- The schemes that are let through. -/
def HttpScheme (scheme : Text) : Prop := scheme = text "http" ∨ scheme = text "https"

instance (scheme : Text) : Decidable (HttpScheme scheme) :=
  inferInstanceAs (Decidable (_ ∨ _))

/-- A network location and a path as `urlsplit` leaves them. -/
structure Reads (netloc path : Text) : Prop where
  ends : ∀ c ∈ netloc, c ∉ netlocEnds
  marks : ∀ c ∈ path, c ≠ 0x3F ∧ c ≠ 0x23
  absolute : path = [] ∨ path.head? = some 0x2F
  safe : ∀ c ∈ netloc ++ path, c ∉ text "\t\r\n"

variable {scheme netloc path : Text}

theorem Reads.mono {netloc' path' : Text} (h : Reads netloc path) (hnetloc : netloc' <+: netloc)
    (hpath : path' <+: path) : Reads netloc' path' where
  ends c hc := h.ends c (hnetloc.subset hc)
  marks c hc := h.marks c (hpath.subset hc)
  absolute := by
    obtain ⟨rest, rfl⟩ := hpath
    cases path' with
    | nil => exact .inl rfl
    | cons c path' => exact h.absolute.imp (fun hnil => absurd hnil (List.cons_ne_nil _ _)) id
  safe c hc := by
    refine h.safe c ?_
    rw [List.mem_append] at hc ⊢
    exact hc.imp (fun hc => hnetloc.subset hc) fun hc => hpath.subset hc

theorem urlunsplit_http (hnetloc : netloc ≠ []) (hscheme : HttpScheme scheme)
    (habsolute : path = [] ∨ path.head? = some 0x2F) :
    urlunsplit ⟨scheme, netloc, path, [], []⟩ = scheme ++ 0x3A :: (text "//" ++ netloc ++ path) := by
  have hne : scheme ≠ [] := by
    rcases hscheme with rfl | rfl
    · decide
    · decide
  have hpath : ¬(path ≠ [] ∧ path.head? ≠ some 0x2F) :=
    fun h => habsolute.elim h.1 h.2
  rw [urlunsplit]
  dsimp only
  rw [if_neg (not_not.2 rfl), if_neg (not_not.2 rfl), if_pos hne, if_pos hnetloc, if_neg hpath]

theorem cleaned_http (hscheme : HttpScheme scheme) {rest : Text}
    (hrest : ∀ c ∈ rest, c ∉ text "\t\r\n") :
    cleaned (scheme ++ 0x3A :: rest) = scheme ++ 0x3A :: rest := by
  have hdrop : (scheme ++ 0x3A :: rest).dropWhile (fun c => decide (c.val ≤ 0x20)) =
      scheme ++ 0x3A :: rest := by
    rcases hscheme with rfl | rfl <;> rfl
  have hsafe : (scheme ++ [0x3A]).all (fun c => !(text "\t\r\n").contains c) = true := by
    rcases hscheme with rfl | rfl <;> decide
  rw [cleaned, hdrop, removeUnsafe, List.filter_eq_self]
  intro c hc
  rw [← List.singleton_append, ← List.append_assoc, List.mem_append] at hc
  rcases hc with hc | hc
  · exact List.all_eq_true.1 hsafe c hc
  · rw [Bool.not_eq_true', ← Bool.not_eq_true, List.contains_iff_mem]
    exact hrest c hc

theorem splitScheme_http (hu : u.Lawful) (hscheme : HttpScheme scheme) (rest : Text) :
    splitScheme u (scheme ++ 0x3A :: rest) = (scheme, rest) := by
  have hcolon : (0x3A : CodePoint) ∉ scheme := by
    rcases hscheme with rfl | rfl <;> decide
  have hlower : u.lower scheme = scheme := by
    have hascii : scheme.all CodePoint.isascii = true := by
      rcases hscheme with rfl | rfl <;> decide
    rw [(hu.lowers scheme).eq_map (List.all_eq_true.1 hascii)]
    rcases hscheme with rfl | rfl <;> decide
  have hpart := Text.partition_append_cons hcolon rest
  rw [splitScheme, hpart]
  dsimp only
  rw [if_pos, hlower]
  rcases hscheme with rfl | rfl <;> decide

theorem splitNetloc_http (h : Reads netloc path) :
    splitNetloc (text "//" ++ netloc ++ path) = (netloc, path) := by
  have hdrop : (text "//" ++ netloc ++ path).drop 2 = netloc ++ path := rfl
  have hprefix : (text "//").isPrefixOf (text "//" ++ netloc ++ path) = true :=
    List.isPrefixOf_iff_prefix.2 ⟨netloc ++ path, (List.append_assoc _ _ _).symm⟩
  have hnetloc : ∀ c ∈ netloc, (!netlocEnds.contains c) = true := by
    intro c hc
    rw [Bool.not_eq_true', ← Bool.not_eq_true, List.contains_iff_mem]
    exact h.ends c hc
  have hpath : path.takeWhile (fun c => !netlocEnds.contains c) = [] ∧
      path.dropWhile (fun c => !netlocEnds.contains c) = path := by
    cases path with
    | nil => exact ⟨rfl, rfl⟩
    | cons c path =>
      have hc : c = 0x2F := Option.some.inj (h.absolute.resolve_left (List.cons_ne_nil _ _))
      rw [hc]
      exact ⟨rfl, rfl⟩
  rw [splitNetloc, if_pos hprefix, hdrop, List.span_eq_takeWhile_dropWhile,
    List.takeWhile_append_of_pos hnetloc, List.dropWhile_append_of_pos hnetloc, hpath.1, hpath.2,
    List.append_nil]

theorem splitPath_http (h : ∀ c ∈ path, c ≠ 0x3F ∧ c ≠ 0x23) : splitPath path = (path, [], []) := by
  have hhash : path.partition 0x23 = (path, [], []) :=
    Text.partition_of_not_mem fun hmem => (h _ hmem).2 rfl
  have hquery : path.partition 0x3F = (path, [], []) :=
    Text.partition_of_not_mem fun hmem => (h _ hmem).1 rfl
  rw [splitPath, hhash]
  dsimp only
  rw [hquery]

open scoped Classical in
/-- A URL put together from its parts splits into them. -/
theorem urlsplit_http (hu : u.Lawful) (hscheme : HttpScheme scheme) (h : Reads netloc path) :
    urlsplit u (scheme ++ 0x3A :: (text "//" ++ netloc ++ path)) =
      if NetlocOk u netloc then some ⟨scheme, netloc, path, [], []⟩ else none := by
  have hrest : ∀ c ∈ text "//" ++ netloc ++ path, c ∉ text "\t\r\n" := by
    intro c hc
    rw [List.append_assoc, List.mem_append] at hc
    rcases hc with hc | hc
    · have hslash : c = 0x2F := by simpa [text] using hc
      rw [hslash]
      decide
    · exact h.safe c hc
  rw [urlsplit_eq, cleaned_http hscheme hrest, splitScheme_http hu hscheme]
  dsimp only
  rw [splitNetloc_http h]
  dsimp only
  rw [splitPath_http h.marks]

/-! ### Hosts and ports -/

/-- The text before a separator does not hold it. -/
theorem not_mem_partition (s : Text) (c : CodePoint) : c ∉ (s.partition c).1 := by
  rcases Text.partition_cases s c with ⟨hmem, hpart⟩ | ⟨head, tail, hmem, _, hpart⟩
  · rwa [hpart]
  · rwa [hpart]

theorem mem_of_mem_partition {s : Text} {c d : CodePoint} (h : c ∈ (s.partition d).1) : c ∈ s := by
  rcases Text.partition_cases s d with ⟨_, hpart⟩ | ⟨head, tail, _, rfl, hpart⟩
  · rwa [hpart] at h
  · rw [hpart] at h
    exact List.mem_append_left _ h

namespace SplitResult

variable {r : SplitResult}

theorem userinfo_eq_none_iff : r.userinfo.1 = none ↔ (0x40 : CodePoint) ∉ r.netloc := by
  rw [userinfo]
  rcases Text.rpartition_cases r.netloc 0x40 with ⟨hmem, hpart⟩ | ⟨head, tail, _, heq, hpart⟩
  · rw [hpart]
    exact iff_of_true rfl hmem
  · rw [hpart, heq]
    simp

/-- The host and the port of a network location without credentials. -/
theorem hostinfo_cases (hat : (0x40 : CodePoint) ∉ r.netloc) :
    ((0x5B : CodePoint) ∉ r.netloc ∧
      r.hostinfo = ((r.netloc.partition 0x3A).1, (r.netloc.partition 0x3A).2.2)) ∨
    ∃ before bracketed, r.netloc = before ++ 0x5B :: bracketed ∧
      r.netloc.partition 0x5B = (before, [0x5B], bracketed) ∧
      r.hostinfo.1 = (Text.partition bracketed 0x5D).1 := by
  rw [hostinfo, Text.rpartition_of_not_mem hat]
  dsimp only
  rcases Text.partition_cases r.netloc 0x5B with ⟨hmem, hpart⟩ | ⟨before, bracketed, _, heq, hpart⟩
  · rw [hpart]
    exact .inl ⟨hmem, rfl⟩
  · rw [hpart]
    exact .inr ⟨before, bracketed, heq, rfl, rfl⟩

/-- The host comes from the network location. -/
theorem mem_netloc_of_mem_host (hat : (0x40 : CodePoint) ∉ r.netloc) {c : CodePoint}
    (hc : c ∈ r.hostinfo.1) : c ∈ r.netloc := by
  rcases hostinfo_cases hat with ⟨_, heq⟩ | ⟨before, bracketed, heq, _, hhost⟩
  · rw [heq] at hc
    exact mem_of_mem_partition hc
  · rw [hhost] at hc
    rw [heq]
    exact List.mem_append_right _ (List.mem_cons_of_mem _ (mem_of_mem_partition hc))

end SplitResult

theorem NetlocOk.closing_not_mem_host {r : SplitResult} (h : NetlocOk u r.netloc)
    (hat : (0x40 : CodePoint) ∉ r.netloc) : (0x5D : CodePoint) ∉ r.hostinfo.1 := by
  rcases SplitResult.hostinfo_cases hat with ⟨hopening, heq⟩ | ⟨_, bracketed, _, _, hhost⟩
  · intro hmem
    exact hopening (h.brackets.2 (SplitResult.mem_netloc_of_mem_host hat hmem))
  · rw [hhost]
    exact not_mem_partition _ _

theorem ipv6Int_of_no_colon {s : Text} (h : (0x3A : CodePoint) ∉ s) : ipv6Int s = none := by
  rw [ipv6Int, Text.split_eq_singleton h]
  rfl

theorem ipv6Address_of_no_colon {s : Text} (h : (0x3A : CodePoint) ∉ s) : ipv6Address s = none := by
  have haddress : (0x3A : CodePoint) ∉ (s.partition 0x25).1 := fun hmem => h (mem_of_mem_partition hmem)
  rw [ipv6Address]
  dsimp only
  rw [ipv6Int_of_no_colon haddress, ite_self]

theorem bracketedHost_of_no_colon {host : Text} (hok : bracketedHost host = true)
    (hcolon : (0x3A : CodePoint) ∉ host) : host.head? = some 0x76 := by
  rw [bracketedHost] at hok
  split at hok
  · assumption
  · split at hok
    · rename_i n hread
      rw [ipAddress, ipv6Address_of_no_colon hcolon, Option.map_none, Option.or_none] at hread
      obtain ⟨m, _, heq⟩ := Option.map_eq_some_iff.1 hread
      cases heq
    · cases hok

/-- A host without colons does not begin with a bracket. -/
theorem NetlocOk.head?_host {r : SplitResult} (h : NetlocOk u r.netloc)
    (hat : (0x40 : CodePoint) ∉ r.netloc) (hcolon : (0x3A : CodePoint) ∉ r.hostinfo.1) :
    (0x5B : CodePoint) ∉ r.hostinfo.1 ∨ r.hostinfo.1.head? = some 0x76 := by
  rcases SplitResult.hostinfo_cases hat with ⟨hopening, heq⟩ | ⟨before, bracketed, heq, hpart, hhost⟩
  · exact .inl fun hmem => hopening (SplitResult.mem_netloc_of_mem_host hat hmem)
  · have hok := h.bracketed (by rw [heq]; simp)
    rw [hpart] at hok
    rw [hhost] at hcolon ⊢
    exact .inr (bracketedHost_of_no_colon hok hcolon)

theorem Lowers.head?_ascii {c : CodePoint} {s t : Text} (h : Lowers s t) (hs : s.head? = some c)
    (hc : c.isascii = true) : t.head? = some c.asciiLower := by
  cases h with
  | nil => cases hs
  | ascii =>
    cases hs
    rfl
  | other hother =>
    cases hs
    rw [hc] at hother
    cases hother

theorem SplitResult.netloc_ne_nil {r : SplitResult} {hostname : Text}
    (h : r.hostname u = some hostname) : r.netloc ≠ [] := by
  intro hnil
  have hinfo : r.hostinfo = ([], []) := by
    rw [SplitResult.hostinfo, hnil]
    rfl
  rw [SplitResult.hostname, hinfo] at h
  cases h

/-- What the lower case of a hostname leaves of the host. -/
theorem SplitResult.hostname_eq_some (hu : u.Lawful) {r : SplitResult} {hostname : Text}
    (h : r.hostname u = some hostname) :
    hostname ≠ [] ∧
      (∀ c : CodePoint, c.isascii = true → c.letter = false → (c ∈ hostname ↔ c ∈ r.hostinfo.1)) ∧
      (r.hostinfo.1.head? = some 0x76 → hostname.head? = some 0x76) := by
  rw [SplitResult.hostname] at h
  dsimp only at h
  split at h
  · cases h
  · rename_i hne
    obtain rfl := Option.some.inj h
    rcases Text.partition_cases r.hostinfo.1 0x25 with ⟨_, hpart⟩ | ⟨head, zone, _, heq, hpart⟩
    · rw [hpart]
      dsimp only
      rw [List.append_nil, List.append_nil]
      exact ⟨mt (hu.lowers _).eq_nil_iff.1 hne, fun c hc hletter => (hu.lowers _).mem_iff hc hletter,
        fun hhead => (hu.lowers _).head?_ascii hhead (by decide)⟩
    · rw [hpart, heq]
      dsimp only
      refine ⟨by simp, fun c hc hletter => ?_, fun hhead => ?_⟩
      · rw [List.append_assoc, List.singleton_append, List.mem_append, List.mem_append,
          (hu.lowers head).mem_iff hc hletter]
      · cases head with
        | nil =>
          rw [List.nil_append, List.head?_cons] at hhead
          cases hhead
        | cons c head =>
          have hlower := (hu.lowers (c :: head)).head?_ascii hhead (by decide)
          rw [List.append_assoc, List.head?_append, hlower]
          rfl

end Python
