import ForgejoMcp.Audit.Patterns
import ForgejoMcp.Regex.Pieces

/-!
# Redaction of log records

The patterns of `observability/logging.py` and `_redact_text`.
-/

namespace ForgejoMcp.Observability

open Python Regex Regex.Pattern Audit

/-! ### Classes of characters -/

/-- `[A-Za-z0-9_-]`. -/
def tokenChar (c : CodePoint) : Bool := letter c || digit c || oneOf "_-" c

/-- `[A-Za-z0-9._~+/=-]`, case ignored: the last four fold to `i`, `s` and `k`. -/
def authorizationChar (c : CodePoint) : Bool :=
  letter c || digit c || oneOf "._~+/=-" c || [0x130, 0x131, 0x17F, 0x212A].contains c.val

/-- `[^/@\s]`. -/
def passwordChar (c : CodePoint) : Bool := !(oneOf "/@" c || c.isspace)

/-- `[^/@\s:]`. -/
def userChar (c : CodePoint) : Bool := passwordChar c && decide (c ≠ 0x3A)

/-- A small letter, case ignored; the Kelvin sign folds to `k`. -/
def sameLetter (c d : CodePoint) : Bool :=
  decide (d = c ∨ d.val + 0x20 = c.val ∨ c = 0x6B ∧ d = 0x212A)

/-- A word in small letters, case ignored. -/
def caseless : Text → Pattern CodePoint
  | [] => empty
  | c :: w => cat (char (sameLetter c)) (caseless w)

variable (u : Unicode)

/-- `\w`. -/
def wordChar (c : CodePoint) : Bool := u.isalnum c || decide (c = 0x5F)

/-- `\b`. -/
def wordBoundary (before rest : Text) : Bool :=
  before.head?.any (wordChar u) != rest.head?.any (wordChar u)

/-! ### Patterns -/

/-- `_MCP_TOKEN_PATTERN`. -/
def mcpTokenPattern : Pattern CodePoint := cat (lit (text "fmcp_")) (exactly (char tokenChar) 43)

/-- `bearer|token`, in any case. -/
def bearerOrToken : Pattern CodePoint := alt (caseless (text "bearer")) (caseless (text "token"))

/-- `_AUTHORIZATION_PATTERN`. -/
def authorizationPattern : Pattern CodePoint :=
  cat (look (wordBoundary u)) (cat (group "1" bearerOrToken)
    (cat (plus (char CodePoint.isspace)) (atLeast (char authorizationChar) 8)))

/-- `_URL_CREDENTIAL_PATTERN`. -/
def urlCredentialPattern : Pattern CodePoint :=
  cat (group "1" (lit (text "://"))) (cat (plus (char userChar)) (cat (lit (text ":"))
    (cat (plus (char passwordChar)) (lit (text "@")))))

/-! ### `_redact_text` -/

/-- The replacement for a token. -/
def hideToken (_ : Match CodePoint) : Text := text "fmcp_[REDACTED]"

/-- The replacement for an authorization. -/
def hideAuthorization (m : Match CodePoint) : Text := m.group "1" ++ text " [REDACTED]"

/-- The replacement for credentials in a URL. -/
def hideCredential (m : Match CodePoint) : Text := m.group "1" ++ text "[REDACTED]@"

/-- The first substitution. -/
def redactTokens (value : Text) : Text := mcpTokenPattern.sub hideToken value

/-- The second substitution. -/
def redactAuthorization (value : Text) : Text :=
  (authorizationPattern u).sub hideAuthorization value

/-- The third substitution. -/
def redactUrlCredentials (value : Text) : Text := urlCredentialPattern.sub hideCredential value

/-- `_redact_text`. -/
def redactText (value : Text) : Text :=
  redactUrlCredentials (redactAuthorization u (redactTokens value))

/-! ### Tokens in a text -/

/-- A token with its random part, as `_MCP_TOKEN_PATTERN` matches it. -/
def IsToken (w : Text) (groups : List (String × Text)) : Prop :=
  groups = [] ∧ ∃ v, w = text "fmcp_" ++ v ∧ v.length = 43 ∧ ∀ c ∈ v, tokenChar c = true

theorem IsToken.ne_nil {w : Text} {g : List (String × Text)} (h : IsToken w g) : w ≠ [] := by
  obtain ⟨-, v, rfl, -⟩ := h
  exact List.cons_ne_nil _ _

theorem IsToken.length {w : Text} {g : List (String × Text)} (h : IsToken w g) : w.length = 48 := by
  obtain ⟨-, v, rfl, hv, -⟩ := h
  rw [List.length_append, hv]
  rfl

theorem IsToken.tokenChar {w : Text} {g : List (String × Text)} (h : IsToken w g) :
    ∀ c ∈ w, tokenChar c = true := by
  obtain ⟨-, v, rfl, -, hv⟩ := h
  have hfront : (text "fmcp_").all Observability.tokenChar = true := by decide
  exact List.forall_mem_append.2 ⟨List.all_eq_true.1 hfront, hv⟩

theorem mem_run_mcpTokenPattern {s t : State CodePoint} : t ∈ mcpTokenPattern.run s ↔
    ∃ v rest, s.rest = text "fmcp_" ++ v ++ rest ∧ v.length = 43 ∧ (∀ c ∈ v, tokenChar c = true) ∧
      t = s.over (text "fmcp_" ++ v) rest := by
  rw [mcpTokenPattern, mem_run_cat]
  constructor
  · rintro ⟨s', hs', ht⟩
    obtain ⟨rest, hrest, rfl⟩ := mem_run_lit.1 hs'
    obtain ⟨v, rest', hrest', hlength, hv, rfl⟩ := mem_run_exactly_char.1 ht
    rw [State.over_rest] at hrest'
    exact ⟨v, rest', by rw [hrest, hrest', List.append_assoc], hlength, hv, State.over_over ..⟩
  · rintro ⟨v, rest, hrest, hlength, hv, rfl⟩
    refine ⟨s.over (text "fmcp_") (v ++ rest), mem_run_lit.2 ⟨_, ?_, rfl⟩, ?_⟩
    · rw [hrest, List.append_assoc]
    · exact mem_run_exactly_char.2 ⟨v, rest, rfl, hlength, hv, (State.over_over ..).symm⟩

theorem fixed_mcpTokenPattern : mcpTokenPattern.Fixed IsToken := by
  refine fixed_of_run (fun s t => mem_run_mcpTokenPattern.trans ⟨?_, ?_⟩) ?_
  · rintro ⟨v, rest, hrest, hv, hchars, rfl⟩
    exact ⟨_, [], rest, hrest, ⟨rfl, v, rfl, hv, hchars⟩, rfl⟩
  · rintro ⟨w, g, rest, hrest, ⟨rfl, v, rfl, hv, hchars⟩, rfl⟩
    exact ⟨v, rest, hrest, hv, hchars, rfl⟩
  · intro w g w' g' rest rest' hw hw' heq
    exact ⟨(List.append_inj heq (hw.length.trans hw'.length.symm)).1, hw.1.trans hw'.1.symm⟩

/-! ### Credentials in a text -/

/-- What `_URL_CREDENTIAL_PATTERN` takes for a user and a password. -/
def Credential (z : Text) : Prop :=
  ∃ user password, z = user ++ 0x3A :: password ∧ (user ≠ [] ∧ ∀ c ∈ user, userChar c = true) ∧
    password ≠ [] ∧ ∀ c ∈ password, passwordChar c = true

theorem passwordChar_of_userChar {c : CodePoint} (h : userChar c = true) : passwordChar c = true :=
  (Bool.and_eq_true_iff.1 h).1

theorem Credential.passwordChar {z : Text} (h : Credential z) :
    ∀ c ∈ z, Observability.passwordChar c = true := by
  obtain ⟨user, password, rfl, ⟨-, huser⟩, -, hpassword⟩ := h
  exact List.forall_mem_append.2 ⟨fun c hc => passwordChar_of_userChar (huser c hc),
    List.forall_mem_cons.2 ⟨by decide, hpassword⟩⟩

/-- Credentials with what is around them. -/
def IsUrlCredential (w : Text) (groups : List (String × Text)) : Prop :=
  groups = [("1", text "://")] ∧ ∃ z, w = text "://" ++ z ++ text "@" ∧ Credential z

theorem mem_run_urlCredentialPattern {s t : State CodePoint} : t ∈ urlCredentialPattern.run s ↔
    ∃ w g rest, s.rest = w ++ rest ∧ IsUrlCredential w g ∧
      t = ⟨w.reverse ++ s.before, rest, g ++ s.groups⟩ := by
  constructor
  · intro ht
    obtain ⟨_, hgroup, ht⟩ := mem_run_cat.1 ht
    obtain ⟨_, hv, w, hw, rfl⟩ := mem_run_group.1 hgroup
    obtain ⟨rest, hrest, rfl⟩ := mem_run_lit.1 hv
    obtain ⟨_, huser, ht⟩ := mem_run_cat.1 ht
    obtain ⟨user, rest₁, hrest₁, hne, hchars, rfl⟩ := mem_run_plus_char.1 huser
    obtain ⟨_, hcolon, ht⟩ := mem_run_cat.1 ht
    obtain ⟨rest₂, hrest₂, rfl⟩ := mem_run_lit.1 hcolon
    obtain ⟨_, hpassword, ht⟩ := mem_run_cat.1 ht
    obtain ⟨password, rest₃, hrest₃, hne', hchars', rfl⟩ := mem_run_plus_char.1 hpassword
    obtain ⟨rest₄, hrest₄, rfl⟩ := mem_run_lit.1 ht
    obtain rfl : w = text "://" := List.append_cancel_right (hw.rest.symm.trans hrest)
    simp only [State.over_rest] at hrest₁ hrest₂ hrest₃ hrest₄
    refine ⟨text "://" ++ (user ++ 0x3A :: password) ++ text "@", _, rest₄, ?_, ⟨rfl, _, rfl, user,
      password, rfl, ⟨hne, hchars⟩, hne', hchars'⟩, ?_⟩
    · rw [hrest, hrest₁, hrest₂, hrest₃, hrest₄]
      simp [text]
    · simp [State.over, text]
  · rintro ⟨w, g, rest, hrest, ⟨rfl, z, rfl, hz⟩, rfl⟩
    obtain ⟨user, password, rfl, ⟨hne, hchars⟩, hne', hchars'⟩ := hz
    have hs : s.rest = text "://" ++ (user ++ (text ":" ++ (password ++ (text "@" ++ rest)))) := by
      rw [hrest]
      simp [text]
    refine mem_run_cat.2 ⟨_, mem_run_group.2 ⟨_, mem_run_lit.2 ⟨_, hs, rfl⟩, text "://", ⟨hs, rfl⟩,
      rfl⟩, mem_run_cat.2 ⟨_, mem_run_plus_char.2 ⟨user, _, rfl, hne, hchars, rfl⟩,
      mem_run_cat.2 ⟨_, mem_run_lit.2 ⟨_, rfl, rfl⟩,
      mem_run_cat.2 ⟨_, mem_run_plus_char.2 ⟨password, _, rfl, hne', hchars', rfl⟩,
      mem_run_lit.2 ⟨rest, rfl, ?_⟩⟩⟩⟩⟩
    simp [State.over, text]

/-- Credentials end at the first `@`. -/
theorem fixed_urlCredentialPattern : urlCredentialPattern.Fixed IsUrlCredential := by
  refine fixed_of_run (fun s t => mem_run_urlCredentialPattern) ?_
  rintro w g w' g' rest rest' ⟨rfl, z, rfl, hz⟩ ⟨rfl, z', rfl, hz'⟩ heq
  have hat : ∀ {z : Text}, Credential z → (0x40 : CodePoint) ∉ z := fun h hmem =>
    absurd (h.passwordChar _ hmem) (by decide)
  simp only [List.append_assoc] at heq
  have hparts := congrArg (Text.partition · 0x40) (List.append_cancel_left heq)
  have hsplit : ∀ {z rest : Text}, Credential z →
      Text.partition (z ++ (text "@" ++ rest)) 0x40 = (z, [0x40], rest) :=
    fun h => Text.partition_append_cons (hat h) _
  rw [hsplit hz, hsplit hz'] at hparts
  obtain rfl := (Prod.mk.inj hparts).1
  exact ⟨rfl, rfl⟩

/-! ### Authorizations in a text -/

/-- A text spells a word, case ignored. -/
def Spelled (w keyword : Text) : Prop := List.Forall₂ (fun c d => sameLetter c d = true) w keyword

theorem mem_run_caseless {w : Text} {s t : State CodePoint} : t ∈ (caseless w).run s ↔
    ∃ keyword rest, s.rest = keyword ++ rest ∧ Spelled w keyword ∧ t = s.over keyword rest := by
  induction w generalizing s with
  | nil =>
    rw [caseless, mem_run_empty]
    constructor
    · rintro rfl
      exact ⟨[], t.rest, rfl, .nil, t.over_nil.symm⟩
    · rintro ⟨_, rest, hrest, ⟨⟩, rfl⟩
      exact s.over_nil_of_rest hrest
  | cons c w ih =>
    rw [caseless, mem_run_cat]
    constructor
    · rintro ⟨v, hv, ht⟩
      obtain ⟨d, rest, hrest, hd, rfl⟩ := mem_run_char.1 hv
      obtain ⟨keyword, rest', hrest', hw, rfl⟩ := ih.1 ht
      rw [State.over_rest] at hrest'
      exact ⟨d :: keyword, rest', by rw [hrest, hrest']; rfl, .cons hd hw, State.over_over ..⟩
    · rintro ⟨_, rest, hrest, hw, rfl⟩
      cases hw with
      | @cons _ d _ keyword hd hw =>
        exact ⟨s.over [d] (keyword ++ rest), mem_run_char.2 ⟨d, _, hrest, hd, rfl⟩,
          ih.2 ⟨keyword, rest, rfl, hw, (State.over_over s [d] keyword _ rest).symm⟩⟩

theorem userChar_of_sameLetter {c d : CodePoint} (hc : lower c = true) (h : sameLetter c d = true) :
    userChar d = true := by
  have hlower : 0x61 ≤ c.val ∧ c.val ≤ 0x7A := of_decide_eq_true hc
  by_cases hkelvin : d = 0x212A
  · rw [hkelvin]
    decide
  · have hrange : 0x40 < d.val ∧ d.val < 0x7F := by
      rcases of_decide_eq_true h with rfl | h | ⟨-, h⟩
      · omega
      · omega
      · exact absurd h hkelvin
    have hone : oneOf "/@" d = false := by
      rw [← Bool.not_eq_true]
      intro hmem
      have := of_oneOf (p := fun c => decide (c.val ≤ 0x40)) hmem (by decide)
      have := of_decide_eq_true this
      omega
    have hcolon : d ≠ 0x3A := by
      rintro rfl
      exact absurd hrange.1 (by decide)
    rw [userChar, passwordChar, hone, isspace_eq_false ⟨by omega, hrange.2⟩, decide_eq_true hcolon]
    rfl

theorem Spelled.userChar {w keyword : Text} (h : Spelled w keyword) (hw : w.all lower = true) :
    ∀ c ∈ keyword, Observability.userChar c = true := by
  induction h with
  | nil => exact fun c hc => (List.not_mem_nil hc).elim
  | cons hd _ ih =>
    obtain ⟨hc, hw⟩ := Bool.and_eq_true_iff.1 hw
    exact List.forall_mem_cons.2 ⟨userChar_of_sameLetter hc hd, ih hw⟩

/-- A keyword, blanks and what looks like a credential. -/
structure IsAuthorization (keyword blanks credential : Text) : Prop where
  keyword : Spelled (text "bearer") keyword ∨ Spelled (text "token") keyword
  blanks : blanks ≠ [] ∧ ∀ c ∈ blanks, c.isspace = true

variable {before rest : Text} {m : Match CodePoint} {c : CodePoint}

theorem exists_of_found_authorizationPattern
    (h : (authorizationPattern u).find? before rest = some m) :
    ∃ keyword blanks credential, IsAuthorization keyword blanks credential ∧
      m.text = keyword ++ blanks ++ credential ∧ m.group "1" = keyword := by
  obtain ⟨t, ht, hrest, hm⟩ := exists_of_find? h
  obtain ⟨_, hlook, ht⟩ := mem_run_cat.1 (List.mem_of_mem_head? ht)
  obtain ⟨-, rfl⟩ := mem_run_look.1 hlook
  obtain ⟨_, hgroup, ht⟩ := mem_run_cat.1 ht
  obtain ⟨v, hv, keyword, hkeyword, rfl⟩ := mem_run_group.1 hgroup
  have hspelled : ∃ rest', rest = keyword ++ rest' ∧ v.groups = [] ∧ v.rest = rest' ∧
      (Spelled (text "bearer") keyword ∨ Spelled (text "token") keyword) := by
    rcases mem_run_alt.1 hv with hv | hv
    · obtain ⟨keyword', rest', hrest', hw, rfl⟩ := mem_run_caseless.1 hv
      obtain rfl := List.append_cancel_right (hkeyword.rest.symm.trans hrest')
      exact ⟨rest', hrest', rfl, rfl, .inl hw⟩
    · obtain ⟨keyword', rest', hrest', hw, rfl⟩ := mem_run_caseless.1 hv
      obtain rfl := List.append_cancel_right (hkeyword.rest.symm.trans hrest')
      exact ⟨rest', hrest', rfl, rfl, .inr hw⟩
  obtain ⟨rest₁, hrest₁, hgroups, hvrest, hword⟩ := hspelled
  obtain ⟨_, hblanks, ht⟩ := mem_run_cat.1 ht
  obtain ⟨blanks, rest₂, hrest₂, hne, hchars, rfl⟩ := mem_run_plus_char.1 hblanks
  obtain ⟨_, hcredential, ht⟩ := mem_run_cat.1 ht
  obtain ⟨front, rest₃, hrest₃, -, -, rfl⟩ := mem_run_exactly_char.1 hcredential
  obtain ⟨credential, rest₄, hrest₄, -, rfl⟩ := mem_run_star_char.1 ht
  simp only [State.over_rest] at hrest₂ hrest₃ hrest₄ hrest
  refine ⟨keyword, blanks, front ++ credential, ⟨hword, hne, hchars⟩, ?_, ?_⟩
  · refine List.append_cancel_right (hrest.symm.trans ?_)
    rw [hrest₁, ← hvrest, hrest₂, hrest₃, hrest₄]
    simp
  · rw [hm, Match.group]
    rfl

/-- Characters that are in no authorization. -/
def authorizationStop (c : CodePoint) : Prop := c ∈ text ":@]"

theorem authorizationStop_of_all {p : CodePoint → Bool} (h : (text ":@]").all (!p ·) = true) :
    ∀ c, authorizationStop c → p c = false := fun c hc => by
  simpa using List.all_eq_true.1 h c hc

theorem stops_caseless {w : Text} (h : (text ":@]").all (fun d => w.all (!sameLetter · d)) = true) :
    (caseless w).Stops authorizationStop := by
  induction w with
  | nil => exact fun _ _ _ _ => rfl
  | cons c w ih =>
    simp only [List.all_cons, List.all_eq_true, Bool.and_eq_true] at h
    refine ⟨fun d hd => by simpa using (h d hd).1, ih ?_⟩
    simp only [List.all_eq_true]
    exact fun d hd => (h d hd).2

theorem stops_exactly {r : Pattern CodePoint} (h : r.Stops authorizationStop) (n : ℕ) :
    (exactly r n).Stops authorizationStop := by
  induction n with
  | zero => exact fun _ _ _ _ => rfl
  | succ n ih => exact ⟨h, ih⟩

theorem local_authorizationPattern : (authorizationPattern u).Local authorizationStop := by
  have hspace : (char CodePoint.isspace).Stops authorizationStop :=
    authorizationStop_of_all (by decide)
  have hchar : (char authorizationChar).Stops authorizationStop :=
    authorizationStop_of_all (by decide)
  refine Stops.local ⟨⟨stops_caseless (by decide), stops_caseless (by decide)⟩, ⟨hspace, hspace⟩,
    stops_exactly hchar 8, hchar⟩ fun b b' z z' hb hz => ?_
  rw [wordBoundary, wordBoundary, hb, hz]

theorem Spelled.ne_nil {c : CodePoint} {w keyword : Text} (h : Spelled (c :: w) keyword) :
    ∃ d keyword', keyword = d :: keyword' ∧ sameLetter c d = true := by
  cases h with
  | cons hd _ => exact ⟨_, _, rfl, hd⟩

theorem IsAuthorization.exists_cons {keyword blanks credential : Text}
    (h : IsAuthorization keyword blanks credential) : ∃ d keyword', keyword = d :: keyword' ∧
      (sameLetter 0x62 d = true ∨ sameLetter 0x74 d = true) := by
  rcases h.keyword with h | h
  · obtain ⟨d, keyword', hcons, hd⟩ := Spelled.ne_nil (c := 0x62) (w := text "earer") h
    exact ⟨d, keyword', hcons, .inl hd⟩
  · obtain ⟨d, keyword', hcons, hd⟩ := Spelled.ne_nil (c := 0x74) (w := text "oken") h
    exact ⟨d, keyword', hcons, .inr hd⟩

theorem IsAuthorization.userChar {keyword blanks credential : Text}
    (h : IsAuthorization keyword blanks credential) :
    ∀ c ∈ keyword, Observability.userChar c = true :=
  h.keyword.elim (·.userChar (by decide)) (·.userChar (by decide))

theorem nonempty_authorizationPattern : (authorizationPattern u).Nonempty := fun _ _ m h => by
  obtain ⟨keyword, blanks, credential, hauth, htext, -⟩ := exists_of_found_authorizationPattern u h
  rw [htext]
  exact List.append_ne_nil_of_left_ne_nil (List.append_ne_nil_of_right_ne_nil _ hauth.blanks.1) _

/-- No authorization starts with another letter. -/
theorem find?_authorizationPattern_cons (hb : sameLetter 0x62 c = false)
    (ht : sameLetter 0x74 c = false) :
    (authorizationPattern u).find? before (c :: rest) = none := by
  refine Option.eq_none_iff_forall_ne_some.2 fun m hm => ?_
  obtain ⟨keyword, blanks, credential, hauth, htext, -⟩ := exists_of_found_authorizationPattern u hm
  obtain ⟨d, keyword', rfl, hd⟩ := hauth.exists_cons
  obtain ⟨t, -, hrest, -⟩ := exists_of_find? hm
  rw [htext] at hrest
  obtain ⟨rfl, -⟩ := List.cons.inj hrest
  rcases hd with hd | hd
  · rw [hb] at hd
    cases hd
  · rw [ht] at hd
    cases hd

/-- There is no authorization without a blank. -/
theorem find?_authorizationPattern_of_no_blank (h : ∀ c ∈ rest, c.isspace = false) :
    (authorizationPattern u).find? before rest = none := by
  refine Option.eq_none_iff_forall_ne_some.2 fun m hm => ?_
  obtain ⟨keyword, blanks, credential, hauth, htext, -⟩ := exists_of_found_authorizationPattern u hm
  obtain ⟨t, -, hrest, -⟩ := exists_of_find? hm
  obtain ⟨d, hd⟩ := List.exists_mem_of_ne_nil _ hauth.blanks.1
  have hmem : d ∈ rest := by
    rw [hrest, htext]
    exact List.mem_append_left _ (List.mem_append_left _ (List.mem_append_right _ hd))
  exact Bool.noConfusion ((hauth.blanks.2 d hd).symm.trans (h d hmem))

end ForgejoMcp.Observability
