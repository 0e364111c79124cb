import ForgejoMcp.Auth.Tokens
import ForgejoMcp.Observability.Logging

/-!
# Minted tokens in log records

`_redact_text` takes 43 characters after `fmcp_`.  That is all of an MCP token, but of the other
tokens, which are three characters longer, the end stays, unless the token stands in the credentials
of a URL.
-/

namespace ForgejoMcp.Observability

open Python Regex Regex.Pattern Audit Auth

/-- The constructors of tokens. -/
inductive Mint
  | mcp
  | refresh
  | code
  | interaction

namespace Mint

/-- The function that mints a token from random bytes. -/
def new : Mint → List UInt8 → Text
  | mcp => newMcpToken
  | refresh => newOauthRefreshToken
  | code => newOauthCode
  | interaction => newOauthInteractionToken

/-- What stands between `fmcp_` and the random characters. -/
def kind : Mint → Text
  | mcp => []
  | refresh => text "rt_"
  | code => text "ac_"
  | interaction => text "oi_"

end Mint

/-- What stands between the texts is in the user and the password of a URL. -/
def InCredentials (p middle s : Text) : Prop :=
  ∃ A B C D, p = A ++ text "://" ++ B ∧ s = C ++ 0x40 :: D ∧ Credential (B ++ middle ++ C)

/-! ### The first substitution -/

variable {p s w x y z : Text} {c : CodePoint}

theorem tokenChar_digit : ∀ n < 64, tokenChar (urlsafe (Base64.digit n)) = true := by decide

/-- A minted token is one that the pattern matches and what its kind adds. -/
theorem Mint.exists_new (k : Mint) {bytes : List UInt8} (h : bytes.length = 32) :
    ∃ v w, k.new bytes = v ++ w ∧ IsToken v [] ∧ w.length = k.kind.length ∧
      ∀ c ∈ w, tokenChar c = true := by
  obtain ⟨sextets, hlt, hlength, htoken⟩ := exists_tokenUrlsafe h
  have hchars : ∀ c ∈ k.kind ++ tokenUrlsafe bytes, tokenChar c = true := by
    have hkind : k.kind.all tokenChar = true := by cases k <;> decide
    refine List.forall_mem_append.2 ⟨List.all_eq_true.1 hkind, fun c hc => ?_⟩
    rw [htoken] at hc
    obtain ⟨n, hn, rfl⟩ := List.mem_map.1 hc
    exact tokenChar_digit n (hlt n hn)
  have hnew : k.new bytes = text "fmcp_" ++ (k.kind ++ tokenUrlsafe bytes) := by cases k <;> rfl
  have hcount : (k.kind ++ tokenUrlsafe bytes).length = 43 + k.kind.length := by
    rw [List.length_append, htoken, List.length_map, hlength, Nat.add_comm]
  refine ⟨text "fmcp_" ++ (k.kind ++ tokenUrlsafe bytes).take 43,
    (k.kind ++ tokenUrlsafe bytes).drop 43, ?_, ⟨rfl, _, rfl, ?_, ?_⟩, ?_, ?_⟩
  · rw [hnew, List.append_assoc, List.take_append_drop]
  · rw [List.length_take, hcount]
    omega
  · exact fun c hc => hchars c (List.mem_of_mem_take hc)
  · rw [List.length_drop, hcount, Nat.add_sub_cancel_left]
  · exact fun c hc => hchars c (List.mem_of_mem_drop hc)

theorem prefix_of_not_mem (h : w <+: z ++ c :: y) (hc : c ∉ w) : w <+: z := by
  obtain ⟨t, ht⟩ := h
  rcases List.append_eq_append_iff.1 ht with ⟨n, rfl, -⟩ | ⟨n, rfl, hn⟩
  · exact List.prefix_append w n
  · cases n with
    | nil => exact (List.append_nil z).symm ▸ List.prefix_rfl
    | cons d n =>
      obtain ⟨rfl, -⟩ := List.cons.inj hn
      exact absurd (List.mem_append_right z List.mem_cons_self) hc

theorem nonempty_mcpTokenPattern : mcpTokenPattern.Nonempty :=
  fixed_mcpTokenPattern.nonempty fun _ _ h => h.ne_nil

theorem IsToken.not_mem {w : Text} {g : List (String × Text)} (h : IsToken w g)
    (hc : Observability.tokenChar c = false) : c ∉ w := fun hmem => by
  rw [h.tokenChar c hmem] at hc
  cases hc

/-- What a character between two texts tells apart is redacted on its own. -/
theorem redactTokens_append_cons (hc : tokenChar c = false) :
    redactTokens (x ++ c :: y) = redactTokens x ++ c :: redactTokens y := by
  have hx := nonempty_mcpTokenPattern.edits (f := hideToken) x []
  have hy := nonempty_mcpTokenPattern.edits (f := hideToken) y []
  have hnone : mcpTokenPattern.find? (x.reverse ++ []) (c :: y) = none := by
    refine Option.eq_none_iff_forall_ne_some.2 fun m hm => ?_
    obtain ⟨-, htoken, hpre⟩ := (fixed_mcpTokenPattern _ _ m).1 hm
    exact htoken.ne_nil (List.prefix_nil.1
      (prefix_of_not_mem (z := []) hpre (htoken.not_mem hc)))
  have hlocal : ∀ before z, z ≠ [] → z <:+ x →
      mcpTokenPattern.find? before (z ++ c :: y) = mcpTokenPattern.find? before z :=
    fun before z _ _ => fixed_mcpTokenPattern.find?_append fun w g htoken hpre =>
      prefix_of_not_mem hpre (htoken.not_mem hc)
  have hedits := hx.append nonempty_mcpTokenPattern hlocal
    (.keep hnone (fixed_mcpTokenPattern.edits_before (fun _ _ _ _ => rfl) hy _))
  rw [redactTokens, nonempty_mcpTokenPattern.sub_eq hedits, newText_append, newText_keep]
  rfl

theorem redactTokens_append (hp : ∀ c ∈ p.getLast?, tokenChar c = false) :
    redactTokens (p ++ s) = redactTokens p ++ redactTokens s := by
  rcases List.eq_nil_or_concat' p with rfl | ⟨p, d, rfl⟩
  · rfl
  · have hd : tokenChar d = false := hp d (by simp)
    rw [List.append_assoc, List.singleton_append, redactTokens_append_cons hd,
      redactTokens_append_cons hd, List.append_assoc]
    rfl

theorem redactTokens_append' (hs : ∀ c ∈ s.head?, tokenChar c = false) :
    redactTokens (p ++ s) = redactTokens p ++ redactTokens s := by
  cases s with
  | nil => rw [List.append_nil]; exact (List.append_nil _).symm
  | cons d s =>
    have hd : tokenChar d = false := hs d rfl
    rw [redactTokens_append_cons hd, ← List.nil_append (d :: s), redactTokens_append_cons hd]
    rfl

/-- What follows the 43 characters of a token stays. -/
theorem redactTokens_token {v : Text} (hv : IsToken v []) (hw : w.length < 48) :
    redactTokens (v ++ w) = text "fmcp_[REDACTED]" ++ w := by
  have hnone : ∀ before z, z ≠ [] → z <:+ w → mcpTokenPattern.find? before (z ++ []) = none := by
    intro before z _ hz
    refine Option.eq_none_iff_forall_ne_some.2 fun m hm => ?_
    obtain ⟨-, htoken, hpre⟩ := (fixed_mcpTokenPattern _ _ m).1 hm
    have hlength := hpre.length_le
    rw [htoken.length, List.append_nil] at hlength
    have := hz.length_le
    omega
  have hfound : mcpTokenPattern.find? [] (v ++ w) = some ⟨[], v, []⟩ :=
    (fixed_mcpTokenPattern _ _ _).2 ⟨rfl, hv, List.prefix_append v w⟩
  have hkept := Edits.kept (f := hideToken) _ hnone (.nil (w.reverse ++ v.reverse))
  rw [List.append_nil, List.append_nil] at hkept
  have hedits := @Edits.replace _ mcpTokenPattern hideToken [] w ⟨[], v, []⟩
    _ hfound (by rwa [List.append_nil])
  rw [redactTokens, nonempty_mcpTokenPattern.sub_eq hedits, newText_replace, newText_map_keep,
    hideToken]

/-! ### Texts that are alike but for tokens -/

/-- What separates the parts of a URL. -/
def separator (c : CodePoint) : Bool := !userChar c

theorem userChar_of_tokenChar (h : tokenChar c = true) : userChar c = true := by
  have hval : 0x20 < c.val ∧ c.val < 0x7F ∧ c.val ≠ 0x2F ∧ c.val ≠ 0x40 ∧ c.val ≠ 0x3A := by
    rw [tokenChar, letter, Bool.or_eq_true, Bool.or_eq_true, Bool.or_eq_true] at h
    rcases h with ((h | h) | h) | h
    · have := of_decide_eq_true h
      omega
    · have := of_decide_eq_true h
      omega
    · have := of_decide_eq_true h
      omega
    · exact of_decide_eq_true (of_oneOf (p := fun c => decide (0x20 < c.val ∧ c.val < 0x7F ∧
        c.val ≠ 0x2F ∧ c.val ≠ 0x40 ∧ c.val ≠ 0x3A)) h (by decide))
  have hone : oneOf "/@" c = false := by
    rw [← Bool.not_eq_true]
    intro hmem
    have := of_decide_eq_true (of_oneOf (p := fun c => decide (c.val = 0x2F ∨ c.val = 0x40)) hmem
      (by decide))
    omega
  have hcolon : c ≠ 0x3A := by
    rintro rfl
    exact absurd rfl hval.2.2.2.2
  rw [userChar, passwordChar, hone, isspace_eq_false ⟨hval.1, hval.2.1⟩, decide_eq_true hcolon]
  rfl

theorem separator_eq_false (h : ∀ c ∈ w, userChar c = true) : ∀ c ∈ w, separator c = false :=
  fun c hc => by rw [separator, h c hc]; rfl

theorem similar_redactTokens (value : Text) : SameMarks separator value (redactTokens value) := by
  have hedits := nonempty_mcpTokenPattern.edits (f := hideToken) value []
  have hsimilar := SameMarks.of_edits separator fun old new hmem => by
    obtain ⟨before, rest, m, found, rfl, rfl⟩ := hedits.exists_of_replace hmem
    have htoken := ((fixed_mcpTokenPattern _ _ m).1 found).2.1
    refine ⟨⟨htoken.ne_nil, separator_eq_false fun c hc => ?_⟩, List.cons_ne_nil _ _,
      separator_eq_false ?_⟩
    · exact userChar_of_tokenChar (htoken.tokenChar c hc)
    · have hall : (text "fmcp_[REDACTED]").all userChar = true := by decide
      exact List.all_eq_true.1 hall
  rwa [hedits.oldText_eq] at hsimilar

theorem userChar_of_not_separator (h : ∀ d, separator d = true → d ∉ w) :
    ∀ c ∈ w, userChar c = true := fun c hc => by
  by_contra hnot
  exact h c (by rw [separator, Bool.eq_false_iff.2 hnot]; rfl) hc

/-- Credentials stay credentials if what is between their separators changes. -/
theorem Credential.similar (h : Credential x) (hxy : SameMarks separator y x) : Credential y := by
  obtain ⟨user, password, rfl, ⟨hne, huser⟩, hne', hpassword⟩ := h
  obtain ⟨user', password', rfl, hs, hs'⟩ := hxy.exists_mark (by decide)
  refine ⟨user', password', rfl, ⟨?_, ?_⟩, ?_, fun c hc => ?_⟩
  · rintro rfl
    exact hne hs.symm.eq_nil
  · exact userChar_of_not_separator fun d hd => hs.not_mem_mark hd fun hmem => by
      rw [separator, huser d hmem] at hd
      cases hd
  · rintro rfl
    exact hne' hs'.symm.eq_nil
  · by_cases hcolon : c = 0x3A
    · rw [hcolon]
      decide
    · refine passwordChar_of_userChar ?_
      by_contra hnot
      have hsep : separator c = true := by rw [separator, Bool.eq_false_iff.2 hnot]; rfl
      refine hs'.not_mem_mark hsep (fun hmem => hnot ?_) hc
      rw [userChar, hpassword c hmem, decide_eq_true hcolon]
      rfl

theorem InCredentials.similar {p' middle middle' s' : Text} (h : InCredentials p middle s)
    (hp : SameMarks separator p' p) (hmiddle : SameMarks separator middle' middle)
    (hs : SameMarks separator s' s) : InCredentials p' middle' s' := by
  obtain ⟨A, B, C, D, rfl, rfl, hcredential⟩ := h
  have hscheme : A ++ text "://" ++ B = A ++ 0x3A :: ([] ++ 0x2F :: ([] ++ 0x2F :: B)) := by
    simp [text]
  rw [hscheme] at hp
  obtain ⟨A', B₀, rfl, -, hB₀⟩ := hp.exists_mark (by decide)
  obtain ⟨z₁, B₁, rfl, hz₁, hB₁⟩ := hB₀.exists_mark (by decide)
  obtain ⟨z₂, B', rfl, hz₂, hB'⟩ := hB₁.exists_mark (by decide)
  obtain ⟨C', D', rfl, hC', -⟩ := hs.exists_mark (by decide)
  obtain rfl := hz₁.eq_nil
  obtain rfl := hz₂.eq_nil
  exact ⟨A', B', C', D', by simp [text], rfl,
    hcredential.similar ((hB'.append hmiddle).append hC')⟩

/-! ### Credentials hide what is in them -/

variable (u : Unicode)

theorem Credential.no_blank {z : Text} (h : Credential z) : ∀ c ∈ z, c.isspace = false := by
  intro c hc
  have hchar := h.passwordChar c hc
  rw [Observability.passwordChar, Bool.not_eq_true', Bool.or_eq_false_iff] at hchar
  exact hchar.2

/-- No credentials reach into a `://` after their start. -/
theorem prefix_of_urlCredential {v rest : Text} (hz : Credential z) (hv : v ≠ [])
    (hpre : text "://" ++ z ++ text "@" <+: v ++ (text "://" ++ rest)) :
    text "://" ++ z ++ text "@" <+: v := by
  have hslash : (0x2F : CodePoint) ∉ z ++ text "@" := by
    intro hmem
    rcases List.mem_append.1 hmem with hmem | hmem
    · exact absurd (hz.passwordChar _ hmem) (by decide)
    · exact absurd hmem (by decide)
  rw [List.append_assoc] at hpre ⊢
  generalize htail : z ++ text "@" = tail at hpre hslash ⊢
  have hlast : tail.getLast? = some 0x40 := by
    rw [← htail]
    exact List.getLast?_concat
  match v, hv with
  | [a], _ =>
    obtain ⟨t, ht⟩ := hpre
    exact absurd ht (by simp [text])
  | [a, b], _ =>
    obtain ⟨t, ht⟩ := hpre
    exact absurd ht (by simp [text])
  | a :: b :: d :: v, _ =>
    have hcons : text "://" ++ tail = 0x3A :: 0x2F :: 0x2F :: tail := rfl
    rw [hcons, List.cons_append, List.cons_append, List.cons_append, List.cons_prefix_cons,
      List.cons_prefix_cons, List.cons_prefix_cons] at hpre
    obtain ⟨rfl, rfl, rfl, hpre⟩ := hpre
    have hback : v ++ (text "://" ++ rest) = (v ++ [0x3A]) ++ 0x2F :: (0x2F :: rest) := by
      simp [text]
    rw [hback] at hpre
    have hshort := prefix_of_not_mem hpre hslash
    -- the last character is the `@`, not the `:` of what follows
    rcases List.prefix_concat_iff.1 hshort with heq | hshort
    · rw [heq, List.getLast?_concat] at hlast
      exact absurd (Option.some.inj hlast) (by decide)
    · rw [hcons]
      simpa using hshort

/-- The second substitution passes credentials. -/
theorem exists_redactAuthorization (A D : Text) : ∃ A' D', ∀ z, Credential z →
    redactAuthorization u (A ++ text "://" ++ z ++ 0x40 :: D) =
      A' ++ text "://" ++ z ++ 0x40 :: D' := by
  have hne := nonempty_authorizationPattern u
  have hlocal := local_authorizationPattern u
  have hA := hne.edits (f := hideAuthorization) A []
  have hD := hne.edits (f := hideAuthorization) D [0x40]
  refine ⟨newText (edits (authorizationPattern u) hideAuthorization [] A 0),
    newText (edits (authorizationPattern u) hideAuthorization [0x40] D 0),
    fun z hz => ?_⟩
  have hblank : ∀ c ∈ text "://" ++ z, c.isspace = false := by
    have hscheme : (text "://").all (!·.isspace) = true := by decide
    refine List.forall_mem_append.2 ⟨fun c hc => ?_, hz.no_blank⟩
    simpa using List.all_eq_true.1 hscheme c hc
  have hnone : ∀ before v, v ≠ [] → v <:+ text "://" ++ z ++ [0x40] →
      (authorizationPattern u).find? before (v ++ D) = none := by
    intro before v hv hsuffix
    obtain ⟨v, d, rfl⟩ := (List.eq_nil_or_concat' v).resolve_left hv
    obtain ⟨n, hn⟩ := hsuffix
    rw [← List.append_assoc] at hn
    obtain ⟨hv', hd⟩ := List.append_inj' hn rfl
    obtain rfl : d = 0x40 := (List.cons.inj hd).1
    rw [List.append_assoc, List.singleton_append]
    by_cases hnil : v = []
    · rw [hnil]
      exact find?_authorizationPattern_cons u (by decide) (by decide)
    · rw [hlocal.find?_append hnil (by simp [authorizationStop, text])]
      exact find?_authorizationPattern_of_no_blank u fun c hc =>
        hblank c (hv' ▸ List.mem_append_right n hc)
  have hrest := Edits.kept (A.reverse ++ []) hnone (hlocal.edits_before hne (fun _ _ _ _ => rfl) hD
    ((text "://" ++ z ++ [0x40]).reverse ++ (A.reverse ++ [])) (by simp))
  have hedits := hlocal.edits_append hne hA _ (by simp [authorizationStop, text]) hrest
  have htext : A ++ text "://" ++ z ++ 0x40 :: D = A ++ (text "://" ++ z ++ [0x40] ++ D) := by simp
  rw [htext, redactAuthorization, hne.sub_eq hedits, newText_append, newText_append,
    newText_map_keep]
  simp

/-- The third substitution takes credentials away. -/
theorem exists_redactUrlCredentials (A D : Text) : ∃ A' D', ∀ z, Credential z →
    redactUrlCredentials (A ++ text "://" ++ z ++ 0x40 :: D) =
      A' ++ text "://[REDACTED]@" ++ D' := by
  have hfixed := fixed_urlCredentialPattern
  have hne : urlCredentialPattern.Nonempty := hfixed.nonempty fun w g h => by
    obtain ⟨-, z, rfl, -⟩ := h
    exact List.append_ne_nil_of_right_ne_nil _ (List.cons_ne_nil _ _)
  have hA := hne.edits (f := hideCredential) A []
  have hD := hne.edits (f := hideCredential) D []
  refine ⟨newText (edits urlCredentialPattern hideCredential [] A 0),
    newText (edits urlCredentialPattern hideCredential [] D 0),
    fun z hz => ?_⟩
  have hcredential : IsUrlCredential (text "://" ++ z ++ text "@") [("1", text "://")] :=
    ⟨rfl, z, rfl, hz⟩
  have hfound := (hfixed (A.reverse ++ []) (text "://" ++ z ++ text "@" ++ D)
    ⟨_, _, _⟩).2 ⟨rfl, hcredential, List.prefix_append _ D⟩
  have hrest := @Edits.replace _ urlCredentialPattern hideCredential (A.reverse ++ []) D
    ⟨A.reverse ++ [], text "://" ++ z ++ text "@", [("1", text "://")]⟩ _ hfound
    (hfixed.edits_before (fun _ _ _ _ => rfl) hD _)
  have hlocal : ∀ before v, v ≠ [] → v <:+ A →
      urlCredentialPattern.find? before (v ++ (text "://" ++ z ++ text "@" ++ D)) =
        urlCredentialPattern.find? before v := fun before v hv _ => by
    refine hfixed.find?_append fun w g h hpre => ?_
    obtain ⟨-, z', rfl, hz'⟩ := h
    exact prefix_of_urlCredential hz' hv hpre
  have hedits := hA.append hne hlocal hrest
  have htext : A ++ text "://" ++ z ++ 0x40 :: D = A ++ (text "://" ++ z ++ text "@" ++ D) := by
    simp [text]
  rw [htext, redactUrlCredentials, hne.sub_eq hedits, newText_append, newText_replace]
  simp [hideCredential, Match.group, text]

/-! ### What is not in credentials stays -/

variable {u} {before Q S : Text} {es : List (Edit CodePoint)}

/-- A replacement of the second substitution holds a blank, and nothing that separates the parts of
a URL otherwise. -/
theorem authorization_replaced (h : Edits (authorizationPattern u)
      hideAuthorization before s es) {old new : Text}
    (hmem : .replace old new ∈ es) : (∃ c ∈ new, c.isspace = true) ∧
      ∀ c ∈ new, passwordChar c = false ∨ c = 0x3A → c = 0x20 := by
  obtain ⟨b, rest, m, found, rfl, rfl⟩ := h.exists_of_replace hmem
  obtain ⟨keyword, blanks, credential, hauth, -, hgroup⟩ :=
    exists_of_found_authorizationPattern u found
  have hmark : (text " [REDACTED]").all (fun c => userChar c || decide (c = 0x20)) = true := by
    decide
  rw [hideAuthorization, hgroup]
  refine ⟨⟨0x20, List.mem_append_right _ (by decide), by decide⟩, fun c hc hsep => ?_⟩
  have huser : userChar c = false := by
    rcases hsep with hsep | rfl
    · rw [userChar, hsep, Bool.false_and]
    · decide
  rcases List.mem_append.1 hc with hc | hc
  · rw [hauth.userChar c hc] at huser
    cases huser
  · simpa [huser] using List.all_eq_true.1 hmark c hc

/-- A text without blanks between the parts of a URL was not changed by the second substitution. -/
theorem authorization_kept (h : Edits (authorizationPattern u)
      hideAuthorization before s es) (hw : w ≠ [])
    (hsep : w.all (fun c => decide (c ≠ 0x20) && (!passwordChar c || decide (c = 0x3A))) = true)
    (hnew : newText es = x ++ w ++ y) : ∃ es₁ es₂, oldText es = oldText es₁ ++ w ++ oldText es₂ ∧
      (newText es₁ = x ∧ ((∀ c ∈ x, c.isspace = false) → oldText es₁ = x)) ∧
      newText es₂ = y ∧ ((∀ c ∈ y, c.isspace = false) → oldText es₂ = y) := by
  obtain ⟨es₁, es₂, rfl, rfl, rfl⟩ := exists_kept_word hw (fun old new hmem => by
    obtain ⟨⟨d, hd, -⟩, hclean⟩ := authorization_replaced h hmem
    refine ⟨List.ne_nil_of_mem hd, fun c hc hcnew => ?_⟩
    have hparts := List.all_eq_true.1 hsep c hc
    rw [Bool.and_eq_true, decide_eq_true_iff, Bool.or_eq_true, Bool.not_eq_true',
      decide_eq_true_iff] at hparts
    exact hparts.1 (hclean c hcnew hparts.2)) hnew
  refine ⟨es₁, es₂, by rw [oldText_append, oldText_append, oldText_map_keep], ⟨rfl, fun hx => ?_⟩,
    rfl, fun hy => ?_⟩
  · exact oldText_eq_newText hx fun old new hmem =>
      (authorization_replaced h (List.mem_append_left _ (List.mem_append_left _ hmem))).1
  · exact oldText_eq_newText hy fun old new hmem =>
      (authorization_replaced h (List.mem_append_right _ hmem)).1

/-- Where a character of the user or the password stands. -/
theorem exists_of_urlCredential (hc : userChar c = true)
    (h : x ++ c :: y = text "://" ++ z ++ text "@") :
    ∃ B C, x = text "://" ++ B ∧ z = B ++ c :: C ∧ y = C ++ [0x40] := by
  have hne : ∀ {w : Text}, w.all (!userChar ·) = true → c ∉ w := fun hw hmem => by
    have := List.all_eq_true.1 hw c hmem
    rw [hc] at this
    cases this
  have hscheme : c ∉ text "://" := hne (by decide)
  have hat : c ∉ text "@" := hne (by decide)
  have htail : ∀ {B}, z ++ text "@" = B ++ c :: y → ∃ C, z = B ++ c :: C ∧ y = C ++ [0x40] := by
    intro B hB
    rcases List.append_eq_append_iff.1 hB with ⟨n, rfl, hn⟩ | ⟨n, rfl, hn⟩
    · exact absurd (hn ▸ List.mem_append_right n List.mem_cons_self) hat
    · cases n with
      | nil =>
        rw [List.nil_append] at hn
        exact absurd (hn ▸ List.mem_cons_self) hat
      | cons d n =>
        obtain ⟨rfl, rfl⟩ := List.cons.inj hn
        exact ⟨n, rfl, rfl⟩
  rw [List.append_assoc] at h
  rcases List.append_eq_append_iff.1 h with ⟨n, hn, hy⟩ | ⟨B, rfl, hB⟩
  · cases n with
    | nil =>
      obtain ⟨C, hz, hy⟩ := htail (B := []) hy.symm
      exact ⟨[], C, by simpa using hn.symm, hz, hy⟩
    | cons d n =>
      obtain ⟨rfl, -⟩ := List.cons.inj hy
      exact absurd (hn ▸ List.mem_append_right x List.mem_cons_self) hscheme
  · obtain ⟨C, hz, hy⟩ := htail hB
    exact ⟨B, C, rfl, hz, hy⟩

/-- A character after a redacted token stays, unless it is in the credentials of a URL. -/
theorem redacted_or_inCredentials (hc : userChar c = true) (hb : sameLetter 0x62 c = false)
    (ht : sameLetter 0x74 c = false) (Q S : Text) :
    (∃ Y, redactUrlCredentials (redactAuthorization u (Q ++ 0x5D :: c :: S)) =
      redactUrlCredentials (redactAuthorization u Q ++ [0x5D]) ++ c :: Y) ∨
      InCredentials (Q ++ [0x5D]) [c] S := by
  have hne := nonempty_authorizationPattern u
  have hQ := hne.edits (f := hideAuthorization) Q []
  have hS := hne.edits (f := hideAuthorization) S
    (c :: 0x5D :: (Q.reverse ++ []))
  have hfront := (local_authorizationPattern u).edits_append hne hQ (0x5D :: c :: S)
    (by simp [authorizationStop, text])
    (.keep (find?_authorizationPattern_cons u (by decide) (by decide))
      (.keep (find?_authorizationPattern_cons u hb ht) hS))
  have htext : redactAuthorization u (Q ++ 0x5D :: c :: S) =
      redactAuthorization u Q ++ [0x5D] ++ c :: newText (edits (authorizationPattern u)
        hideAuthorization (c :: 0x5D :: (Q.reverse ++ [])) S 0) := by
    rw [redactAuthorization, hne.sub_eq hfront, newText_append, newText_keep, newText_keep,
      List.append_assoc]
    rfl
  have hfixed := fixed_urlCredentialPattern
  have hne' : urlCredentialPattern.Nonempty := hfixed.nonempty fun w g h => by
    obtain ⟨-, z, rfl, -⟩ := h
    exact List.append_ne_nil_of_right_ne_nil _ (List.cons_ne_nil _ _)
  have hes := hne'.edits (f := hideCredential)
    (redactAuthorization u (Q ++ 0x5D :: c :: S)) []
  rcases exists_old_edit (hes.oldText_eq.trans htext) with
    ⟨es₁, es₂, hsplit, hx, -⟩ | ⟨es₁, o₁, o₂, new, es₂, hsplit, hx, hy⟩
  · refine .inl ⟨newText es₂, ?_⟩
    rw [hsplit] at hes
    have hold := hes.oldText_eq
    rw [oldText_append] at hold
    rw [← hold] at hes
    have hprefix := hfixed.edits_front hes
    rw [redactUrlCredentials, hne'.sub_eq (hold ▸ hes), newText_append, newText_keep,
      redactUrlCredentials, ← hx, hne'.sub_eq hprefix]
  · refine .inr ?_
    rw [hsplit] at hes
    obtain ⟨m, found, hm, -⟩ := hes.find?_of_replace
    obtain ⟨-, z, hz, hcredential⟩ := ((hfixed _ _ m).1 found).2.1
    rw [← hm] at hz
    obtain ⟨B, C, rfl, rfl, rfl⟩ := exists_of_urlCredential hc hz
    have hblank := hcredential.no_blank
    have hclosed := (local_authorizationPattern u).edits_append hne hQ [0x5D]
      (by simp [authorizationStop, text])
      (.keep (find?_authorizationPattern_cons u (by decide) (by decide)) (.nil _))
    have hA : newText (edits (authorizationPattern u) hideAuthorization [] Q 0
        ++ [.keep 0x5D]) = oldText es₁ ++ text "://" ++ B := by
      rw [newText_append, List.append_assoc, hx]
      rfl
    obtain ⟨e₁, e₂, hold, -, -, hB⟩ := authorization_kept hclosed (by decide) (by decide) hA
    rw [List.append_assoc] at hy
    obtain ⟨e₃, e₄, hold', ⟨-, hC⟩, -⟩ := authorization_kept hS (w := [0x40]) (by decide)
      (by decide) (hy.symm.trans (List.append_assoc _ _ _).symm)
    rw [hclosed.oldText_eq, hB fun d hd => hblank d (List.mem_append_left _ hd)] at hold
    have hCblank : ∀ d ∈ C, d.isspace = false := fun d hd =>
      hblank d (List.mem_append_right _ (List.mem_cons_of_mem c hd))
    rw [hS.oldText_eq, hC hCblank, List.append_assoc] at hold'
    exact ⟨oldText e₁, B, C, oldText e₄, hold, hold', by
      rwa [List.append_assoc, List.singleton_append]⟩

/-! ### What `_redact_text` shows of a token -/

/-- A text without slashes and one without `@` can be taken to what is in credentials. -/
theorem InCredentials.widen {m₁ m₂ m₃ : Text} (h : InCredentials (p ++ m₁) m₂ (m₃ ++ s))
    (hslash : (0x2F : CodePoint) ∉ m₁) (hat : (0x40 : CodePoint) ∉ m₃) :
    InCredentials p (m₁ ++ m₂ ++ m₃) s := by
  obtain ⟨A, B, C, D, hp, hs, hcredential⟩ := h
  have hfront : A ++ text "://" = A ++ text ":/" ++ [0x2F] := by simp [text]
  obtain ⟨B', rfl, rfl⟩ : ∃ B', p = A ++ text "://" ++ B' ∧ B = B' ++ m₁ := by
    rcases List.append_eq_append_iff.1 hp with ⟨n, hn, hm⟩ | ⟨n, hn, hm⟩
    · rcases List.eq_nil_or_concat' n with rfl | ⟨n, d, rfl⟩
      · exact ⟨[], by simpa using hn.symm, by simpa using hm.symm⟩
      · rw [hfront, ← List.append_assoc] at hn
        obtain rfl : d = 0x2F := (List.cons.inj (List.append_inj' hn rfl).2).1.symm
        exact absurd (hm ▸ by simp) hslash
    · exact ⟨n, hn, hm⟩
  obtain ⟨C', rfl, rfl⟩ : ∃ C', s = C' ++ 0x40 :: D ∧ C = m₃ ++ C' := by
    rcases List.append_eq_append_iff.1 hs with ⟨n, hn, hm⟩ | ⟨n, hn, hm⟩
    · exact ⟨n, hm, hn⟩
    · cases n with
      | nil => exact ⟨[], hm.symm, by simpa using hn.symm⟩
      | cons d n =>
        obtain ⟨rfl, -⟩ := List.cons.inj hm
        exact absurd (hn ▸ List.mem_append_right C List.mem_cons_self) hat
  exact ⟨A, B', C', D, rfl, rfl, by simpa using hcredential⟩

theorem redactTokens_new {v : Text} (hp : ∀ c ∈ p.getLast?, tokenChar c = false)
    (hs : ∀ c ∈ s.head?, tokenChar c = false) (hv : IsToken v []) (hw : w.length < 48) :
    redactTokens (p ++ (v ++ w) ++ s) =
      redactTokens p ++ (text "fmcp_[REDACTED]" ++ w) ++ redactTokens s := by
  rw [redactTokens_append' hs, redactTokens_append hp, redactTokens_token hv hw]

/-- Two draws of random bytes that differ in the last characters of a token. -/
theorem Mint.exists_draws {k : Mint} (hk : k ≠ .mcp) : ∃ bytes bytes' v, bytes.length = 32 ∧
    bytes'.length = 32 ∧ IsToken v [] ∧ k.new bytes = v ++ text "AAA" ∧
    k.new bytes' = v ++ text "CAA" := by
  have hchars : ∀ {w : Text}, w.length = 43 → w.all tokenChar = true →
      IsToken (text "fmcp_" ++ w) [] :=
    fun hlength hall => ⟨rfl, _, rfl, hlength, List.all_eq_true.1 hall⟩
  refine ⟨List.replicate 32 0, List.replicate 30 0 ++ [8, 0],
    text "fmcp_" ++ (k.kind ++ List.replicate 40 0x41), rfl, rfl, ?_, ?_, ?_⟩
  · cases k with
    | mcp => exact absurd rfl hk
    | _ => exact hchars (by decide) (by decide)
  · cases k with
    | mcp => exact absurd rfl hk
    | _ => decide +kernel
  · cases k with
    | mcp => exact absurd rfl hk
    | _ => decide +kernel

theorem plain_of_all (hne : w ≠ []) (hall : w.all userChar = true) :
    w ≠ [] ∧ ∀ c ∈ w, separator c = false := ⟨hne, separator_eq_false (List.all_eq_true.1 hall)⟩

theorem delimiter_of_all {o : Option CodePoint} (h : o.all (!tokenChar ·) = true) :
    ∀ c ∈ o, tokenChar c = false := by
  rintro c rfl
  simpa using h

variable (u)

/-- An MCP token is redacted in full. -/
theorem redactText_mcp (hp : ∀ c ∈ p.getLast?, tokenChar c = false)
    (hs : ∀ c ∈ s.head?, tokenChar c = false) {bytes : List UInt8} (h : bytes.length = 32) :
    redactText u (p ++ Mint.mcp.new bytes ++ s) = redactUrlCredentials (redactAuthorization u
      (redactTokens p ++ text "fmcp_[REDACTED]" ++ redactTokens s)) := by
  obtain ⟨v, w, hnew, hv, hw, -⟩ := Mint.mcp.exists_new h
  obtain rfl := List.eq_nil_of_length_eq_zero hw
  rw [redactText, hnew, redactTokens_new hp hs hv (by decide), List.append_nil]

/-- In the credentials of a URL nothing of a token shows. -/
theorem exists_redactText (k : Mint) (hp : ∀ c ∈ p.getLast?, tokenChar c = false)
    (hs : ∀ c ∈ s.head?, tokenChar c = false) (hin : InCredentials p (text "fmcp_") s) :
    ∃ T, ∀ bytes : List UInt8, bytes.length = 32 → redactText u (p ++ k.new bytes ++ s) = T := by
  obtain ⟨A, B, C, D, hA, hD, hcredential⟩ := hin.similar (similar_redactTokens p).symm
    (.refl (text "fmcp_")) (similar_redactTokens s).symm
  obtain ⟨A₂, D₂, hsecond⟩ := exists_redactAuthorization u A D
  obtain ⟨A₃, D₃, hthird⟩ := exists_redactUrlCredentials A₂ D₂
  refine ⟨A₃ ++ text "://[REDACTED]@" ++ D₃, fun bytes hbytes => ?_⟩
  obtain ⟨v, w, hnew, hv, hw, hchars⟩ := k.exists_new hbytes
  have hshort : w.length < 48 := by
    rw [hw]
    cases k <;> decide
  have hmark := plain_of_all (w := text "fmcp_[REDACTED]") (List.cons_ne_nil _ _) (by decide)
  have hmiddle : SameMarks separator (text "fmcp_[REDACTED]" ++ w) (text "fmcp_") :=
    .of_pieces ⟨List.cons_ne_nil _ _, List.forall_mem_append.2
        ⟨hmark.2, separator_eq_false fun c hc => userChar_of_tokenChar (hchars c hc)⟩⟩
      (plain_of_all (List.cons_ne_nil _ _) (by decide))
  have hz := hcredential.similar (((SameMarks.refl B).append hmiddle).append (.refl C))
  have htext : redactTokens (p ++ k.new bytes ++ s) =
      A ++ text "://" ++ (B ++ (text "fmcp_[REDACTED]" ++ w) ++ C) ++ 0x40 :: D := by
    rw [hnew, redactTokens_new hp hs hv hshort, hA, hD]
    simp only [List.append_assoc]
  rw [redactText, htext, hsecond _ hz, hthird _ hz]

/-- A character of a token that the first substitution left in credentials. -/
theorem InCredentials.of_redactTokens (hc : userChar c = true)
    (h : InCredentials (redactTokens p ++ text "fmcp_[REDACTED" ++ [0x5D]) [c]
      (text "AA" ++ redactTokens s)) : InCredentials p (text "fmcp_") s := by
  rw [List.append_assoc] at h
  have hfront := plain_of_all (w := text "fmcp_[REDACTED" ++ [0x5D]) (by decide) (by decide)
  have hend := plain_of_all (w := text "AA") (by decide) (by decide)
  refine (h.widen (by decide) (by decide)).similar (similar_redactTokens p)
    (.of_pieces (plain_of_all (List.cons_ne_nil _ _) (by decide)) ⟨List.cons_ne_nil _ _, ?_⟩)
    (similar_redactTokens s)
  refine List.forall_mem_append.2 ⟨List.forall_mem_append.2 ⟨hfront.2, ?_⟩, hend.2⟩
  exact separator_eq_false (List.forall_mem_singleton.2 hc)

/-- The end of another token than an MCP token shows if it stands in no credentials. -/
theorem inCredentials_of_hides {k : Mint} (hk : k ≠ .mcp)
    (hp : ∀ c ∈ p.getLast?, tokenChar c = false) (hs : ∀ c ∈ s.head?, tokenChar c = false)
    (h : ∀ bytes bytes' : List UInt8, bytes.length = 32 → bytes'.length = 32 →
      redactText u (p ++ k.new bytes ++ s) = redactText u (p ++ k.new bytes' ++ s)) :
    InCredentials p (text "fmcp_") s := by
  obtain ⟨bytes, bytes', v, hbytes, hbytes', hv, hnew, hnew'⟩ := Mint.exists_draws hk
  have hsame := h bytes bytes' hbytes hbytes'
  have hpass : ∀ w, redactTokens p ++ (text "fmcp_[REDACTED]" ++ w) ++ redactTokens s =
      redactTokens p ++ text "fmcp_[REDACTED" ++ 0x5D :: (w ++ redactTokens s) := by
    intro w
    simp [text]
  rw [redactText, redactText, hnew, hnew', redactTokens_new hp hs hv (by decide),
    redactTokens_new hp hs hv (by decide), hpass, hpass] at hsame
  have hA : userChar 0x41 = true := by decide
  have hC : userChar 0x43 = true := by decide
  rcases redacted_or_inCredentials (u := u) hA (by decide) (by decide)
    (redactTokens p ++ text "fmcp_[REDACTED") (text "AA" ++ redactTokens s) with ⟨Y, hY⟩ | hin
  · rcases redacted_or_inCredentials (u := u) hC (by decide) (by decide)
      (redactTokens p ++ text "fmcp_[REDACTED") (text "AA" ++ redactTokens s) with ⟨Y', hY'⟩ | hin
    · have heq := hY.symm.trans (hsame.trans hY')
      exact absurd (List.cons.inj (List.append_cancel_left heq)).1 (by decide)
    · exact hin.of_redactTokens hC
  · exact hin.of_redactTokens hA

/-- The random characters of a token do not show just if it is an MCP token or stands in the
credentials of a URL. -/
theorem redactText_hides_iff (k : Mint) (p s : Text) (hp : ∀ c ∈ p.getLast?, tokenChar c = false)
    (hs : ∀ c ∈ s.head?, tokenChar c = false) :
    (∀ bytes bytes' : List UInt8, bytes.length = 32 → bytes'.length = 32 →
      redactText u (p ++ k.new bytes ++ s) = redactText u (p ++ k.new bytes' ++ s)) ↔
      k = .mcp ∨ InCredentials p (text "fmcp_") s := by
  constructor
  · intro h
    by_cases hk : k = .mcp
    · exact .inl hk
    · exact .inr (inCredentials_of_hides u hk hp hs h)
  · rintro (rfl | hin) bytes bytes' hbytes hbytes'
    · rw [redactText_mcp u hp hs hbytes, redactText_mcp u hp hs hbytes']
    · obtain ⟨T, hT⟩ := exists_redactText u k hp hs hin
      rw [hT bytes hbytes, hT bytes' hbytes']

/-- A refresh token for a password. -/
theorem redactText_hides_refresh_password :
    redactText .ascii (text "https://git:" ++ Mint.refresh.new (List.replicate 32 0) ++
        text "@host") =
      redactText .ascii (text "https://git:" ++
        Mint.refresh.new (List.replicate 30 0 ++ [8, 0]) ++ text "@host") :=
  (redactText_hides_iff .ascii .refresh (text "https://git:") (text "@host")
    (delimiter_of_all (by decide)) (delimiter_of_all (by decide))).2
      (.inr ⟨text "https", text "git:", [], text "host", by decide, by decide,
      text "git", text "fmcp_", by decide, ⟨by decide, List.all_eq_true.1 (by decide)⟩, by decide,
      List.all_eq_true.1 (by decide)⟩) _ _ rfl rfl

/-- The end of a refresh token shows. -/
theorem redactText_shows_refresh_token : ¬ ∀ (u : Unicode) (k : Mint) (p s : Text),
    (∀ c ∈ p.getLast?, tokenChar c = false) → (∀ c ∈ s.head?, tokenChar c = false) →
    ∀ bytes bytes' : List UInt8, bytes.length = 32 → bytes'.length = 32 →
      redactText u (p ++ k.new bytes ++ s) = redactText u (p ++ k.new bytes' ++ s) := by
  intro h
  have hsame := h .ascii .refresh (text "refresh ") [] (delimiter_of_all (by decide))
    (delimiter_of_all rfl) (List.replicate 32 0) (List.replicate 30 0 ++ [8, 0]) rfl rfl
  exact absurd hsame (by decide +kernel)

end ForgejoMcp.Observability
