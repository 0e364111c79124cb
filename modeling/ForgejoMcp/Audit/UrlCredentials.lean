import ForgejoMcp.Audit.Arguments

/-!
# Credentials in URLs

What is kept of the arguments of a tool holds no credentials of a URL.  The first pass of
`_redact_text` leaves none; the second pass can only add to what is before an `@` where it replaces
an authority.
-/

namespace ForgejoMcp.Audit

open Python Regex Regex.Pattern

/-! ### The first pass -/

/-- `scheme://`. -/
def IsScheme (w : Text) : Prop := ∃ c sch, w = c :: sch ++ text "://" ∧ letter c = true ∧
  ∀ d ∈ sch, schemeChar d = true

/-- A `scheme://` and what can be credentials after it. -/
structure Credentials (scheme userinfo : Text) : Prop where
  scheme : IsScheme scheme
  ne : userinfo ≠ []
  chars : ∀ c ∈ userinfo, credentialChar c = true

variable {s t : State CodePoint} {scheme userinfo rest : Text}

theorem mem_run_schemeEnd : t ∈ (cat (star (char schemeChar)) (lit (text "://"))).run s ↔
    ∃ sch rest, s.rest = sch ++ text "://" ++ rest ∧ (∀ d ∈ sch, schemeChar d = true) ∧
      t = s.over (sch ++ text "://") rest := by
  rw [mem_run_cat]
  constructor
  · rintro ⟨v, hv, ht⟩
    obtain ⟨sch, rest, hrest, hsch, rfl⟩ := mem_run_star_char.1 hv
    obtain ⟨rest', hrest', rfl⟩ := mem_run_lit.1 ht
    rw [State.over_rest] at hrest'
    exact ⟨sch, rest', by rw [hrest, hrest', List.append_assoc], hsch, State.over_over _ _ _ _ _⟩
  · rintro ⟨sch, rest, hrest, hsch, rfl⟩
    refine ⟨s.over sch (text "://" ++ rest), mem_run_star_char.2 ⟨sch, _, ?_, hsch, rfl⟩, ?_⟩
    · rw [hrest, List.append_assoc]
    · exact mem_run_lit.2 ⟨rest, rfl, (State.over_over _ _ _ _ _).symm⟩

/-- The scheme ends at the first character that can not be in it. -/
theorem takeWhile_schemeChar {sch : Text} (hsch : ∀ d ∈ sch, schemeChar d = true) (rest : Text) :
    (sch ++ text "://" ++ rest).takeWhile schemeChar = sch := by
  rw [List.append_assoc, List.takeWhile_append_of_pos hsch]
  have hnone : (text "://" ++ rest).takeWhile schemeChar = [] := rfl
  rw [hnone, List.append_nil]

theorem single_schemeEnd : (cat (star (char schemeChar)) (lit (text "://"))).Single := by
  have hgreedy : (cat (star (char schemeChar)) (lit (text "://"))).Greedy :=
    (greedy_star_char _).cat_fixed (n := 3) (single_lit _) fun s t ht => by
      obtain ⟨rest, hrest, rfl⟩ := mem_run_lit.1 ht
      rw [hrest, State.over_rest, List.length_append, Nat.add_comm]
      rfl
  refine hgreedy.single fun s t ht u hu => ?_
  obtain ⟨sch, rest, hrest, hsch, rfl⟩ := mem_run_schemeEnd.1 ht
  obtain ⟨sch', rest', hrest', hsch', rfl⟩ := mem_run_schemeEnd.1 hu
  have heq := takeWhile_schemeChar hsch rest
  rw [← hrest, hrest', takeWhile_schemeChar hsch'] at heq
  rw [hrest', heq] at hrest
  rw [State.over_rest, State.over_rest, List.append_cancel_left hrest]

theorem greedy_urlCredentials : urlCredentials.Greedy :=
  (((single_char _).cat single_schemeEnd).group _).cat_greedy
    ((greedy_plus_char _).cat_fixed (n := 1) (single_lit _) fun s t ht => by
      obtain ⟨rest, hrest, rfl⟩ := mem_run_lit.1 ht
      rw [hrest, State.over_rest, List.length_append, Nat.add_comm]
      rfl)

theorem exists_of_mem_run_urlCredentials (ht : t ∈ urlCredentials.run s) :
    ∃ scheme userinfo, Credentials scheme userinfo ∧ s.rest = scheme ++ userinfo ++ 0x40 :: t.rest ∧
      t.groups = ("scheme", scheme) :: s.groups := by
  obtain ⟨_, hgroup, ht⟩ := mem_run_cat.1 ht
  obtain ⟨_, hv, scheme, hscheme, rfl⟩ := mem_run_group.1 hgroup
  obtain ⟨_, hletter, hend⟩ := mem_run_cat.1 hv
  obtain ⟨c, rest, hrest, hc, rfl⟩ := mem_run_char.1 hletter
  obtain ⟨sch, rest₁, hrest₁, hsch, rfl⟩ := mem_run_schemeEnd.1 hend
  obtain ⟨_, hplus, hat⟩ := mem_run_cat.1 ht
  obtain ⟨userinfo, rest₂, hrest₂, hne, hchars, rfl⟩ := mem_run_plus_char.1 hplus
  obtain ⟨rest₃, hrest₃, rfl⟩ := mem_run_lit.1 hat
  simp only [State.over_rest] at hrest₁ hrest₂ hrest₃
  have hs : s.rest = (c :: sch ++ text "://") ++ rest₁ := by rw [hrest, hrest₁]; simp
  obtain rfl : scheme = c :: sch ++ text "://" :=
    List.append_cancel_right (hscheme.rest.symm.trans hs)
  refine ⟨_, userinfo, ⟨⟨c, sch, rfl, hc, hsch⟩, hne, hchars⟩, ?_, rfl⟩
  rw [hs, hrest₂, hrest₃, State.over_rest, ← List.append_assoc]
  rfl

theorem exists_mem_run_urlCredentials (h : Credentials scheme userinfo)
    (hs : s.rest = scheme ++ userinfo ++ 0x40 :: rest) : ∃ t ∈ urlCredentials.run s, t.rest = rest := by
  obtain ⟨⟨c, sch, rfl, hc, hsch⟩, hne, hchars⟩ := h
  have hs' : s.rest = c :: (sch ++ text "://" ++ (userinfo ++ 0x40 :: rest)) := by rw [hs]; simp
  refine ⟨_, mem_run_cat.2 ⟨_, mem_run_group.2 ⟨_, mem_run_cat.2 ⟨_, mem_run_char.2
    ⟨c, _, hs', hc, rfl⟩, mem_run_schemeEnd.2 ⟨sch, _, rfl, hsch, rfl⟩⟩, c :: sch ++ text "://", ?_,
    rfl⟩, mem_run_cat.2 ⟨_, mem_run_plus_char.2 ⟨userinfo, _, rfl, hne, hchars, rfl⟩,
    mem_run_lit.2 ⟨rest, rfl, rfl⟩⟩⟩, rfl⟩
  exact ⟨by rw [hs']; simp, by simp⟩

variable {before : Text} {m : Match CodePoint}

theorem exists_of_found_urlCredentials (h : urlCredentials.find? before rest = some m) :
    ∃ scheme userinfo, Credentials scheme userinfo ∧ m.text = scheme ++ userinfo ++ [0x40] ∧
      m.group "scheme" = scheme := by
  obtain ⟨t, ht, hrest, hm⟩ := exists_of_find? h
  obtain ⟨scheme, userinfo, hcredentials, hs, hgroups⟩ :=
    exists_of_mem_run_urlCredentials (List.mem_of_mem_head? ht)
  refine ⟨scheme, userinfo, hcredentials, ?_, ?_⟩
  · have htext : m.text ++ t.rest = scheme ++ userinfo ++ [0x40] ++ t.rest := by
      rw [← hrest, List.append_assoc _ [0x40]]
      exact hs
    exact List.append_cancel_right htext
  · rw [hm, Match.group, hgroups]
    rfl

theorem nonempty_urlCredentials : urlCredentials.Nonempty := fun before rest m h => by
  obtain ⟨scheme, userinfo, -, htext, -⟩ := exists_of_found_urlCredentials h
  rw [htext]
  exact List.append_ne_nil_of_right_ne_nil _ (List.cons_ne_nil _ _)

/-- A match reaches the last `@`. -/
theorem exists_not_credentialChar {w : Text}
    (h : urlCredentials.find? before (m.text ++ (w ++ 0x40 :: rest)) = some m) :
    ∃ c ∈ w, credentialChar c = false := by
  by_contra hnot
  have hw : ∀ c ∈ w, credentialChar c = true := fun c hc => by
    by_contra hc'
    exact hnot ⟨c, hc, Bool.eq_false_iff.2 hc'⟩
  obtain ⟨scheme, userinfo, hcredentials, htext, -⟩ := exists_of_found_urlCredentials h
  obtain ⟨t, ht, hrest, -⟩ := exists_of_find? h
  have hlonger : Credentials scheme (userinfo ++ 0x40 :: w) := by
    refine ⟨hcredentials.scheme, List.append_ne_nil_of_right_ne_nil _ (List.cons_ne_nil _ _), ?_⟩
    exact List.forall_mem_append.2 ⟨hcredentials.chars, List.forall_mem_cons.2 ⟨by decide, hw⟩⟩
  have hs : m.text ++ (w ++ 0x40 :: rest) = scheme ++ (userinfo ++ 0x40 :: w) ++ 0x40 :: rest := by
    rw [htext]
    simp
  obtain ⟨t', ht', hrest'⟩ :=
    exists_mem_run_urlCredentials (s := ⟨before, m.text ++ (w ++ 0x40 :: rest), []⟩) hlonger hs
  have hle := greedy_urlCredentials.le_of_head ht ht'
  rw [← List.append_cancel_left hrest, hrest', List.length_append, List.length_cons] at hle
  omega

theorem IsScheme.getLast? (h : IsScheme scheme) (A : Text) : (A ++ scheme).getLast? = some 0x2F := by
  obtain ⟨c, sch, rfl, -, -⟩ := h
  have hend : c :: sch ++ text "://" = (c :: sch ++ text ":/") ++ [0x2F] := by
    rw [List.append_assoc]
    rfl
  rw [hend, ← List.append_assoc, List.getLast?_concat]

theorem IsScheme.not_mem (h : IsScheme scheme) : (0x40 : CodePoint) ∉ scheme := by
  obtain ⟨c, sch, rfl, hc, hsch⟩ := h
  intro hmem
  rcases List.mem_append.1 hmem with hmem | hmem
  · rcases List.mem_cons.1 hmem with rfl | hmem
    · exact absurd hc (by decide)
    · exact absurd (hsch _ hmem) (by decide)
  · exact absurd hmem (by decide)

theorem Credentials.slash_not_mem (h : Credentials scheme userinfo) :
    (0x2F : CodePoint) ∉ userinfo := fun hmem => absurd (h.chars _ hmem) (by decide)

/-- The first pass leaves no credentials: what is between a `scheme://` and an `@` is the mark. -/
theorem redactUrls_credentials {value A B : Text} (h : Credentials scheme userinfo)
    (hx : redactUrls value = A ++ scheme ++ userinfo ++ 0x40 :: B) : userinfo = redacted := by
  have hes := nonempty_urlCredentials.edits
    (f := fun m => m.group "scheme" ++ redacted ++ text "@") value []
  rw [redactUrls, Pattern.sub] at hx
  rcases exists_edit hx with ⟨es₁, es₂, hsplit, htext, -⟩ | ⟨es₁, old, n₁, n₂, es₂, hsplit, htext, -⟩
  · -- an `@` that was kept is in no match, though one could end with it
    exfalso
    obtain ⟨es₀, w, rfl, hlast⟩ := exists_kept_suffix es₁
    rw [hsplit] at hes
    rw [newText_append, newText_map_keep] at htext
    have hw : ∃ A', w = A' ++ scheme ++ userinfo := by
      rcases hlast with rfl | ⟨es₁, old, new, rfl⟩
      · exact ⟨A, htext⟩
      · rw [List.append_assoc, List.append_assoc, List.singleton_append] at hes
        obtain ⟨m, found, rfl, rfl⟩ := Edits.find?_of_replace hes
        have hend : (newText (es₁ ++ [.replace m.text (m.group "scheme" ++ redacted ++ text "@")])
            ).getLast? = some 0x40 := by
          rw [newText_append, newText_replace, newText_nil, List.append_nil, ← List.append_assoc]
          exact List.getLast?_concat
        rcases List.append_eq_append_iff.1 htext with ⟨A', hA, rfl⟩ | ⟨C, -, rfl⟩
        · obtain ⟨A'', rfl, -⟩ := exists_of_append_eq hA.symm fun d hd => by
            obtain rfl := Option.some.inj (hend.symm.trans hd)
            exact h.scheme.not_mem
          exact ⟨A'', rfl⟩
        · rw [oldText_append, oldText_map_keep, oldText_keep] at found
          obtain ⟨c, hc, hnot⟩ := exists_not_credentialChar found
          rw [h.chars c (List.mem_append_right C hc)] at hnot
          cases hnot
    obtain ⟨A', rfl⟩ := hw
    obtain ⟨c, sch, hscheme, hc, hsch⟩ := h.scheme
    have hshift : es₀ ++ (A' ++ scheme ++ userinfo).map .keep ++ .keep 0x40 :: es₂ =
        (es₀ ++ A'.map .keep) ++ .keep c ::
          ((sch ++ text "://" ++ userinfo).map .keep ++ .keep 0x40 :: es₂) := by
      rw [hscheme]
      simp
    rw [hshift] at hes
    have hs : c :: oldText ((sch ++ text "://" ++ userinfo).map .keep ++ .keep 0x40 :: es₂) =
        scheme ++ userinfo ++ 0x40 :: oldText es₂ := by
      rw [oldText_append, oldText_map_keep, oldText_keep, hscheme]
      simp
    obtain ⟨t, ht, -⟩ := exists_mem_run_urlCredentials (s := ⟨_, _, []⟩) h hs
    exact find?_of_mem ht hes.find?_of_keep
  · -- an `@` that a replacement puts there has the mark before it
    rw [hsplit] at hes
    obtain ⟨m, found, -, hnew⟩ := Edits.find?_of_replace hes
    obtain ⟨scheme', userinfo', hcredentials, -, hgroup⟩ := exists_of_found_urlCredentials found
    rw [hgroup] at hnew
    have hmark : (0x40 : CodePoint) ∉ scheme' ++ redacted :=
      List.not_mem_append hcredentials.scheme.not_mem (by decide)
    obtain ⟨rfl, -, -⟩ := (List.append_cons_inj_of_notMem hmark List.not_mem_nil).1 hnew.symm
    rw [← List.append_assoc] at htext
    refine (eq_of_append_eq htext (fun d hd => ?_) fun d hd => ?_).symm
    · obtain rfl := Option.some.inj ((hcredentials.scheme.getLast? _).symm.trans hd)
      exact h.slash_not_mem
    · obtain rfl := Option.some.inj ((h.scheme.getLast? A).symm.trans hd)
      exact by decide

/-! ### The second pass -/

variable {u : Unicode} {host : Text}

theorem within_authorityHost : authorityHost.Within fun c => c ≠ 0x40 ∧ c ≠ 0x2F := by
  have hname : ∀ c, nameChar c = true → c ≠ 0x40 ∧ c ≠ 0x2F := fun c hc =>
    ⟨fun h => absurd (h ▸ hc) (by decide), fun h => absurd (h ▸ hc) (by decide)⟩
  have hend : ∀ c, nameEnd c = true → c ≠ 0x40 ∧ c ≠ 0x2F := fun c hc =>
    ⟨fun h => absurd (h ▸ hc) (by decide), fun h => absurd (h ▸ hc) (by decide)⟩
  have haddress : ∀ c, addressChar c = true → c ≠ 0x40 ∧ c ≠ 0x2F := fun c hc =>
    ⟨fun h => absurd (h ▸ hc) (by decide), fun h => absurd (h ▸ hc) (by decide)⟩
  refine ⟨⟨⟨within_lit_of_all (by decide), ⟨haddress, haddress⟩, within_lit_of_all (by decide)⟩,
    hend, ⟨hname, hend⟩, trivial⟩, ⟨⟨within_lit_of_all (by decide), hname, hname⟩, trivial⟩,
    within_lit_of_all (by decide), trivial⟩

theorem length_lt_of_mem_plus {p : CodePoint → Bool} (s : State CodePoint) :
    ∀ t ∈ (plus (char p)).run s, t.rest.length < s.rest.length := fun t ht => by
  obtain ⟨w, rest, hrest, hne, -, rfl⟩ := mem_run_plus_char.1 ht
  have hpos := List.length_pos_of_ne_nil hne
  rw [hrest, State.over_rest, List.length_append]
  omega

/-- A host does not end in a colon. -/
theorem ends_authorityHost : authorityHost.Ends (· ≠ 0x3A) := by
  have hname : ∀ c, nameChar c = true → c ≠ 0x3A := fun c hc h => absurd (h ▸ hc) (by decide)
  have hend : ∀ c, nameEnd c = true → c ≠ 0x3A := fun c hc h => absurd (h ▸ hc) (by decide)
  have hempty : (Pattern.empty : Pattern CodePoint).Ends (· ≠ 0x3A) := Within.ends trivial
  have hclose : ∀ (s : State CodePoint), ∀ t ∈ (lit (text "]")).run s,
      t.rest.length < s.rest.length := fun s t ht => by
    obtain ⟨rest, hrest, rfl⟩ := mem_run_lit.1 ht
    rw [hrest]
    exact Nat.lt_succ_self _
  have hbracketed : bracketed.Ends (· ≠ 0x3A) := by
    refine ((Within.ends (within_lit_of_all (by decide))).cat_of_ne hclose).cat_of_ne fun s t ht => ?_
    obtain ⟨v, hv, ht⟩ := mem_run_cat.1 ht
    exact Nat.lt_trans (hclose v t ht) (length_lt_of_mem_plus s v hv)
  have hhostName : hostName.Ends (· ≠ 0x3A) := Within.ends (r := hostName) ⟨hend, ⟨hname, hend⟩, trivial⟩
  exact (hbracketed.alt hhostName).cat ((((Within.ends (r := plus (char nameChar)) ⟨hname, hname⟩).cat_of_ne
    length_lt_of_mem_plus).alt hempty).cat ((Within.ends (within_lit_of_all (by decide))).alt hempty))

/-- What follows the host of a rewritten authority. -/
def Terminates (ending rest : Text) : Prop :=
  ending = [] ∧ atEnd [] rest = true ∨ ∃ c, ending = [c] ∧ terminatorChar c = true

/-- An authority that is not at the end of the text has a character after it. -/
theorem Terminates.exists_of_ne {ending w : Text} (h : Terminates ending (w ++ 0x40 :: rest)) :
    ∃ d, ending = [d] ∧ terminatorChar d = true := by
  rcases h with ⟨-, hend⟩ | h
  · rw [atEnd, Bool.or_eq_true, List.isEmpty_iff, decide_eq_true_iff] at hend
    rcases hend with hend | hend
    · exact absurd hend (by simp)
    · have hmem : (0x40 : CodePoint) ∈ [(0x0A : CodePoint)] :=
        hend ▸ List.mem_append_right w List.mem_cons_self
      exact absurd hmem (by decide)
  · exact h

theorem length_lt_of_mem_authority (ht : t ∈ authority.run s) : t.rest.length < s.rest.length := by
  obtain ⟨v, hv, ht⟩ := mem_run_cat.1 ht
  obtain ⟨w, hw⟩ := exists_passes _ v t ht
  exact Nat.lt_of_le_of_lt hw.length_le (length_lt_of_mem_plus s v hv)

theorem terminates_of_found (h : authorityCandidate.find? before (m.text ++ rest) = some m) :
    m.text ≠ [] ∧ Terminates (m.group "terminator") rest := by
  obtain ⟨t, ht, hrest, hm⟩ := exists_of_find? h
  obtain ⟨_, hlook, ht⟩ := mem_run_cat.1 (List.mem_of_mem_head? ht)
  obtain ⟨-, rfl⟩ := mem_run_look.1 hlook
  obtain ⟨_, hauthority, ht⟩ := mem_run_cat.1 ht
  obtain ⟨v, hv, w, hw, rfl⟩ := mem_run_group.1 hauthority
  obtain ⟨v', hv', ending, hending, rfl⟩ := mem_run_group.1 ht
  have hgroup : m.group "terminator" = ending := by rw [hm]; rfl
  obtain rfl : rest = v'.rest := List.append_cancel_left hrest
  have hlt := length_lt_of_mem_authority hv
  refine ⟨fun hnil => ?_, ?_⟩
  · rw [hnil] at hlt
    exact absurd hending.length_le (Nat.not_le_of_lt hlt)
  rw [hgroup]
  rcases mem_run_alt.1 hv' with hslash | hv'
  · obtain ⟨rest, hs, rfl⟩ := mem_run_lit.1 hslash
    exact .inr ⟨0x2F, hending.unique ⟨hs, rfl⟩, by decide⟩
  rcases mem_run_alt.1 hv' with hlook | hchar
  · obtain ⟨hend, rfl⟩ := mem_run_look.1 hlook
    exact .inl ⟨hending.unique (.refl _), hend⟩
  · obtain ⟨c, rest, hs, hc, rfl⟩ := mem_run_char.1 hchar
    refine .inr ⟨c, hending.unique ⟨hs, rfl⟩, ?_⟩
    rw [terminatorChar, Bool.or_assoc, hc, Bool.or_true]

theorem nonempty_authorityCandidate : authorityCandidate.Nonempty := fun before rest m h => by
  obtain ⟨t, -, hrest, -⟩ := exists_of_find? h
  exact (terminates_of_found (hrest ▸ h)).1

/-- What an authority is rewritten to: no `/` is in the mark and the host, which do not end in a
colon. -/
structure Rewritten (new rest host ending : Text) : Prop where
  eq : new = redacted ++ 0x40 :: host ++ ending
  at_not_mem : (0x40 : CodePoint) ∉ host ++ ending
  slash_not_mem : (0x2F : CodePoint) ∉ redacted ++ 0x40 :: host
  colon : ∀ c ∈ (redacted ++ 0x40 :: host).getLast?, c ≠ 0x3A
  terminates : Terminates ending rest

theorem exists_rewritten (h : authorityCandidate.find? before (m.text ++ rest) = some m)
    (hne : m.text ≠ redactSchemelessAuthority u m) :
    ∃ host ending, Rewritten (redactSchemelessAuthority u m) rest host ending := by
  have hterminates := (terminates_of_found h).2
  have heq : redactSchemelessAuthority u m = m.text ∨ ∃ host, authorityHost.fullmatch host = true ∧
      redactSchemelessAuthority u m = redacted ++ text "@" ++ host ++ m.group "terminator" := by
    rw [redactSchemelessAuthority]
    dsimp only
    split
    · exact .inl rfl
    · split
      · exact .inl rfl
      · rename_i hcheck
        refine .inr ⟨_, ?_, rfl⟩
        by_contra hhost
        exact hcheck (by rw [Bool.eq_false_iff.2 hhost]; simp)
  obtain ⟨host, hhost, hnew⟩ := heq.resolve_left hne.symm
  have hchars := within_authorityHost.of_fullmatch hhost
  refine ⟨host, m.group "terminator", by rw [hnew, List.append_assoc redacted]; rfl, ?_, ?_, ?_,
    hterminates⟩
  · refine List.not_mem_append (fun hmem => (hchars _ hmem).1 rfl) fun hmem => ?_
    rcases hterminates with ⟨hnil, -⟩ | ⟨c, hc, hchar⟩
    · rw [hnil] at hmem
      cases hmem
    · rw [hc, List.mem_singleton] at hmem
      exact absurd (hmem ▸ hchar) (by decide)
  · refine List.not_mem_append (by decide) fun hmem => ?_
    rcases List.mem_cons.1 hmem with heq | hmem
    · exact absurd heq (by decide)
    · exact (hchars _ hmem).2 rfl
  · intro c hc
    rcases List.eq_nil_or_concat' host with rfl | ⟨init, d, rfl⟩
    · rw [List.getLast?_concat] at hc
      obtain rfl := Option.some.inj hc
      decide
    · rw [← List.cons_append, ← List.append_assoc, List.getLast?_concat] at hc
      exact ends_authorityHost.of_fullmatch hhost c (by rw [List.getLast?_concat]; exact hc)

/-- A `scheme://` after a rewritten authority is kept whole. -/
theorem exists_kept_scheme {N body w A : Text} {d : CodePoint} (hne : body ≠ [])
    (hslash : (0x2F : CodePoint) ∉ body) (hcolon : ∀ c ∈ body.getLast?, c ≠ 0x3A)
    (hd : terminatorChar d = true) (hscheme : IsScheme scheme)
    (htext : N ++ body ++ [d] ++ w = A ++ scheme ++ userinfo)
    (hlt : N.length < (A ++ scheme).length) : ∃ A', w = A' ++ scheme ++ userinfo := by
  obtain ⟨body, e, rfl⟩ := (List.eq_nil_or_concat' body).resolve_left hne
  have he : e ≠ 0x2F ∧ e ≠ 0x3A :=
    ⟨fun h => hslash (h ▸ List.mem_append_right body (List.mem_singleton_self _)),
      hcolon e List.getLast?_concat⟩
  have core : ∀ a, N ++ (body ++ [e]) ++ [d] ++ a = A ++ scheme → w = a ++ userinfo →
      ∃ A', w = A' ++ scheme ++ userinfo := by
    rintro a ha rfl
    obtain ⟨c, sch, rfl, hc, hsch⟩ := hscheme
    have hnot : d ∉ c :: sch := fun hmem => by
      have hchar : schemeChar d = true := by
        rcases List.mem_cons.1 hmem with rfl | hmem
        · rw [schemeChar, hc]
          rfl
        · exact hsch d hmem
      exact absurd hd (Bool.eq_false_iff.1 (terminatorChar_of_schemeChar hchar))
    have whole : ∀ a', N ++ (body ++ [e]) ++ [d] ++ a' = A ++ c :: sch → a = a' ++ text "://" →
        ∃ A', a ++ userinfo = A' ++ (c :: sch ++ text "://") ++ userinfo := by
      rintro a' ha' rfl
      obtain ⟨A', rfl, -⟩ := exists_of_append_eq ha' fun x hx => by
        obtain rfl := Option.some.inj (List.getLast?_concat.symm.trans hx)
        exact hnot
      exact ⟨A', by rw [List.append_assoc A']⟩
    rw [← List.append_assoc A] at ha
    rcases List.append_eq_append_iff.1 ha with ⟨a', hX, hend⟩ | ⟨b, hP, hend⟩
    · exact whole a' hX.symm hend
    -- the rewritten authority would end within the end of the scheme
    have hslashes : [0x3A, 0x2F, 0x2F] = b ++ a := hend
    rcases b with _ | ⟨x, _ | ⟨y, _ | ⟨z, b⟩⟩⟩
    · exact whole [] (by simpa using hP) hslashes.symm
    · obtain ⟨-, hx⟩ := List.append_inj' hP rfl
      obtain ⟨rfl, -⟩ := List.cons.inj hslashes
      rw [List.singleton_inj.1 hx] at hd
      exact absurd hd (by decide)
    · have hP : N ++ body ++ [e] ++ [d] = A ++ c :: sch ++ [x] ++ [y] := by simpa using hP
      obtain ⟨hP, -⟩ := List.append_inj' hP rfl
      obtain ⟨-, hx⟩ := List.append_inj' hP rfl
      obtain ⟨rfl, -⟩ := List.cons.inj hslashes
      exact absurd (List.singleton_inj.1 hx) he.2
    · simp only [List.cons_append, List.cons.injEq] at hslashes
      obtain ⟨rfl, rfl, rfl, hnil⟩ := hslashes
      rw [(List.append_eq_nil_iff.1 hnil.symm).1] at hP
      have hP : N ++ body ++ [e] ++ [d] = A ++ c :: sch ++ [0x3A] ++ [0x2F] ++ [0x2F] := by
        simpa using hP
      obtain ⟨hP, -⟩ := List.append_inj' hP rfl
      obtain ⟨-, hx⟩ := List.append_inj' hP rfl
      exact absurd (List.singleton_inj.1 hx) he.1
  rcases List.append_eq_append_iff.1 htext with ⟨a, ha, hw⟩ | ⟨b, hb, hw⟩
  · exact core a ha.symm hw
  rcases List.eq_nil_or_concat' b with rfl | ⟨b, x, rfl⟩
  · exact core [] (by simpa using hb) (by simpa using hw.symm)
  · -- the rewritten authority would begin in the scheme and end after it
    rw [← List.append_assoc (A ++ scheme)] at hb
    obtain ⟨hb, -⟩ := List.append_inj' hb rfl
    exfalso
    rcases List.append_eq_append_iff.1 hb with ⟨n, hn, hbody⟩ | ⟨n, rfl, -⟩
    · rcases List.eq_nil_or_concat' n with rfl | ⟨n, x, rfl⟩
      · rw [hn, List.append_nil] at hlt
        exact absurd hlt (Nat.lt_irrefl _)
      · have hx := hscheme.getLast? A
        rw [hn, ← List.append_assoc, List.getLast?_concat] at hx
        obtain rfl := Option.some.inj hx
        exact hslash (hbody ▸ by simp)
    · simp only [List.length_append] at hlt
      omega

variable (u) in
/-- The second pass over a text rewrites an authority, and what it writes begins at a place from
`start` to `stop` of its result. -/
def RewrittenWithin (value : Text) (start stop : ℕ) : Prop := ∃ es₁ old new es₂,
  edits authorityCandidate (redactSchemelessAuthority u) [] (redactUrls value) 0 =
    es₁ ++ .replace old new :: es₂ ∧ old ≠ new ∧ start ≤ (newText es₁).length ∧
      (newText es₁).length < stop

/-- The second pass adds to what is before an `@` only where it rewrites an authority. -/
theorem redactText_credentials {value A B : Text} (h : Credentials scheme userinfo)
    (hx : redactText u value = A ++ scheme ++ userinfo ++ 0x40 :: B) : userinfo = redacted ∨
      RewrittenWithin u value (A ++ scheme).length (A ++ scheme ++ userinfo).length := by
  have hes := nonempty_authorityCandidate.edits (f := redactSchemelessAuthority u) (redactUrls value) []
  have hold := hes.oldText_eq
  rw [redactText, Pattern.sub, ← newText_settle] at hx
  rw [← oldText_settle] at hold
  refine or_iff_not_imp_right.2 fun hnot => ?_
  have changed : ∀ {es₁ old new es₂}, settle (edits authorityCandidate (redactSchemelessAuthority u) []
      (redactUrls value) 0) = es₁ ++ .replace old new :: es₂ →
      (∃ host ending, Rewritten new (oldText es₂) host ending) ∧
        ((newText es₁).length < (A ++ scheme ++ userinfo).length →
          (newText es₁).length < (A ++ scheme).length) := by
    intro es₁ old new es₂ hsplit
    obtain ⟨es₁, es₂, heq, rfl, rfl, hne⟩ := exists_of_settle hsplit
    rw [newText_settle, oldText_settle]
    refine ⟨?_, fun hlt => Nat.lt_of_not_le fun hle => hnot ⟨es₁, old, new, es₂, heq, hne, hle, hlt⟩⟩
    obtain ⟨m, found, rfl, rfl⟩ := Edits.find?_of_replace (heq ▸ hes)
    exact exists_rewritten found hne
  rcases exists_edit hx with ⟨es₁, es₂, hsplit, htext, -⟩ | ⟨es₁, old, n₁, n₂, es₂, hsplit, htext, -⟩
  · -- an `@` that was kept comes after the credentials that the first pass left
    obtain ⟨es₀, w, rfl, hlast⟩ := exists_kept_suffix es₁
    rw [newText_append, newText_map_keep] at htext
    have hw : ∃ A', w = A' ++ scheme ++ userinfo := by
      rcases hlast with rfl | ⟨es₁, old, new, rfl⟩
      · exact ⟨A, htext⟩
      · rw [List.append_assoc, List.append_assoc, List.singleton_append] at hsplit
        obtain ⟨⟨host, ending, hnew⟩, hlt⟩ := changed hsplit
        rw [oldText_append, oldText_map_keep, oldText_keep] at hnew
        rw [newText_append, newText_replace, newText_nil, List.append_nil, hnew.eq] at htext
        obtain ⟨d, rfl, hd⟩ := hnew.terminates.exists_of_ne
        refine exists_kept_scheme (by simp) hnew.slash_not_mem hnew.colon hd h.scheme
          (by simpa using htext) (hlt ?_)
        rw [← htext]
        simp only [List.length_append, List.length_cons, List.length_nil]
        omega
    obtain ⟨A', rfl⟩ := hw
    have heq : redactUrls value = oldText es₀ ++ A' ++ scheme ++ userinfo ++ 0x40 :: oldText es₂ := by
      rw [← hold, hsplit, oldText_append, oldText_append, oldText_map_keep, oldText_keep]
      simp only [List.append_assoc]
    exact redactUrls_credentials h heq
  · -- an `@` of a rewritten authority has the mark before it
    obtain ⟨⟨host, ending, hnew⟩, hlt⟩ := changed hsplit
    have hmark : (0x40 : CodePoint) ∉ redacted := by decide
    obtain ⟨rfl, -, -⟩ := (List.append_cons_inj_of_notMem hmark hnew.at_not_mem).1
      ((List.append_assoc _ (0x40 :: host) _).symm.trans hnew.eq.symm)
    have hlt := hlt (by rw [← htext]; simp [redacted, text])
    rcases List.append_eq_append_iff.1 htext with ⟨n, hn, hmark⟩ | ⟨n, hn, -⟩
    · rcases List.eq_nil_or_concat' n with rfl | ⟨n, x, rfl⟩
      · exact hmark.symm
      · have hx := h.scheme.getLast? A
        rw [hn, ← List.append_assoc, List.getLast?_concat] at hx
        obtain rfl := Option.some.inj hx
        exact absurd (hmark ▸ by simp : (0x2F : CodePoint) ∈ redacted) (by decide)
    · simp only [hn, List.length_append] at hlt
      omega

/-! ### What is kept of the arguments -/

variable {sha256 : List UInt8 → List UInt8} {limit : ℕ} {x : Text}

/-- A string of a redacted value: a text that depends on no string, or a string of the value itself
after `_redact_text`, cut off or not. -/
inductive Kept (u : Unicode) (strings : List Text) : Text → Prop
  | fixed {x : Text} (at_not_mem : (0x40 : CodePoint) ∉ x) : Kept u strings x
  | bounded {value : Text} (mem : value ∈ strings) (limit : ℕ) :
      Kept u strings (boundedText (redactText u value) limit)

theorem Kept.mono {strings strings' : List Text} (h : Kept u strings x)
    (hsubset : ∀ s ∈ strings, s ∈ strings') : Kept u strings' x := by
  cases h with
  | fixed at_not_mem => exact .fixed at_not_mem
  | bounded mem limit => exact .bounded (hsubset _ mem) limit

theorem at_not_mem_hexdigest (digest : List UInt8) : (0x40 : CodePoint) ∉ hexdigest digest := by
  have hdigit : ∀ n : ℕ, n < 16 → Json.hexDigit n ≠ 0x40 := by decide
  intro hmem
  obtain ⟨b, -, hb⟩ := List.mem_flatMap.1 hmem
  have hlt := b.toNat_lt
  rcases List.mem_cons.1 hb with hb | hb
  · exact hdigit _ (by omega) hb.symm
  · exact hdigit _ (by omega) (List.mem_singleton.1 hb).symm

theorem kept_of_redactString {path : List Text} {value : Text} {result : Json} {truncated : Bool}
    (h : redactString u sha256 limit path value = some (result, truncated))
    (hx : x ∈ result.strings) : Kept u [value] x := by
  have hvalue := List.mem_singleton_self value
  rw [redactString] at h
  split at h
  · obtain ⟨bytes, -, h⟩ := Option.bind_eq_some_iff.1 h
    cases h
    obtain rfl : x = hexdigest (sha256 bytes) := by
      simpa [Json.strings, Json.entriesStrings] using hx
    exact .fixed (at_not_mem_hexdigest _)
  · dsimp only at h
    split at h
    · rename_i hlt
      cases h
      rw [List.mem_singleton.1 hx]
      have hbounded := Kept.bounded (u := u) hvalue limit
      rwa [boundedText, if_neg (Nat.not_le_of_lt hlt)] at hbounded
    · rename_i hle
      cases h
      rw [List.mem_singleton.1 hx]
      have hbounded := Kept.bounded (u := u) hvalue limit
      rwa [boundedText, if_pos (Nat.le_of_not_lt hle)] at hbounded

mutual

theorem kept_of_redact (value : Json) {key : Option Text} {path : List Text} {result : Json}
    {truncated : Bool} (h : redact u sha256 limit key path value = some (result, truncated))
    (hx : x ∈ result.strings) : Kept u value.strings x := by
  by_cases hkey : key.any (sensitiveKey u) = true
  · rw [redact_of_sensitive limit hkey] at h
    cases h
    rw [List.mem_singleton.1 hx]
    exact .fixed (by decide)
  cases value with
  | dict entries =>
    rw [redact, if_neg hkey] at h
    obtain ⟨⟨entries', _⟩, hentries, h⟩ := Option.bind_eq_some_iff.1 h
    cases h
    exact kept_of_redactEntries entries hentries hx
  | list items =>
    rw [redact, if_neg hkey] at h
    obtain ⟨⟨items', _⟩, hitems, h⟩ := Option.bind_eq_some_iff.1 h
    cases h
    exact kept_of_redactItems items hitems hx
  | str value =>
    rw [redact, if_neg hkey] at h
    exact kept_of_redactString h hx
  | other s =>
    rw [redact, if_neg hkey] at h
    cases h
    rw [List.mem_singleton.1 hx]
    exact .fixed (by decide)
  | null | bool _ | int _ | float _ =>
    rw [redact, if_neg hkey] at h
    · cases h
      cases hx
    all_goals (intros; contradiction)

theorem kept_of_redactItems (items : List Json) {path : List Text} {result : List Json}
    {truncated : Bool} (h : redactItems u sha256 limit path items = some (result, truncated))
    (hx : x ∈ Json.itemsStrings result) : Kept u (Json.itemsStrings items) x := by
  cases items with
  | nil =>
    cases h
    cases hx
  | cons value items =>
    obtain ⟨⟨value', _⟩, hvalue, h⟩ := Option.bind_eq_some_iff.1 h
    obtain ⟨⟨items', _⟩, hitems, h⟩ := Option.bind_eq_some_iff.1 h
    cases h
    rcases List.mem_append.1 hx with hx | hx
    · exact (kept_of_redact value hvalue hx).mono fun s => List.mem_append_left _
    · exact (kept_of_redactItems items hitems hx).mono fun s => List.mem_append_right _

theorem kept_of_redactEntries (entries : List (Text × Json)) {path : List Text}
    {result : List (Text × Json)} {truncated : Bool}
    (h : redactEntries u sha256 limit path entries = some (result, truncated))
    (hx : x ∈ Json.entriesStrings result) : Kept u (Json.entriesStrings entries) x := by
  cases entries with
  | nil =>
    cases h
    cases hx
  | cons entry entries =>
    obtain ⟨key, value⟩ := entry
    obtain ⟨⟨value', _⟩, hvalue, h⟩ := Option.bind_eq_some_iff.1 h
    obtain ⟨⟨entries', _⟩, hentries, h⟩ := Option.bind_eq_some_iff.1 h
    cases h
    rcases List.mem_append.1 hx with hx | hx
    · exact (kept_of_redact value hvalue hx).mono fun s => List.mem_append_left _
    · exact (kept_of_redactEntries entries hentries hx).mono fun s => List.mem_append_right _

end

theorem strings_of_get {d : Dict} {key s : Text} (h : d.get key = some (.str s)) :
    s ∈ Json.entriesStrings d := by
  induction d with
  | nil => cases h
  | cons entry d ih =>
    obtain ⟨key', value⟩ := entry
    rw [Dict.get, List.lookup_cons] at h
    split at h
    · cases h
      exact List.mem_append_left _ (List.mem_singleton_self s)
    · exact List.mem_append_right _ (ih h)

theorem mem_entriesStrings {entries : Dict} : x ∈ Json.entriesStrings entries ↔
    ∃ key value, (key, value) ∈ entries ∧ x ∈ value.strings := by
  induction entries with
  | nil => simp [Json.entriesStrings]
  | cons entry entries ih =>
    obtain ⟨key, value⟩ := entry
    rw [Json.entriesStrings, List.mem_append, ih]
    constructor
    · rintro (hx | ⟨key', value', hmem, hx⟩)
      · exact ⟨key, value, List.mem_cons_self, hx⟩
      · exact ⟨key', value', List.mem_cons_of_mem _ hmem, hx⟩
    · rintro ⟨key', value', hmem, hx⟩
      rcases List.mem_cons.1 hmem with heq | hmem
      · cases heq
        exact .inl hx
      · exact .inr ⟨key', value', hmem, hx⟩

theorem kept_of_extractTarget {arguments : Dict}
    (hx : x ∈ Json.entriesStrings (extractTarget u arguments)) :
    Kept u (Json.entriesStrings arguments) x := by
  obtain ⟨key, value, hmem, hx⟩ := mem_entriesStrings.1 hx
  obtain ⟨field, -, hfield⟩ := List.mem_filterMap.1 hmem
  split at hfield
  · rename_i s hget
    cases hfield
    rw [List.mem_singleton.1 hx]
    exact .bounded (strings_of_get hget) _
  · cases hfield
    cases hx
  · cases hfield

/-- Credentials in a kept string are the mark, or the second pass rewrote an authority within them. -/
theorem Kept.credentials {strings : List Text} {A B : Text} (hx : Kept u strings x)
    (h : Credentials scheme userinfo) (heq : x = A ++ scheme ++ userinfo ++ 0x40 :: B) :
    userinfo = redacted ∨ ∃ value ∈ strings, (∃ n, x = boundedText (redactText u value) n) ∧
      RewrittenWithin u value (A ++ scheme).length (A ++ scheme ++ userinfo).length := by
  cases hx with
  | fixed at_not_mem => exact absurd (heq ▸ by simp) at_not_mem
  | @bounded value mem limit =>
    have hprefix : ∃ B', redactText u value = A ++ scheme ++ userinfo ++ 0x40 :: B' := by
      have htruncation : (0x40 : CodePoint) ∉ truncation := by decide
      rw [boundedText] at heq
      split at heq
      · exact ⟨B, heq⟩
      rcases List.append_eq_append_iff.1 heq with ⟨a, -, ha⟩ | ⟨_ | ⟨c, b⟩, htake, hb⟩
      · exact absurd (ha ▸ List.mem_append_right a List.mem_cons_self) htruncation
      · have hb : 0x40 :: B = truncation := hb
        exact absurd (hb ▸ List.mem_cons_self) htruncation
      · obtain ⟨rfl, -⟩ := List.cons.inj hb
        refine ⟨b ++ (redactText u value).drop limit, ?_⟩
        rw [← List.cons_append, ← List.append_assoc, ← htake, List.take_append_drop]
    obtain ⟨B', hB'⟩ := hprefix
    exact (redactText_credentials h hB').imp_right fun hwithin => ⟨value, mem, ⟨limit, rfl⟩, hwithin⟩

variable (u sha256 limit) in
/-- The text is a string of the redacted arguments or of the target. -/
def Recorded (arguments : Dict) (x : Text) : Prop :=
  (∃ result, redactArguments u sha256 limit arguments = some result ∧
    x ∈ Json.entriesStrings result.value) ∨ x ∈ Json.entriesStrings (extractTarget u arguments)

theorem kept_of_recorded {arguments : Dict} (hx : Recorded u sha256 limit arguments x) :
    Kept u (Json.entriesStrings arguments) x := by
  rcases hx with ⟨result, hresult, hx⟩ | hx
  · obtain ⟨⟨entries, truncated⟩, hentries, h⟩ := Option.bind_eq_some_iff.1 hresult
    cases h
    exact kept_of_redactEntries arguments hentries hx
  · exact kept_of_extractTarget hx

/-- What is recorded has nothing but the mark between a `scheme://` and an `@` after it, unless the
second pass wrote a rewritten authority there. -/
theorem userinfo_eq_redacted_or_rewritten {arguments : Dict} {A B : Text}
    (hx : Recorded u sha256 limit arguments x) (h : Credentials scheme userinfo)
    (heq : x = A ++ scheme ++ userinfo ++ 0x40 :: B) :
    userinfo = redacted ∨ ∃ value ∈ Json.entriesStrings arguments,
      (∃ n, x = boundedText (redactText u value) n) ∧
        RewrittenWithin u value (A ++ scheme).length (A ++ scheme ++ userinfo).length :=
  (kept_of_recorded hx).credentials h heq

theorem credentials_http {userinfo : Text} (hne : userinfo ≠ [])
    (hchars : userinfo.all credentialChar = true) : Credentials (text "http://") userinfo where
  scheme := ⟨0x68, text "ttp", rfl, by decide, fun d hd =>
    List.all_eq_true.1 (by decide : (text "ttp").all schemeChar = true) d hd⟩
  ne := hne
  chars := List.all_eq_true.1 hchars

/-- A body that is short and holds no key. -/
theorem recorded_body {s x : Text} (hlimit : x.length ≤ limit) (h : redactText .ascii s = x) :
    Recorded .ascii sha256 limit [(text "body", .str s)] x := by
  have hkey : (some (text "body")).any (sensitiveKey .ascii) = false := by decide +kernel
  have hpath : ([] ++ [text "body"] : List Text) ≠ contentPath := by decide
  refine .inl ⟨⟨[(text "body", .str x)], false⟩, ?_, List.mem_append_left _ (List.mem_singleton_self x)⟩
  rw [redactArguments, redactEntries, redact, hkey, redactString, if_neg hpath, h]
  dsimp only
  rw [if_neg (Nat.not_lt_of_le hlimit)]
  rfl

theorem userinfo_eq_redacted_or_rewritten_sample :
    text "[REDACTED]" = redacted ∨
      ∃ value ∈ Json.entriesStrings [(text "body", .str (text "http://a:b@c"))],
        (∃ n, text "http://[REDACTED]@c" = boundedText (redactText .ascii value) n) ∧
          RewrittenWithin .ascii value ([] ++ text "http://").length
            ([] ++ text "http://" ++ text "[REDACTED]").length :=
  have hx : Recorded .ascii (fun _ => []) 4096 [(text "body", .str (text "http://a:b@c"))]
      (text "http://[REDACTED]@c") := recorded_body (by decide) (by decide +kernel)
  userinfo_eq_redacted_or_rewritten (A := []) (B := text "c") hx
    (credentials_http (by decide) (by decide)) (by decide)

/-- A rewritten authority after a bracket: what is before the `@` is more than the mark. -/
theorem userinfo_ne_redacted :
    Recorded .ascii (fun _ => []) 4096 [(text "body", .str (text "http://(user:a/b@host"))]
        (text "http://" ++ text "([REDACTED]" ++ 0x40 :: text "host") ∧
      Credentials (text "http://") (text "([REDACTED]") ∧ 0x40 ∉ text "host" ∧
      text "([REDACTED]" ≠ redacted :=
  ⟨recorded_body (by decide) (by decide +kernel), credentials_http (by decide) (by decide), by decide,
    by decide⟩

end ForgejoMcp.Audit
