import ForgejoMcp.Python.UrlSplit

/-!
# URLs in lower case

A network location keeps its parts in lower case: the same addresses are read from it, and the same
port.
-/

namespace Python

/-! ### Addresses -/

theorem CodePoint.digit?_asciiLower (c : CodePoint) : c.asciiLower.digit? = c.digit? := by
  have hval := c.val_asciiLower
  rw [digit?, digit?]
  split_ifs at hval ⊢ <;> first | omega | (congr 1; omega) | rfl

/-- A text with its ASCII letters in lower case. -/
def Text.asciiLower (s : Text) : Text := s.map CodePoint.asciiLower

theorem number_asciiLower (base : ℕ) (s : Text) : s.asciiLower.number base = s.number base := by
  rw [Text.number, Text.number, Text.asciiLower, List.isEmpty_map, List.foldlM_map]
  simp only [CodePoint.digit?_asciiLower]

theorem length_asciiLower (s : Text) : s.asciiLower.length = s.length := List.length_map _

theorem parseHextet_asciiLower (s : Text) : parseHextet s.asciiLower = parseHextet s := by
  rw [parseHextet, parseHextet, number_asciiLower, length_asciiLower]

theorem split_asciiLower {c : CodePoint} (hc : c.letter = false) (s : Text) :
    s.asciiLower.split c = (s.split c).map Text.asciiLower := by
  induction s with
  | nil => rfl
  | cons d s ih =>
    have hcons : Text.asciiLower (d :: s) = d.asciiLower :: Text.asciiLower s := rfl
    obtain ⟨first, items, hs⟩ := Text.exists_split s c
    rw [hcons]
    by_cases hd : c = d.asciiLower
    · have hd' := (CodePoint.eq_asciiLower_iff hc).1 hd
      rw [← hd, ← hd', Text.split_cons_self, Text.split_cons_self, ih]
      rfl
    · have hd' : c ≠ d := mt (CodePoint.eq_asciiLower_iff hc).2 hd
      rw [Text.split_cons_of_ne (Ne.symm hd), Text.split_cons_of_ne hd'.symm, ih, hs]
      rfl

theorem asciiLower_eq_singleton_iff {c : CodePoint} (hc : c.letter = false) {s : Text} :
    s.asciiLower = [c] ↔ s = [c] := by
  rw [Text.asciiLower, List.map_eq_singleton_iff]
  constructor
  · rintro ⟨d, rfl, hd⟩
    rw [(CodePoint.eq_asciiLower_iff hc).1 hd.symm]
  · rintro rfl
    exact ⟨c, rfl, CodePoint.asciiLower_eq_self hc⟩

theorem parseOctet_asciiLower (s : Text) : parseOctet s.asciiLower = parseOctet s := by
  have hhead : s.asciiLower.head? = some 0x30 ↔ s.head? = some 0x30 := by
    cases s with
    | nil => exact Iff.rfl
    | cons c s =>
      have hc := CodePoint.eq_asciiLower_iff (c := 0x30) (d := c) (by decide)
      rw [Text.asciiLower, List.map_cons, List.head?_cons, List.head?_cons, Option.some.injEq,
        Option.some.injEq, eq_comm, hc, eq_comm]
  have hzero : s.asciiLower = text "0" ↔ s = text "0" := asciiLower_eq_singleton_iff (by decide)
  rw [parseOctet, parseOctet, number_asciiLower]
  simp only [ne_eq, hzero, hhead, length_asciiLower]

theorem ipv4Address_asciiLower (s : Text) : ipv4Address s.asciiLower = ipv4Address s := by
  rw [ipv4Address, ipv4Address, split_asciiLower (by decide), List.length_map, List.mapM_map]
  simp only [Function.comp_def, parseOctet_asciiLower]

theorem asciiLower_digitChar : ∀ d < 16, CodePoint.asciiLower (Fin.ofNat _ (Nat.digitChar d).toNat) =
    Fin.ofNat _ (Nat.digitChar d).toNat := by
  decide

theorem asciiLower_hex (n : ℕ) : (hex n).asciiLower = hex n := by
  have hfixed : ∀ c ∈ hex n, c.asciiLower = c := by
    intro c hc
    have hc : c ∈ numeral 16 n := hc
    obtain ⟨d, hd, rfl⟩ := mem_numeral (by omega) hc
    exact asciiLower_digitChar d hd
  rw [Text.asciiLower, List.map_congr_left hfixed, List.map_id']

theorem mem_asciiLower {c : CodePoint} (hc : c.letter = false) {s : Text} :
    c ∈ s.asciiLower ↔ c ∈ s := by
  rw [Text.asciiLower, List.mem_map]
  constructor
  · rintro ⟨d, hd, heq⟩
    rwa [(CodePoint.eq_asciiLower_iff hc).1 heq.symm]
  · intro h
    exact ⟨c, h, CodePoint.asciiLower_eq_self hc⟩

theorem withIpv4Suffix_asciiLower (parts : List Text) :
    withIpv4Suffix (parts.map Text.asciiLower) =
      (withIpv4Suffix parts).map (·.map Text.asciiLower) := by
  have hlast : (parts.map Text.asciiLower).getLastD [] = (parts.getLastD []).asciiLower :=
    List.getLastD_map (f := Text.asciiLower) (a := [])
  rw [withIpv4Suffix, withIpv4Suffix, hlast, ipv4Address_asciiLower]
  simp only [mem_asciiLower (c := 0x2E) (by decide)]
  split
  · cases ipv4Address (parts.getLastD []) with
    | none => rfl
    | some n =>
      simp [← List.map_dropLast, asciiLower_hex]
  · rfl

/-- What `_ip_int_from_string` reads of the parts. -/
def readParts (parts : List Text) : Option ℕ :=
  if 9 < parts.length then none
  else match skips parts with
    | [] => if parts.length ≠ 8 then none else (parts.mapM parseHextet).map (ofDigits 0x10000)
    | [i] =>
      (sideOfSkip (parts.take i) parts.head?).bind fun hi =>
        (sideOfSkip (parts.drop (i + 1)) parts.getLast?).bind fun lo =>
          if 8 ≤ hi.length + lo.length then none
          else
            ((hi ++ List.replicate (8 - (hi.length + lo.length)) (text "0") ++ lo).mapM
              parseHextet).map (ofDigits 0x10000)
    | _ => none

theorem ipv6Int_eq (s : Text) : ipv6Int s =
    if (s.split 0x3A).length < 3 then none else (withIpv4Suffix (s.split 0x3A)).bind readParts := by
  rw [ipv6Int]
  rfl

theorem asciiLower_eq_nil_iff {s : Text} : s.asciiLower = [] ↔ s = [] := List.map_eq_nil_iff

theorem skips_asciiLower (parts : List Text) : skips (parts.map Text.asciiLower) = skips parts := by
  rw [skips, skips, List.length_map]
  refine List.filter_congr fun i _ => ?_
  have hget : (parts.map Text.asciiLower).getD i [] = [] ↔ parts.getD i [] = [] := by
    have hmap : (parts.map Text.asciiLower).getD i [] = (parts.getD i []).asciiLower :=
      List.getD_map parts [] Text.asciiLower
    rw [hmap, asciiLower_eq_nil_iff]
  simp only [hget]

theorem sideOfSkip_asciiLower (parts : List Text) (endpoint : Option Text) :
    sideOfSkip (parts.map Text.asciiLower) (endpoint.map Text.asciiLower) =
      (sideOfSkip parts endpoint).map (·.map Text.asciiLower) := by
  have hempty : endpoint.map Text.asciiLower = some [] ↔ endpoint = some [] := by
    cases endpoint with
    | none => simp
    | some s => simp [asciiLower_eq_nil_iff]
  rw [sideOfSkip, sideOfSkip, List.length_map]
  simp only [hempty]
  split_ifs <;> rfl

theorem mapM_parseHextet_asciiLower (parts : List Text) :
    (parts.map Text.asciiLower).mapM parseHextet = parts.mapM parseHextet := by
  rw [List.mapM_map]
  simp only [Function.comp_def, parseHextet_asciiLower]

theorem readParts_asciiLower (parts : List Text) :
    readParts (parts.map Text.asciiLower) = readParts parts := by
  have hpadded (hi lo : List Text) (k : ℕ) :
      (hi.map Text.asciiLower ++ List.replicate k (text "0") ++ lo.map Text.asciiLower).mapM
        parseHextet = (hi ++ List.replicate k (text "0") ++ lo).mapM parseHextet := by
    have hzero : (text "0").asciiLower = text "0" := by decide
    rw [← mapM_parseHextet_asciiLower (hi ++ _ ++ lo), List.map_append, List.map_append,
      List.map_replicate, hzero]
  rw [readParts, readParts, skips_asciiLower, List.length_map]
  simp only [mapM_parseHextet_asciiLower, ← List.map_take, ← List.map_drop, List.head?_map,
    List.getLast?_map, sideOfSkip_asciiLower, Option.bind_map, Function.comp_def, List.length_map,
    hpadded]

theorem ipv6Int_asciiLower (s : Text) : ipv6Int s.asciiLower = ipv6Int s := by
  rw [ipv6Int_eq, ipv6Int_eq, split_asciiLower (by decide), List.length_map,
    withIpv4Suffix_asciiLower, Option.bind_map]
  simp only [Function.comp_def, readParts_asciiLower]

/-! ### The characters of an address -/

theorem CodePoint.isascii_of_digit? {c : CodePoint} (h : c.digit? ≠ none) : c.isascii = true := by
  rw [digit?] at h
  refine decide_eq_true ?_
  split_ifs at h
  · omega
  · omega
  · omega
  · exact (h rfl).elim

/-- A side of a `::` is read as it is, or it is the empty part at an end. -/
theorem mem_sideOfSkip {parts side : List Text} {endpoint : Option Text} {s : Text}
    (h : sideOfSkip parts endpoint = some side) (hs : s ∈ parts) :
    s ∈ side ∨ endpoint = some [] ∧ parts.length = 1 := by
  rw [sideOfSkip] at h
  split at h
  · split at h
    · exact .inr ⟨‹_›, ‹_›⟩
    · cases h
  · cases h
    exact .inl hs

theorem isSome_of_mapM {hextets : List Text} {digits : List ℕ}
    (h : hextets.mapM parseHextet = some digits) {s : Text} (hs : s ∈ hextets) :
    ∃ n, parseHextet s = some n := by
  obtain ⟨i, hi, rfl⟩ := List.getElem_of_mem hs
  have hread := forall₂_of_mapM h
  exact ⟨_, hread.get hi (by rwa [← hread.length_eq])⟩

/-- Every part that is read is empty or a number. -/
theorem readParts_parts {parts : List Text} {n : ℕ} (h : readParts parts = some n) :
    ∀ s ∈ parts, s = [] ∨ ∃ m, parseHextet s = some m := by
  intro s hs
  rw [readParts] at h
  split at h
  · cases h
  · split at h
    · split at h
      · cases h
      · obtain ⟨digits, hdigits, _⟩ := Option.map_eq_some_iff.1 h
        exact .inr (isSome_of_mapM hdigits hs)
    · rename_i i hskips
      obtain ⟨hi, hhi, h⟩ := Option.bind_eq_some_iff.1 h
      obtain ⟨lo, hlo, h⟩ := Option.bind_eq_some_iff.1 h
      split at h
      · cases h
      · obtain ⟨digits, hdigits, _⟩ := Option.map_eq_some_iff.1 h
        have hskip : i ∈ skips parts := by rw [hskips]; exact List.mem_singleton_self i
        obtain ⟨hrange, hempty⟩ := List.mem_filter.1 hskip
        obtain ⟨hpos, hlast, hempty⟩ := of_decide_eq_true hempty
        have hlt : i < parts.length := by omega
        have hcut : parts = parts.take i ++ parts[i] :: parts.drop (i + 1) := by
          rw [List.getElem_cons_drop, List.take_append_drop]
        rw [hcut] at hs
        rcases List.mem_append.1 hs with hs | hs
        · rcases mem_sideOfSkip hhi hs with hs | ⟨hhead, hone⟩
          · exact .inr (isSome_of_mapM hdigits (by simp [hs]))
          · obtain ⟨t, ht⟩ := List.length_eq_one_iff.1 hone
            rw [ht, List.mem_singleton] at hs
            have hfirst : (parts.take i).head? = parts.head? := by
              rw [List.head?_take, if_neg (by omega)]
            rw [ht, hhead, List.head?_cons] at hfirst
            exact .inl (hs.trans (Option.some.inj hfirst))
        · rcases List.mem_cons.1 hs with rfl | hs
          · left
            rwa [List.getD_eq_getElem _ _ hlt] at hempty
          · rcases mem_sideOfSkip hlo hs with hs | ⟨hlast', hone⟩
            · exact .inr (isSome_of_mapM hdigits (by simp [hs]))
            · obtain ⟨t, ht⟩ := List.length_eq_one_iff.1 hone
              rw [ht, List.mem_singleton] at hs
              have hend : (parts.drop (i + 1)).getLast? = parts.getLast? := by
                rw [List.getLast?_drop, if_neg (by omega)]
              rw [ht, hlast', List.getLast?_singleton] at hend
              exact .inl (hs.trans (Option.some.inj hend))
    · cases h

/-- What an IPv6 address without its scope is written with. -/
theorem ipv6Int_chars {s : Text} {n : ℕ} (h : ipv6Int s = some n) :
    ∀ c ∈ s, c = 0x3A ∨ c = 0x2E ∨ c.digit? ≠ none := by
  intro c hc
  rw [ipv6Int_eq] at h
  split at h
  · cases h
  · obtain ⟨parts, hparts, hread⟩ := Option.bind_eq_some_iff.1 h
    have hhextet {part : Text} (hpart : part ∈ parts) (hmem : c ∈ part) : c.digit? ≠ none := by
      rcases readParts_parts hread part hpart with rfl | ⟨m, hm⟩
      · exact (List.not_mem_nil hmem).elim
      · rw [parseHextet] at hm
        split at hm
        · cases hm
        · exact digit?_of_mem_number hm c hmem
    have hjoin : Text.join [0x3A] (s.split 0x3A) = s := by
      rw [Text.join_eq_intercalate]
      exact List.intercalate_splitOn _
    rw [← hjoin] at hc
    rcases Text.mem_join hc with hc | ⟨part, hpart, hmem⟩
    · exact .inl (List.mem_singleton.1 hc)
    · rw [withIpv4Suffix] at hparts
      split at hparts
      · obtain ⟨m, hm, hparts⟩ := Option.bind_eq_some_iff.1 hparts
        cases hparts
        rcases List.eq_nil_or_concat' (s.split 0x3A) with hnil | ⟨init, last, heq⟩
        · rw [hnil] at hpart
          exact (List.not_mem_nil hpart).elim
        · rw [heq] at hpart hm hhextet
          rw [List.getLastD_concat] at hm
          rcases List.mem_append.1 hpart with hpart | hpart
          · refine .inr (.inr (hhextet (List.mem_append_left _ ?_) hmem))
            rwa [List.dropLast_concat]
          · rw [List.mem_singleton.1 hpart] at hmem
            exact .inr (ipv4Address_chars hm c hmem)
      · cases hparts
        exact .inr (.inr (hhextet hpart hmem))

theorem ipv6Int_isascii {s : Text} {n : ℕ} (h : ipv6Int s = some n) :
    ∀ c ∈ s, c.isascii = true := by
  intro c hc
  rcases ipv6Int_chars h c hc with rfl | rfl | hdigit
  · decide
  · decide
  · exact CodePoint.isascii_of_digit? hdigit

/-! ### Parts in lower case -/

namespace Lowers

variable {s t : Text} {c : CodePoint}

/-- The lower case of a text cut at a separator. -/
theorem cut {s₁ s₂ : Text} (hc : c.isascii = true) (hletter : c.letter = false)
    (h : Lowers (s₁ ++ c :: s₂) t) : ∃ t₁ t₂, t = t₁ ++ c :: t₂ ∧ Lowers s₁ t₁ ∧ Lowers s₂ t₂ := by
  obtain ⟨t₁, t₂, rfl, h₁, h₂⟩ := h.split
  cases h₂ with
  | ascii _ h₂ => exact ⟨t₁, _, by rw [CodePoint.asciiLower_eq_self hletter], h₁, h₂⟩
  | other hother =>
    rw [hc] at hother
    cases hother

theorem partition (hc : c.isascii = true) (hletter : c.letter = false) (h : Lowers s t) :
    Lowers (s.partition c).1 (t.partition c).1 ∧ (s.partition c).2.1 = (t.partition c).2.1 ∧
      Lowers (s.partition c).2.2 (t.partition c).2.2 := by
  rcases Text.partition_cases s c with ⟨hmem, hpart⟩ | ⟨s₁, s₂, hmem, rfl, hpart⟩
  · rw [hpart, Text.partition_of_not_mem (mt (h.mem_iff hc hletter).1 hmem)]
    exact ⟨h, rfl, .nil⟩
  · obtain ⟨t₁, t₂, rfl, h₁, h₂⟩ := h.cut hc hletter
    rw [hpart, Text.partition_append_cons (mt (h₁.mem_iff hc hletter).1 hmem)]
    exact ⟨h₁, rfl, h₂⟩

theorem rpartition (hc : c.isascii = true) (hletter : c.letter = false) (h : Lowers s t) :
    Lowers (s.rpartition c).1 (t.rpartition c).1 ∧ (s.rpartition c).2.1 = (t.rpartition c).2.1 ∧
      Lowers (s.rpartition c).2.2 (t.rpartition c).2.2 := by
  rcases Text.rpartition_cases s c with ⟨hmem, hpart⟩ | ⟨s₁, s₂, hmem, rfl, hpart⟩
  · rw [hpart, Text.rpartition_of_not_mem (mt (h.mem_iff hc hletter).1 hmem)]
    exact ⟨.nil, rfl, h⟩
  · obtain ⟨t₁, t₂, rfl, h₁, h₂⟩ := h.cut hc hletter
    rw [hpart, Text.rpartition_append_cons (mt (h₂.mem_iff hc hletter).1 hmem)]
    exact ⟨h₁, rfl, h₂⟩

end Lowers

/-- The address of a host in lower case. -/
theorem ipv6Address_lowers {s t : Text} {n : ℕ} (h : Lowers s t) (hs : ipv6Address s = some n) :
    ipv6Address t = some n := by
  obtain ⟨haddress, hpercent, hscope⟩ := h.partition (c := 0x25) (by decide) (by decide)
  rw [ipv6Address] at hs ⊢
  dsimp only at hs ⊢
  split at hs
  · cases hs
  · rename_i hok
    have htext := haddress.eq_map (ipv6Int_isascii hs)
    rw [← hpercent, if_neg, htext]
    · exact (ipv6Int_asciiLower _).trans hs
    · rw [h.mem_iff (by decide) (by decide), hscope.eq_nil_iff,
        hscope.mem_iff (by decide) (by decide)]
      exact hok

/-- An address of a version to come. -/
theorem ipFuture_iff {s : Text} : ipFuture s = true ↔
    ∃ digits rest, s = 0x76 :: (digits ++ 0x2E :: rest) ∧ digits ≠ [] ∧
      (∀ c ∈ digits, c.digit?.isSome = true) ∧ rest ≠ [] ∧ (0x0A : CodePoint) ∉ rest := by
  constructor
  · intro h
    unfold ipFuture at h
    split at h
    · rename_i s
      obtain ⟨rest, hcut⟩ := List.takeWhile_prefix (fun c : CodePoint => c.digit?.isSome) (l := s)
      have hdigits : ∀ c ∈ s.takeWhile (fun c => c.digit?.isSome), c.digit?.isSome = true := by
        intro c hc
        have h := List.mem_takeWhile_imp hc
        exact h
      generalize s.takeWhile (fun c => c.digit?.isSome) = digits at *
      subst hcut
      simp only [List.drop_left, Bool.and_eq_true, Bool.not_eq_true', beq_iff_eq, decide_eq_true_eq,
        ← Bool.not_eq_true, List.isEmpty_iff, List.contains_iff_mem] at h
      obtain ⟨⟨⟨hne, hdot⟩, hlength⟩, hline⟩ := h
      match rest, hdot, hlength, hline with
      | dot :: rest, hdot, hlength, hline =>
        obtain rfl := Option.some.inj hdot
        refine ⟨digits, rest, rfl, hne, hdigits, List.ne_nil_of_length_pos ?_, ?_⟩
        · rw [List.length_cons] at hlength
          omega
        · exact fun hmem => hline (List.mem_cons_of_mem _ hmem)
    · cases h
  · rintro ⟨digits, rest, rfl, hne, hdigits, hrest, hline⟩
    have htake : (digits ++ 0x2E :: rest).takeWhile (·.digit?.isSome) = digits := by
      rw [List.takeWhile_append_of_pos hdigits, List.takeWhile_cons_of_neg (by decide),
        List.append_nil]
    have hlength : 0 < rest.length := List.length_pos_iff.2 hrest
    rw [ipFuture]
    simp only [htake, List.drop_left, List.head?_cons, List.length_cons, List.contains_cons]
    simp [hne, hline]
    omega

theorem ipFuture_lowers {s t : Text} (h : Lowers s t) (hs : ipFuture s = true) :
    ipFuture t = true := by
  obtain ⟨digits, rest, rfl, hne, hdigits, hrest, hline⟩ := ipFuture_iff.1 hs
  cases h with
  | other hother => cases hother
  | ascii _ h =>
    obtain ⟨t₁, t₂, rfl, h₁, h₂⟩ := h.cut (by decide) (by decide)
    have hmap := h₁.eq_map fun c hc =>
      CodePoint.isascii_of_digit? (Option.isSome_iff_ne_none.1 (hdigits c hc))
    refine ipFuture_iff.2 ⟨t₁, t₂, rfl, mt h₁.eq_nil_iff.1 hne, fun c hc => ?_,
      mt h₂.eq_nil_iff.1 hrest, mt (h₂.mem_iff (by decide) (by decide)).1 hline⟩
    rw [hmap] at hc
    obtain ⟨d, hd, rfl⟩ := List.mem_map.1 hc
    rw [CodePoint.digit?_asciiLower]
    exact hdigits d hd

/-- An IPv6 address does not begin with a `v` in either case. -/
theorem head?_of_ipv6Address {s t : Text} {n : ℕ} (h : Lowers s t) (hs : ipv6Address s = some n) :
    t.head? ≠ some 0x76 := by
  intro hv
  rw [ipv6Address] at hs
  dsimp only at hs
  split at hs
  · cases hs
  · cases haddress : (s.partition 0x25).1 with
    | nil =>
      rw [haddress] at hs
      cases hs
    | cons c address =>
      have hc : c ∈ (s.partition 0x25).1 := by rw [haddress]; exact List.mem_cons_self
      have hfirst : s.head? = some c := by
        rcases Text.partition_cases s 0x25 with ⟨_, hpart⟩ | ⟨head, tail, _, heq, hpart⟩
        · rw [hpart] at haddress
          exact congrArg List.head? haddress
        · rw [hpart] at haddress
          have hhead : head = c :: address := haddress
          rw [heq, hhead]
          rfl
      have hlower := h.head?_ascii hfirst (ipv6Int_isascii hs c hc)
      rw [hv, Option.some.injEq] at hlower
      have hdigit := c.digit?_asciiLower
      rw [← hlower] at hdigit
      rcases ipv6Int_chars hs c hc with rfl | rfl | hne
      · exact absurd hlower (by decide)
      · exact absurd hlower (by decide)
      · exact hne (hdigit.symm.trans (by decide))

/-- A host that may stand in brackets may stand there in lower case. -/
theorem bracketedHost_lowers {s t : Text} (h : Lowers s t) (hs : bracketedHost s = true) :
    bracketedHost t = true := by
  rw [bracketedHost] at hs ⊢
  split at hs
  · rename_i hv
    have hv' : t.head? = some 0x76 := (h.head?_ascii hv (by decide)).trans (by decide)
    rw [if_pos hv']
    exact ipFuture_lowers h hs
  · split at hs
    · rename_i n hread
      have hsix : ipv6Address s = some n := by
        rcases Option.or_eq_some_iff.1 hread with hread | ⟨_, hread⟩
        · obtain ⟨m, _, heq⟩ := Option.map_eq_some_iff.1 hread
          cases heq
        · obtain ⟨m, hm, heq⟩ := Option.map_eq_some_iff.1 hread
          cases heq
          exact hm
      have hcolon : (0x3A : CodePoint) ∈ t := by
        rw [h.mem_iff (by decide) (by decide)]
        by_contra hnot
        rw [ipv6Address_of_no_colon hnot] at hsix
        cases hsix
      rw [if_neg (head?_of_ipv6Address h hsix), ipAddress, ipv4Address_of_colon hcolon,
        ipv6Address_lowers h hsix]
      rfl
    · cases hs

theorem NetlocOk.lower {u : UrlUnicode} (hu : u.Lawful) {netloc : Text} (h : NetlocOk u netloc)
    (hslash : (0x2F : CodePoint) ∉ netloc) : NetlocOk u (u.lower netloc) := by
  have hlowers := hu.lowers netloc
  obtain ⟨_, _, hafter⟩ := hlowers.partition (c := 0x5B) (by decide) (by decide)
  obtain ⟨hhost, _, _⟩ := hafter.partition (c := 0x5D) (by decide) (by decide)
  refine ⟨?_, fun hopening => ?_, hu.checkNetloc_lower _ hslash h.check⟩
  · rw [hlowers.mem_iff (by decide) (by decide), hlowers.mem_iff (by decide) (by decide)]
    exact h.brackets
  · rw [hlowers.mem_iff (by decide) (by decide)] at hopening
    exact bracketedHost_lowers hhost (h.bracketed hopening)

namespace SplitResult

variable {u : UrlUnicode} {r r' : SplitResult}

/-- The credentials of a network location in lower case. -/
theorem userinfo_lowers (h : Lowers r.netloc r'.netloc) :
    (r.userinfo.1 = none ↔ r'.userinfo.1 = none) ∧ (r.userinfo.2 = none ↔ r'.userinfo.2 = none) ∧
      (r.userinfo.1 = some [] ↔ r'.userinfo.1 = some []) ∧
      (r.userinfo.2 = some [] ↔ r'.userinfo.2 = some []) := by
  obtain ⟨huserinfo, hseparator, _⟩ := h.rpartition (c := 0x40) (by decide) (by decide)
  obtain ⟨husername, hcolon, hpassword⟩ := huserinfo.partition (c := 0x3A) (by decide) (by decide)
  rw [userinfo, userinfo]
  dsimp only
  rw [← hseparator, ← hcolon]
  split
  · exact ⟨Iff.rfl, Iff.rfl, Iff.rfl, Iff.rfl⟩
  · simp only [Option.some.injEq, husername.eq_nil_iff]
    split
    · simp
    · simp [hpassword.eq_nil_iff]

/-- The host and the port of a network location in lower case. -/
theorem hostinfo_lowers (h : Lowers r.netloc r'.netloc) :
    Lowers r.hostinfo.1 r'.hostinfo.1 ∧ Lowers r.hostinfo.2 r'.hostinfo.2 := by
  obtain ⟨_, _, hinfo⟩ := h.rpartition (c := 0x40) (by decide) (by decide)
  obtain ⟨_, hopening, hbracketed⟩ := hinfo.partition (c := 0x5B) (by decide) (by decide)
  rw [hostinfo, hostinfo]
  dsimp only
  rw [← hopening]
  split
  · obtain ⟨hhost, _, hport⟩ := hbracketed.partition (c := 0x5D) (by decide) (by decide)
    exact ⟨hhost, (hport.partition (by decide) (by decide)).2.2⟩
  · obtain ⟨hhost, _, hport⟩ := hinfo.partition (c := 0x3A) (by decide) (by decide)
    exact ⟨hhost, hport⟩

theorem hostname_lowers (h : Lowers r.netloc r'.netloc) :
    r.hostname u = none ↔ r'.hostname u = none := by
  rw [hostname, hostname]
  simp only [(hostinfo_lowers h).1.eq_nil_iff]
  split
  · exact Iff.rfl
  · exact iff_of_false (Option.some_ne_none _) (Option.some_ne_none _)

theorem port_lowers (h : Lowers r.netloc r'.netloc) (hport : r.port ≠ none) : r'.port = r.port := by
  have hlowers := (hostinfo_lowers h).2
  have htext : r'.hostinfo.2 = Text.asciiLower r.hostinfo.2 := by
    refine hlowers.eq_map fun c hc => ?_
    rw [port] at hport
    split at hport
    · rename_i hnil
      rw [hnil] at hc
      exact (List.not_mem_nil hc).elim
    · split at hport
      · exact (hport rfl).elim
      · obtain ⟨n, hn⟩ := Option.ne_none_iff_exists'.1 hport
        obtain ⟨m, hm, _⟩ := Option.map_eq_some_iff.1 hn
        exact CodePoint.isascii_of_digit?
          (digit?_of_mem_number (Option.filter_eq_some_iff.1 hm).1 c hc)
  rw [port, port, htext]
  simp only [number_asciiLower, length_asciiLower, asciiLower_eq_nil_iff]

end SplitResult

end Python
