import ForgejoMcp.Python.Str
import ForgejoMcp.Python.Utf8

/-!
# Percent-encoding

`urllib.parse.quote` and its inverse.  A quoted text is ASCII, holds no reserved character but the ones
it is told to keep, and can be decoded again.
-/

namespace Python

namespace Quote

/-- The bytes that are never quoted: letters, digits and `_.-~`. -/
def alwaysSafe (b : UInt8) : Bool :=
  decide (0x41 ≤ b.toNat ∧ b.toNat ≤ 0x5A ∨ 0x61 ≤ b.toNat ∧ b.toNat ≤ 0x7A ∨
    0x30 ≤ b.toNat ∧ b.toNat ≤ 0x39) || [0x5F, 0x2E, 0x2D, 0x7E].contains b

/-- The character of a byte. -/
def ofByte (b : UInt8) : CodePoint := Fin.ofNat _ b.toNat

/-- The bytes that are kept. -/
def kept (safe : Text) (b : UInt8) : Bool :=
  alwaysSafe b || (decide (b.toNat < 0x80) && safe.contains (ofByte b))

/-- A digit of `%02X`. -/
def hexDigit (n : ℕ) : UInt8 := .ofNat (if n < 10 then 0x30 + n else 0x37 + n)

/-- A byte as `quote` writes it. -/
def quoteByte (safe : Text) (b : UInt8) : List UInt8 :=
  if kept safe b then [b] else [0x25, hexDigit (b.toNat / 16), hexDigit (b.toNat % 16)]

/-- The value of a hexadecimal digit. -/
def hexValue (b : UInt8) : Option ℕ :=
  if 0x30 ≤ b.toNat ∧ b.toNat ≤ 0x39 then some (b.toNat - 0x30)
  else if 0x41 ≤ b.toNat ∧ b.toNat ≤ 0x46 then some (b.toNat - 0x37)
  else if 0x61 ≤ b.toNat ∧ b.toNat ≤ 0x66 then some (b.toNat - 0x57)
  else none

/-- What follows a percent sign, up to the next one. -/
def unquoteItem : List UInt8 → List UInt8
  | h :: l :: rest =>
    match hexValue h, hexValue l with
    | some high, some low => .ofNat (16 * high + low) :: rest
    | _, _ => 0x25 :: h :: l :: rest
  | item => 0x25 :: item

/-- `unquote_to_bytes`, after the encoding. -/
def unquoteBytes (bytes : List UInt8) : List UInt8 :=
  match bytes.splitOn 0x25 with
  | [] => []
  | first :: items => first ++ items.flatMap unquoteItem

end Quote

namespace Text

/-- `quote(s, safe=safe)`, `none` when it raises. -/
def quote (s safe : Text) : Option Text :=
  s.encode.map fun bytes => (bytes.flatMap (Quote.quoteByte safe)).map Quote.ofByte

/-- `unquote(s, errors="strict")`. -/
def unquote (s : Text) : Option Text := s.encode.bind fun bytes => decode (Quote.unquoteBytes bytes)

example : (text "a/b c%").quote [] = some (text "a%2Fb%20c%25") := by decide +kernel
example : (text "a%2Fb%20c%25").unquote = some (text "a/b c%") := by decide +kernel

end Text

namespace Quote

/-! ### Quoted bytes -/

theorem alwaysSafe_lt {b : UInt8} (h : alwaysSafe b = true) : b.toNat < 0x80 := by
  simp only [alwaysSafe, Bool.or_eq_true, decide_eq_true_eq, List.contains_iff_mem,
    List.mem_cons, List.not_mem_nil, or_false] at h
  rcases h with h | rfl | rfl | rfl | rfl
  · omega
  all_goals decide

theorem kept_lt {safe : Text} {b : UInt8} (h : kept safe b = true) : b.toNat < 0x80 := by
  simp only [kept, Bool.or_eq_true, Bool.and_eq_true, decide_eq_true_eq] at h
  rcases h with h | h
  · exact alwaysSafe_lt h
  · exact h.1

theorem hexDigit_eq {n : ℕ} (hn : n < 16) :
    (hexDigit n).toNat = if n < 10 then 0x30 + n else 0x37 + n := by
  unfold hexDigit
  exact Text.toNat_ofNat (by split <;> omega)

theorem alwaysSafe_hexDigit {n : ℕ} (hn : n < 16) : alwaysSafe (hexDigit n) = true := by
  have h := hexDigit_eq hn
  simp only [alwaysSafe, Bool.or_eq_true, decide_eq_true_eq]
  left
  split at h <;> omega

theorem hexValue_hexDigit {n : ℕ} (hn : n < 16) : hexValue (hexDigit n) = some n := by
  have h := hexDigit_eq hn
  unfold hexValue
  split at h
  · rw [if_pos (by omega), h, Nat.add_sub_cancel_left]
  · rw [if_neg (by omega), if_pos (by omega), h, Nat.add_sub_cancel_left]

theorem mem_quoteByte {safe : Text} {a b : UInt8} (h : b ∈ quoteByte safe a) :
    kept safe b = true ∨ b = 0x25 := by
  have hhex : ∀ n < 16, kept safe (hexDigit n) = true := fun n hn => by
    rw [kept, alwaysSafe_hexDigit hn, Bool.true_or]
  have ha := a.toNat_lt
  unfold quoteByte at h
  split at h
  · rename_i hkept
    rw [List.mem_singleton.1 h]
    exact .inl hkept
  · simp only [List.mem_cons, List.not_mem_nil, or_false] at h
    rcases h with rfl | rfl | rfl
    · exact .inr rfl
    · exact .inl (hhex _ (by omega))
    · exact .inl (hhex _ (by omega))

theorem unquoteBytes_cons {b : UInt8} (hb : b ≠ 0x25) (rest : List UInt8) :
    unquoteBytes (b :: rest) = b :: unquoteBytes rest := by
  obtain ⟨first, items, hs⟩ := List.exists_cons_of_ne_nil (List.splitOn_ne_nil 0x25 rest)
  unfold unquoteBytes
  rw [List.splitOn_cons_eq_if_modifyHead, if_neg (by simpa using hb), hs]
  rfl

theorem unquoteBytes_percent {h l : UInt8} {high low : ℕ} (hh : hexValue h = some high)
    (hl : hexValue l = some low) (rest : List UInt8) :
    unquoteBytes (0x25 :: h :: l :: rest) = .ofNat (16 * high + low) :: unquoteBytes rest := by
  have hne : ∀ {b : UInt8} {n : ℕ}, hexValue b = some n → ¬(b == 0x25) = true := by
    intro b n hb heq
    rw [eq_of_beq heq] at hb
    cases hb
  obtain ⟨first, items, hs⟩ := List.exists_cons_of_ne_nil (List.splitOn_ne_nil 0x25 rest)
  unfold unquoteBytes
  rw [List.splitOn_cons_eq_if_modifyHead, if_pos (beq_self_eq_true _), List.splitOn_cons_eq_if_modifyHead,
    if_neg (hne hh), List.splitOn_cons_eq_if_modifyHead, if_neg (hne hl), hs]
  simp [unquoteItem, hh, hl]

/-- Unquoting undoes quoting, if a percent sign is quoted. -/
theorem unquoteBytes_quoteByte {safe : Text} (hsafe : kept safe 0x25 = false) (b : UInt8)
    (rest : List UInt8) : unquoteBytes (quoteByte safe b ++ rest) = b :: unquoteBytes rest := by
  have hb := b.toNat_lt
  unfold quoteByte
  split
  · rename_i hkept
    refine unquoteBytes_cons (fun h => ?_) rest
    rw [h, hsafe] at hkept
    cases hkept
  · refine (unquoteBytes_percent (hexValue_hexDigit (by omega)) (hexValue_hexDigit (by omega))
      rest).trans ?_
    rw [Text.ofNat_eq (b := b) (by omega)]

theorem unquoteBytes_quoteBytes {safe : Text} (hsafe : kept safe 0x25 = false)
    (bytes rest : List UInt8) :
    unquoteBytes (bytes.flatMap (quoteByte safe) ++ rest) = bytes ++ unquoteBytes rest := by
  induction bytes with
  | nil => rfl
  | cons b bytes ih =>
    rw [List.flatMap_cons, List.append_assoc, unquoteBytes_quoteByte hsafe, ih, List.cons_append]

theorem ofByte_val (b : UInt8) : (ofByte b).val = b.toNat := by
  have hb := b.toNat_lt
  exact Nat.mod_eq_of_lt (by omega)

theorem encode_ofByte {bytes : List UInt8} (h : ∀ b ∈ bytes, b.toNat < 0x80) :
    Text.encode (bytes.map ofByte) = some bytes := by
  induction bytes with
  | nil => rfl
  | cons b bytes ih =>
    have hb := h b List.mem_cons_self
    have hfirst : (ofByte b).utf8 = some [b] := by
      unfold CodePoint.utf8
      dsimp only
      rw [ofByte_val, if_pos hb, UInt8.ofNat_toNat]
    exact Text.encode_cons hfirst (ih fun a ha => h a (List.mem_cons_of_mem _ ha))

end Quote

namespace Text

open Quote

/-! ### Quoted texts -/

theorem encode_append {s t : Text} {first second : List UInt8} (hs : s.encode = some first)
    (ht : t.encode = some second) : (s ++ t).encode = some (first ++ second) := by
  induction s generalizing first with
  | nil =>
    cases hs
    exact ht
  | cons c s ih =>
    obtain ⟨head, hhead, tail, htail, rfl⟩ := encode_cons_eq_some hs
    rw [List.append_assoc]
    exact encode_cons hhead (ih htail)

variable {s safe q : Text}

theorem quote_isSome : (s.quote safe).isSome = !s.surrogates := by
  rw [quote, Option.isSome_map, encode_isSome]

theorem quote_eq_some (h : s.quote safe = some q) :
    ∃ bytes, s.encode = some bytes ∧ q = (bytes.flatMap (quoteByte safe)).map ofByte ∧
      q.encode = some (bytes.flatMap (quoteByte safe)) := by
  obtain ⟨bytes, hbytes, rfl⟩ := Option.map_eq_some_iff.1 h
  refine ⟨bytes, hbytes, rfl, encode_ofByte fun b hb => ?_⟩
  obtain ⟨a, -, hb⟩ := List.mem_flatMap.1 hb
  rcases mem_quoteByte hb with hkept | rfl
  · exact kept_lt hkept
  · decide

/-- A quoted text holds no character but the ones that are kept and the percent sign. -/
theorem not_mem_quote (h : s.quote safe = some q) {b : UInt8} (hkept : kept safe b = false)
    (hpercent : b ≠ 0x25) : ofByte b ∉ q := by
  obtain ⟨bytes, -, rfl, -⟩ := quote_eq_some h
  intro hmem
  obtain ⟨a, ha, hab⟩ := List.mem_map.1 hmem
  have heq : a = b := by
    have hval : (ofByte a).val = (ofByte b).val := congrArg Fin.val hab
    rw [ofByte_val, ofByte_val] at hval
    exact UInt8.toNat.inj hval
  obtain ⟨c, -, ha⟩ := List.mem_flatMap.1 ha
  rcases mem_quoteByte ha with hkept' | rfl
  · rw [heq, hkept] at hkept'
    cases hkept'
  · exact hpercent heq.symm

theorem unquote_quote_append (hsafe : kept safe 0x25 = false) (h : s.quote safe = some q)
    (t : Text) : (q ++ t).unquote = t.unquote.map (s ++ ·) := by
  obtain ⟨bytes, hbytes, -, hq⟩ := quote_eq_some h
  unfold unquote
  cases ht : t.encode with
  | none =>
    have hnone : (q ++ t).encode = none := by
      rw [← Option.not_isSome_iff_eq_none, encode_isSome, surrogates_append]
      rw [← Option.not_isSome_iff_eq_none, encode_isSome] at ht
      simp_all
    rw [hnone]
    rfl
  | some rest =>
    rw [encode_append hq ht]
    simp only [Option.bind_some]
    rw [unquoteBytes_quoteBytes hsafe, decode_encode_append hbytes]

/-- Unquoting undoes quoting. -/
theorem unquote_quote (hsafe : kept safe 0x25 = false) (h : s.quote safe = some q) :
    q.unquote = some s := by
  have happend := unquote_quote_append hsafe h []
  rw [List.append_nil] at happend
  rw [happend]
  exact congrArg some (List.append_nil s)

theorem quote_cons (h : quote (c :: s) safe = some q) :
    ∃ first rest, quote [c] safe = some first ∧ s.quote safe = some rest ∧ q = first ++ rest := by
  obtain ⟨bytes, hbytes, rfl, -⟩ := quote_eq_some h
  obtain ⟨head, hhead, tail, htail, rfl⟩ := encode_cons_eq_some hbytes
  refine ⟨(head.flatMap (quoteByte safe)).map ofByte, (tail.flatMap (quoteByte safe)).map ofByte,
    ?_, ?_, ?_⟩
  · have hone : encode [c] = some (head ++ []) := encode_cons hhead rfl
    rw [quote, hone, List.append_nil]
    rfl
  · rw [quote, htail]
    rfl
  · rw [List.flatMap_append, List.map_append]

theorem quote_append {t q' : Text} (hs : s.quote safe = some q) (ht : t.quote safe = some q') :
    (s ++ t).quote safe = some (q ++ q') := by
  obtain ⟨first, hfirst, rfl, -⟩ := quote_eq_some hs
  obtain ⟨second, hsecond, rfl, -⟩ := quote_eq_some ht
  rw [quote, encode_append hfirst hsecond, Option.map_some, List.flatMap_append, List.map_append]

theorem quote_of_append {t : Text} (h : (s ++ t).quote safe = some q) :
    ∃ first second, s.quote safe = some first ∧ t.quote safe = some second := by
  have hsome : ((s ++ t).quote safe).isSome = true := by rw [h]; rfl
  rw [quote_isSome, surrogates_append, Bool.not_or, Bool.and_eq_true] at hsome
  obtain ⟨first, hfirst⟩ := Option.isSome_iff_exists.1 (quote_isSome.trans hsome.1)
  obtain ⟨second, hsecond⟩ := Option.isSome_iff_exists.1 (quote_isSome.trans hsome.2)
  exact ⟨first, second, hfirst, hsecond⟩

/-- Quoting makes no slashes. -/
theorem slash_not_mem {c : CodePoint} {first : Text} (h : quote [c] [0x2F] = some first)
    (hc : c ≠ 0x2F) : (0x2F : CodePoint) ∉ first := by
  obtain ⟨bytes, hbytes, rfl, -⟩ := quote_eq_some h
  obtain ⟨head, hhead, tail, htail, rfl⟩ := encode_cons_eq_some hbytes
  cases htail
  intro hmem
  obtain ⟨b, hb, hslash⟩ := List.mem_map.1 hmem
  have hval : b = 0x2F := by
    have hval := congrArg Fin.val hslash
    rw [ofByte_val] at hval
    exact UInt8.toNat.inj hval
  obtain ⟨a, ha, hb⟩ := List.mem_flatMap.1 hb
  rw [List.append_nil] at ha
  have hne : a ≠ 0x2F := fun heq => by
    have hc' := val_of_mem_utf8 hhead ha (by rw [heq]; decide)
    rw [heq] at hc'
    exact hc (Fin.ext hc')
  rw [hval] at hb
  unfold quoteByte at hb
  split at hb
  · exact hne (List.mem_singleton.1 hb).symm
  · have hhex : ∀ n < 16, (0x2F : UInt8) ≠ hexDigit n := fun n hn heq => by
      have hsafe := alwaysSafe_hexDigit hn
      rw [← heq] at hsafe
      revert hsafe
      decide
    have ha := a.toNat_lt
    simp only [List.mem_cons, List.not_mem_nil, or_false] at hb
    rcases hb with hb | hb | hb
    · revert hb
      decide
    · exact hhex _ (by omega) hb
    · exact hhex _ (by omega) hb

/-- With the slash kept, the parts of the quoted text are those of the text, quoted. -/
theorem split_quote (h : s.quote [0x2F] = some q) :
    (q.split 0x2F).map unquote = (s.split 0x2F).map some := by
  induction s generalizing q with
  | nil =>
    cases h
    rfl
  | cons c s ih =>
    obtain ⟨first, rest, hfirst, hrest, rfl⟩ := quote_cons h
    have hsplit := ih hrest
    obtain ⟨part, parts, hs⟩ := exists_split s 0x2F
    obtain ⟨qpart, qparts, hq⟩ := exists_split rest 0x2F
    rw [hs, hq, List.map_cons, List.map_cons, List.cons.injEq] at hsplit
    rcases eq_or_ne c 0x2F with rfl | hc
    · cases hfirst
      change (split (0x2F :: rest) 0x2F).map unquote = _
      rw [split_cons_self, split_cons_self, hs, hq, List.map_cons, List.map_cons, List.map_cons,
        List.map_cons, hsplit.1, hsplit.2]
      rfl
    · rw [split_append (slash_not_mem hfirst hc), split_cons_of_ne hc, hs, hq, List.modifyHead_cons,
        List.modifyHead_cons, List.map_cons, List.map_cons, hsplit.2,
        unquote_quote_append (by decide) hfirst, hsplit.1]
      rfl

end Text

end Python
