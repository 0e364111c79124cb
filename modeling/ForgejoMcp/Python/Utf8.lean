import ForgejoMcp.Python.Text

/-!
# Decoding UTF-8

`bytes.decode("utf-8")`, which accepts exactly the encodings of texts: no surrogates, no longer form
than needed, nothing beyond the last code point.
-/

namespace Python

namespace Text

/-- A continuation byte. -/
def continuation (b : UInt8) : Bool := decide (0x80 ≤ b.toNat ∧ b.toNat < 0xC0)

/-- A code point of two bytes or more before a decoded rest, when the code point `n` needs all of its
bytes, which is so from `least` on. -/
def decodeWide (least n : ℕ) (rest : Option Text) : Option Text :=
  if h : least ≤ n ∧ n < 0x110000 then
    let c : CodePoint := ⟨n, h.2⟩
    if c.surrogate then none else rest.map (c :: ·)
  else none

/-- `bytes.decode("utf-8")`, `none` when it raises. -/
def decode : List UInt8 → Option Text
  | [] => some []
  | a :: rest =>
    if a.toNat < 0x80 then (decode rest).map (Fin.ofNat _ a.toNat :: ·)
    else if a.toNat < 0xC0 then none
    else if a.toNat < 0xE0 then
      match rest with
      | b :: rest =>
        if continuation b then
          decodeWide 0x80 ((a.toNat - 0xC0) * 0x40 + (b.toNat - 0x80)) (decode rest)
        else none
      | _ => none
    else if a.toNat < 0xF0 then
      match rest with
      | b :: c :: rest =>
        if continuation b ∧ continuation c then
          decodeWide 0x800 ((a.toNat - 0xE0) * 0x1000 + (b.toNat - 0x80) * 0x40 + (c.toNat - 0x80))
            (decode rest)
        else none
      | _ => none
    else
      match rest with
      | b :: c :: d :: rest =>
        if continuation b ∧ continuation c ∧ continuation d then
          decodeWide 0x10000 ((a.toNat - 0xF0) * 0x40000 + (b.toNat - 0x80) * 0x1000 +
            (c.toNat - 0x80) * 0x40 + (d.toNat - 0x80)) (decode rest)
        else none
      | _ => none

example : decode [0xE2, 0x82, 0xAC, 0x41] = some [0x20AC, 0x41] := by decide
example : decode [0xED, 0xA0, 0x80] = none := by decide

/-- The length of an encoding that begins with the byte, 0 if none does. -/
def width (a : UInt8) : ℕ :=
  if a.toNat < 0x80 then 1 else if a.toNat < 0xC2 then 0 else if a.toNat < 0xE0 then 2
  else if a.toNat < 0xF0 then 3 else if a.toNat < 0xF5 then 4 else 0

/-- An encoding begins with the two bytes. -/
def beginning (a b : UInt8) : Bool :=
  decide (2 ≤ width a) && continuation b && decide ((a.toNat = 0xE0 → 0xA0 ≤ b.toNat) ∧
    (a.toNat = 0xED → b.toNat < 0xA0) ∧ (a.toNat = 0xF0 → 0x90 ≤ b.toNat) ∧
    (a.toNat = 0xF4 → b.toNat < 0x90))

/-- How many bytes after `a` belong to the longest beginning of an encoding. -/
def follow (a : UInt8) : List UInt8 → ℕ
  | [] => 0
  | b :: rest =>
    if beginning a b then ((rest.take (width a - 2)).takeWhile continuation).length + 1 else 0

/-- `decodeReplace` once the next `skip` bytes are passed. -/
def decodeReplaceFrom : ℕ → List UInt8 → Text
  | _, [] => []
  | skip + 1, _ :: rest => decodeReplaceFrom skip rest
  | 0, a :: rest =>
    (decode (a :: rest.take (follow a rest))).getD [0xFFFD] ++ decodeReplaceFrom (follow a rest) rest

/-- `bytes.decode("utf-8", errors="replace")`: the longest beginning of an encoding that is not
completed is replaced as a whole. -/
def decodeReplace (bytes : List UInt8) : Text := decodeReplaceFrom 0 bytes

example : decodeReplace [0x41, 0xE2, 0x82, 0x42, 0xED, 0xA0] =
    [0x41, 0xFFFD, 0x42, 0xFFFD, 0xFFFD] := by decide

theorem decodeWide_eq {c : CodePoint} {least n : ℕ} (hn : n = c.val) (hleast : least ≤ n)
    (hc : c.surrogate = false) (rest : Option Text) :
    decodeWide least n rest = rest.map (c :: ·) := by
  subst hn
  unfold decodeWide
  rw [dif_pos ⟨hleast, c.isLt⟩]
  dsimp only [Fin.eta]
  rw [hc]
  rfl

theorem decodeWide_eq_some {least n : ℕ} {rest : Option Text} {s : Text}
    (h : decodeWide least n rest = some s) :
    ∃ c : CodePoint, ∃ t, c.val = n ∧ least ≤ n ∧ c.surrogate = false ∧ rest = some t ∧
      s = c :: t := by
  unfold decodeWide at h
  split at h
  · rename_i hn
    dsimp only at h
    split at h
    · cases h
    · rename_i hc
      obtain ⟨t, ht, rfl⟩ := Option.map_eq_some_iff.1 h
      exact ⟨⟨n, hn.2⟩, t, rfl, hn.1, Bool.eq_false_iff.2 hc, ht, rfl⟩
  · cases h

theorem toNat_ofNat {n : ℕ} (h : n < 0x100) : (UInt8.ofNat n).toNat = n := by
  rw [UInt8.toNat_ofNat']
  exact Nat.mod_eq_of_lt h

theorem continuation_ofNat {n : ℕ} (h : n < 0x40) : continuation (.ofNat (0x80 + n)) = true := by
  rw [continuation, toNat_ofNat (by omega), decide_eq_true_iff]
  omega

/-- The encoding of a code point is decoded to it. -/
theorem decode_utf8_append {c : CodePoint} {bytes : List UInt8} (h : c.utf8 = some bytes)
    (rest : List UInt8) : decode (bytes ++ rest) = (decode rest).map (c :: ·) := by
  have hlt := c.isLt
  unfold CodePoint.utf8 at h
  dsimp only at h
  split at h
  · rename_i hn
    cases h
    have ha : (UInt8.ofNat c.val).toNat = c.val := toNat_ofNat (by omega)
    have hc : Fin.ofNat 0x110000 c.val = c := Fin.ext (Nat.mod_eq_of_lt hlt)
    rw [List.cons_append, List.nil_append, decode.eq_def]
    dsimp only
    rw [ha, if_pos hn, hc]
  split at h
  · rename_i hn
    cases h
    have ha : (UInt8.ofNat (0xC0 + c.val / 0x40)).toNat = 0xC0 + c.val / 0x40 :=
      toNat_ofNat (by omega)
    have hb : (UInt8.ofNat (0x80 + c.val % 0x40)).toNat = 0x80 + c.val % 0x40 :=
      toNat_ofNat (by omega)
    have hc : c.surrogate = false := decide_eq_false (by omega)
    simp only [List.cons_append, List.nil_append]
    rw [decode.eq_def]
    dsimp only
    rw [if_neg (by omega), if_neg (by omega), if_pos (by omega), if_pos (continuation_ofNat (by omega)), ha, hb]
    exact decodeWide_eq (by omega) (by omega) hc _
  split at h
  · cases h
  rename_i hc
  have hsurrogate : c.surrogate = false := Bool.eq_false_iff.2 hc
  split at h
  · rename_i hn
    cases h
    have ha : (UInt8.ofNat (0xE0 + c.val / 0x1000)).toNat = 0xE0 + c.val / 0x1000 :=
      toNat_ofNat (by omega)
    have hb : (UInt8.ofNat (0x80 + c.val / 0x40 % 0x40)).toNat = 0x80 + c.val / 0x40 % 0x40 :=
      toNat_ofNat (by omega)
    have hd : (UInt8.ofNat (0x80 + c.val % 0x40)).toNat = 0x80 + c.val % 0x40 :=
      toNat_ofNat (by omega)
    simp only [List.cons_append, List.nil_append]
    rw [decode.eq_def]
    dsimp only
    rw [if_neg (by omega), if_neg (by omega), if_neg (by omega), if_pos (by omega),
      if_pos ⟨continuation_ofNat (by omega), continuation_ofNat (by omega)⟩, ha, hb, hd]
    exact decodeWide_eq (by omega) (by omega) hsurrogate _
  · rename_i hn
    cases h
    have ha : (UInt8.ofNat (0xF0 + c.val / 0x40000)).toNat = 0xF0 + c.val / 0x40000 :=
      toNat_ofNat (by omega)
    have hb : (UInt8.ofNat (0x80 + c.val / 0x1000 % 0x40)).toNat = 0x80 + c.val / 0x1000 % 0x40 :=
      toNat_ofNat (by omega)
    have hd : (UInt8.ofNat (0x80 + c.val / 0x40 % 0x40)).toNat = 0x80 + c.val / 0x40 % 0x40 :=
      toNat_ofNat (by omega)
    have he : (UInt8.ofNat (0x80 + c.val % 0x40)).toNat = 0x80 + c.val % 0x40 :=
      toNat_ofNat (by omega)
    simp only [List.cons_append, List.nil_append]
    rw [decode.eq_def]
    dsimp only
    rw [if_neg (by omega), if_neg (by omega), if_neg (by omega), if_neg (by omega),
      if_pos ⟨continuation_ofNat (by omega), continuation_ofNat (by omega),
      continuation_ofNat (by omega)⟩, ha, hb, hd, he]
    exact decodeWide_eq (by omega) (by omega) hsurrogate _

theorem encode_cons_eq_some {c : CodePoint} {s : Text} {bytes : List UInt8}
    (h : encode (c :: s) = some bytes) :
    ∃ first, c.utf8 = some first ∧ ∃ tail, encode s = some tail ∧ first ++ tail = bytes := by
  obtain ⟨first, hfirst, h⟩ := Option.bind_eq_some_iff.1 h
  obtain ⟨tail, htail, h⟩ := Option.bind_eq_some_iff.1 h
  exact ⟨first, hfirst, tail, htail, Option.some.inj h⟩

/-- An ASCII byte in the encoding of a code point is the code point. -/
theorem val_of_mem_utf8 {c : CodePoint} {bytes : List UInt8} (h : c.utf8 = some bytes) {b : UInt8}
    (hb : b ∈ bytes) (hascii : b.toNat < 0x80) : c.val = b.toNat := by
  have hlt := c.isLt
  have hwide : ∀ n, 0x80 ≤ n → n < 0x100 → b ≠ .ofNat n := by
    intro n hn hlt heq
    have := toNat_ofNat hlt
    rw [heq] at hascii
    omega
  unfold CodePoint.utf8 at h
  dsimp only at h
  split at h
  · rename_i hn
    cases h
    rw [List.mem_singleton.1 hb, toNat_ofNat (by omega)]
  split at h
  · cases h
    simp only [List.mem_cons, List.not_mem_nil, or_false] at hb
    rcases hb with hb | hb <;> exact absurd hb (hwide _ (by omega) (by omega))
  split at h
  · cases h
  split at h
  · cases h
    simp only [List.mem_cons, List.not_mem_nil, or_false] at hb
    rcases hb with hb | hb | hb <;> exact absurd hb (hwide _ (by omega) (by omega))
  · cases h
    simp only [List.mem_cons, List.not_mem_nil, or_false] at hb
    rcases hb with hb | hb | hb | hb <;> exact absurd hb (hwide _ (by omega) (by omega))

theorem decode_encode_append {s : Text} {bytes : List UInt8} (h : s.encode = some bytes)
    (rest : List UInt8) : decode (bytes ++ rest) = (decode rest).map (s ++ ·) := by
  induction s generalizing bytes with
  | nil =>
    cases h
    simp
  | cons c s ih =>
    obtain ⟨first, hfirst, tail, htail, rfl⟩ := encode_cons_eq_some h
    rw [List.append_assoc, decode_utf8_append hfirst, ih htail]
    simp [Option.map_map, Function.comp_def]

theorem encode_cons {c : CodePoint} {s : Text} {first tail : List UInt8}
    (hfirst : c.utf8 = some first) (htail : s.encode = some tail) :
    encode (c :: s) = some (first ++ tail) := by
  rw [encode, hfirst, htail]
  rfl

theorem continuation_bounds {b : UInt8} (h : continuation b = true) :
    0x80 ≤ b.toNat ∧ b.toNat < 0xC0 := of_decide_eq_true h

theorem ofNat_eq {b : UInt8} {n : ℕ} (h : n = b.toNat) : UInt8.ofNat n = b := by
  rw [h, UInt8.ofNat_toNat]

theorem encode_decode {bytes : List UInt8} {s : Text} (h : decode bytes = some s) :
    s.encode = some bytes := by
  fun_induction decode bytes generalizing s with
  | case1 =>
    cases h
    rfl
  | case2 a rest ha ih =>
    obtain ⟨t, ht, rfl⟩ := Option.map_eq_some_iff.1 h
    have hval : (Fin.ofNat 0x110000 a.toNat).val = a.toNat := Nat.mod_eq_of_lt (by omega)
    have hfirst : CodePoint.utf8 (Fin.ofNat 0x110000 a.toNat) = some [a] := by
      unfold CodePoint.utf8
      dsimp only
      rw [hval, if_pos ha, UInt8.ofNat_toNat]
    exact encode_cons hfirst (ih ht)
  | case4 a h80 hC0 hE0 b rest hb ih =>
    obtain ⟨c, t, hc, hleast, -, ht, rfl⟩ := decodeWide_eq_some h
    obtain ⟨hb1, hb2⟩ := continuation_bounds hb
    have hfirst : c.utf8 = some [a, b] := by
      unfold CodePoint.utf8
      dsimp only
      rw [hc, if_neg (by omega), if_pos (by omega), ofNat_eq (b := a) (by omega),
        ofNat_eq (b := b) (by omega)]
    exact encode_cons hfirst (ih ht)
  | case7 a h80 hC0 hE0 hF0 b d rest hcontinuation ih =>
    obtain ⟨c, t, hc, hleast, hsurrogate, ht, rfl⟩ := decodeWide_eq_some h
    obtain ⟨hb1, hb2⟩ := continuation_bounds hcontinuation.1
    obtain ⟨hd1, hd2⟩ := continuation_bounds hcontinuation.2
    have hfirst : c.utf8 = some [a, b, d] := by
      unfold CodePoint.utf8
      dsimp only
      rw [hsurrogate, hc, if_neg (by omega), if_neg (by omega), if_neg (by simp),
        if_pos (by omega), ofNat_eq (b := a) (by omega), ofNat_eq (b := b) (by omega),
        ofNat_eq (b := d) (by omega)]
    exact encode_cons hfirst (ih ht)
  | case10 a h80 hC0 hE0 hF0 b d e rest hcontinuation ih =>
    obtain ⟨c, t, hc, hleast, hsurrogate, ht, rfl⟩ := decodeWide_eq_some h
    obtain ⟨hb1, hb2⟩ := continuation_bounds hcontinuation.1
    obtain ⟨hd1, hd2⟩ := continuation_bounds hcontinuation.2.1
    obtain ⟨he1, he2⟩ := continuation_bounds hcontinuation.2.2
    have hfirst : c.utf8 = some [a, b, d, e] := by
      unfold CodePoint.utf8
      dsimp only
      rw [hsurrogate, hc, if_neg (by omega), if_neg (by omega), if_neg (by simp),
        if_neg (by omega), ofNat_eq (b := a) (by omega), ofNat_eq (b := b) (by omega),
        ofNat_eq (b := d) (by omega), ofNat_eq (b := e) (by omega)]
    exact encode_cons hfirst (ih ht)
  | _ => cases h

end Text

end Python
