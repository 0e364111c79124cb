import ForgejoMcp.Python.Utf8

/-!
# Base64

`base64.b64encode` and the strict `base64.b64decode(…, validate=True)`.  The strict decoder accepts
groups of four characters of the alphabet, with the padding at the end that the last group needs; it
does not look at the bits that the padding leaves over.
-/

namespace Python

namespace Base64

/-- The character of a sextet. -/
def digit (n : ℕ) : CodePoint :=
  Fin.ofNat _ (if n < 26 then 0x41 + n else if n < 52 then 0x47 + n else if n < 62 then n - 4
    else if n = 62 then 0x2B else 0x2F)

/-- The sextet of a character. -/
def sextet (c : CodePoint) : Option ℕ :=
  if 0x41 ≤ c.val ∧ c.val ≤ 0x5A then some (c.val - 0x41)
  else if 0x61 ≤ c.val ∧ c.val ≤ 0x7A then some (c.val - 0x47)
  else if 0x30 ≤ c.val ∧ c.val ≤ 0x39 then some (c.val + 4)
  else if c.val = 0x2B then some 62
  else if c.val = 0x2F then some 63
  else none

/-- `=`. -/
def pad : CodePoint := 0x3D

/-- The bytes of a group without padding. -/
def group (a b c d : ℕ) : List UInt8 :=
  [.ofNat (a * 4 + b / 16), .ofNat (b % 16 * 16 + c / 4), .ofNat (c % 4 * 64 + d)]

end Base64

open Base64

/-- `base64.b64encode(…).decode()`. -/
def b64encode : List UInt8 → Text
  | a :: b :: c :: rest =>
    digit (a.toNat / 4) :: digit (a.toNat % 4 * 16 + b.toNat / 16) ::
      digit (b.toNat % 16 * 4 + c.toNat / 64) :: digit (c.toNat % 64) :: b64encode rest
  | [a, b] =>
    [digit (a.toNat / 4), digit (a.toNat % 4 * 16 + b.toNat / 16), digit (b.toNat % 16 * 4), pad]
  | [a] => [digit (a.toNat / 4), digit (a.toNat % 4 * 16), pad, pad]
  | [] => []

/-- `base64.b64decode(…, validate=True)`, `none` when it raises. As documented, padding is not accepted
after a full group (`YWJj=`), though CPython takes it. -/
def b64decode : Text → Option (List UInt8)
  | [] => some []
  | a :: b :: c :: d :: rest => do
    let a ← sextet a
    let b ← sextet b
    if d = pad then
      if rest ≠ [] then none
      else if c = pad then some ((group a b 0 0).take 1)
      else do
        let c ← sextet c
        return (group a b c 0).take 2
    else do
      let c ← sextet c
      let d ← sextet d
      return group a b c d ++ (← b64decode rest)
  | _ => none

example : b64encode [0x4D, 0x61, 0x6E, 0x4D] = text "TWFuTQ==" := by decide +kernel
example : b64decode (text "TWFuTQ==") = some [0x4D, 0x61, 0x6E, 0x4D] := by decide +kernel
example : b64decode (text "TWFu\nTQ==") = none := by decide +kernel

namespace Base64

theorem digit_val {n : ℕ} (hn : n < 64) :
    (digit n).val = if n < 26 then 0x41 + n else if n < 52 then 0x47 + n else if n < 62 then n - 4
      else if n = 62 then 0x2B else 0x2F := by
  refine Nat.mod_eq_of_lt ?_
  split_ifs <;> omega

theorem sextet_digit {n : ℕ} (hn : n < 64) : sextet (digit n) = some n := by
  have h := digit_val hn
  unfold sextet
  split_ifs at h ⊢ <;> first | omega | exact congrArg some (by omega)

theorem digit_ne_pad {n : ℕ} (hn : n < 64) : digit n ≠ pad := by
  intro h
  have hsextet := sextet_digit hn
  rw [h] at hsextet
  cases hsextet

theorem group_eq {a b c d : ℕ} {x y z : UInt8} (hx : a * 4 + b / 16 = x.toNat)
    (hy : b % 16 * 16 + c / 4 = y.toNat) (hz : c % 4 * 64 + d = z.toNat) :
    group a b c d = [x, y, z] := by
  rw [group, Text.ofNat_eq hx, Text.ofNat_eq hy, Text.ofNat_eq hz]

end Base64

/-- Decoding undoes encoding. -/
theorem b64decode_b64encode (bytes : List UInt8) : b64decode (b64encode bytes) = some bytes := by
  fun_induction b64encode bytes with
  | case1 a b c rest ih =>
    have ha := a.toNat_lt
    have hb := b.toNat_lt
    have hc := c.toNat_lt
    rw [b64decode, sextet_digit (by omega), sextet_digit (by omega), sextet_digit (by omega),
      sextet_digit (by omega), ih]
    simp only [Option.bind_eq_bind, Option.bind_some]
    rw [if_neg (digit_ne_pad (by omega)), group_eq (x := a) (y := b) (z := c) (by omega) (by omega)
      (by omega)]
    rfl
  | case2 a b =>
    have ha := a.toNat_lt
    have hb := b.toNat_lt
    rw [b64decode, sextet_digit (by omega), sextet_digit (by omega), sextet_digit (by omega)]
    simp only [Option.bind_eq_bind, Option.bind_some]
    rw [if_pos trivial, if_neg (fun h => h rfl), if_neg (digit_ne_pad (by omega)),
      group_eq (x := a) (y := b) (z := 0) (by omega) (by omega)
      (by rw [UInt8.toNat_zero]; omega)]
    rfl
  | case3 a =>
    have ha := a.toNat_lt
    rw [b64decode, sextet_digit (by omega), sextet_digit (by omega)]
    simp only [Option.bind_eq_bind, Option.bind_some]
    rw [if_pos trivial, if_neg (fun h => h rfl), if_pos trivial,
      group_eq (x := a) (y := 0) (z := 0) (by omega) (by rw [UInt8.toNat_zero]; omega) (by simp)]
    rfl
  | case4 => rfl

end Python
