import Mathlib

/-!
# Python text

A `str` is a sequence of code points.  Surrogates are code points like others, but they have no
UTF-8 encoding, so that `str.encode` fails on a text that holds one.
-/

namespace Python

/-- A character of a `str`. -/
abbrev CodePoint := Fin 0x110000

/-- `str`. -/
abbrev Text := List CodePoint

instance neZeroCodePoint : NeZero (0x110000 : ℕ) := ⟨by decide⟩

instance lawfulBEqCodePoint : LawfulBEq CodePoint := inferInstance

instance lawfulBEqText : LawfulBEq Text := inferInstance

/-- The text of a literal. -/
def text (s : String) : Text := s.toList.map fun c => Fin.ofNat _ c.toNat

namespace CodePoint

/-- A surrogate, which UTF-8 does not encode. -/
def surrogate (c : CodePoint) : Bool := decide (0xD800 ≤ c.val ∧ c.val ≤ 0xDFFF)

/-- The bytes of a code point; a surrogate has none. -/
def utf8 (c : CodePoint) : Option (List UInt8) :=
  let n := c.val
  if n < 0x80 then some [.ofNat n]
  else if n < 0x800 then some [.ofNat (0xC0 + n / 0x40), .ofNat (0x80 + n % 0x40)]
  else if c.surrogate then none
  else if n < 0x10000 then
    some [.ofNat (0xE0 + n / 0x1000), .ofNat (0x80 + n / 0x40 % 0x40), .ofNat (0x80 + n % 0x40)]
  else
    some [.ofNat (0xF0 + n / 0x40000), .ofNat (0x80 + n / 0x1000 % 0x40),
      .ofNat (0x80 + n / 0x40 % 0x40), .ofNat (0x80 + n % 0x40)]

theorem utf8_isSome {c : CodePoint} : c.utf8.isSome = !c.surrogate := by
  unfold utf8
  dsimp only
  split
  · rename_i hn
    rw [surrogate, decide_eq_false fun h => by omega]
    rfl
  split
  · rename_i hn
    rw [surrogate, decide_eq_false fun h => by omega]
    rfl
  split
  · rename_i hs
    rw [hs]
    rfl
  · rename_i hs
    rw [Bool.eq_false_iff.2 hs]
    split <;> rfl

end CodePoint

namespace Text

/-- Some code point of the text is a surrogate. -/
def surrogates (s : Text) : Bool := s.any CodePoint.surrogate

/-- `s.encode("utf-8")`; the error carries nothing. -/
def encode : Text → Option (List UInt8)
  | [] => some []
  | c :: s => do return (← c.utf8) ++ (← encode s)

theorem encode_isSome (s : Text) : s.encode.isSome = !s.surrogates := by
  induction s with
  | nil => rfl
  | cons c s ih =>
    have hc : c.utf8.isSome = !c.surrogate := CodePoint.utf8_isSome
    rw [encode, surrogates, List.any_cons]
    rw [surrogates] at ih
    cases hu : c.utf8 with
    | none =>
      rw [hu] at hc
      have htrue : c.surrogate = true := by simpa using hc.symm
      rw [htrue]
      rfl
    | some bytes =>
      rw [hu] at hc
      have hfalse : c.surrogate = false := by simpa using hc.symm
      rw [hfalse, Bool.false_or, ← ih]
      cases encode s <;> rfl

/-- The characters of a literal are no surrogates. -/
theorem surrogates_text (s : String) : (text s).surrogates = false := by
  rw [surrogates, text, List.any_map, List.any_eq_false]
  intro c _
  have hvalid : c.toNat < 0xD800 ∨ 0xDFFF < c.toNat ∧ c.toNat < 0x110000 := c.valid
  have hval : (Fin.ofNat 0x110000 c.toNat).val = c.toNat := Nat.mod_eq_of_lt (by omega)
  rw [Function.comp_apply, CodePoint.surrogate, hval, decide_eq_true_iff]
  omega

theorem surrogates_append (s t : Text) :
    Text.surrogates (s ++ t) = (s.surrogates || t.surrogates) := List.any_append

theorem surrogates_flatten (parts : List Text) :
    Text.surrogates parts.flatten = parts.any Text.surrogates := by
  induction parts with
  | nil => rfl
  | cons s parts ih => rw [List.flatten_cons, surrogates_append, ih, List.any_cons]

/-- `sep.join(parts)`. -/
def join (sep : Text) : List Text → Text
  | [] => []
  | [s] => s
  | s :: t :: parts => s ++ sep ++ join sep (t :: parts)

/-- Separators without surrogates add none. -/
theorem surrogates_join {sep : Text} (hsep : sep.surrogates = false) (parts : List Text) :
    (join sep parts).surrogates = parts.any Text.surrogates := by
  induction parts with
  | nil => rfl
  | cons s parts ih =>
    cases parts with
    | nil => rw [join, List.any_cons, List.any_nil, Bool.or_false]
    | cons t parts =>
      rw [join, surrogates_append, surrogates_append, hsep, Bool.or_false, ih, List.any_cons (a := s)]

end Text

end Python
