import ForgejoMcp.Python.Text

/-!
# JSON values and their serialisation

The values that `json.dumps` serialises, and `json.dumps(…, ensure_ascii=False, sort_keys=True,
default=str)`.  With `ensure_ascii=False` a surrogate of a key or a string stays in the text, so the
text can be encoded exactly if no key and no string holds one.
-/

namespace Python

/-- A value that is serialised.  A float is given by its `repr`, an object of another type by its
`str`. -/
inductive Json
  | null
  | bool (b : Bool)
  | int (n : ℤ)
  | float (repr : String)
  | str (s : Text)
  | list (items : List Json)
  | dict (entries : List (Text × Json))
  | other (str : Text)

/-- A dictionary, in its order. -/
abbrev Dict := List (Text × Json)

/-- `d.get(key)`. -/
def Dict.get (d : Dict) (key : Text) : Option Json := d.lookup key

/-- `sorted(d)`. -/
def Dict.sorted (d : Dict) : List Text := (d.map Prod.fst).insertionSort (· ≤ ·)

namespace Json

/-! ### Serialisation -/

/-- A hexadecimal digit in lower case. -/
def hexDigit (n : ℕ) : CodePoint := Fin.ofNat _ (if n < 10 then 0x30 + n else 0x57 + n)

/-- The escapes of `json.encoder`. -/
def escapes : List (CodePoint × String) := [(0x22, "\\\""), (0x5C, "\\\\"), (0x0A, "\\n"),
  (0x0D, "\\r"), (0x09, "\\t"), (0x0C, "\\f"), (0x08, "\\b")]

/-- A code point in a JSON string, with `ensure_ascii=False`. -/
def escape (c : CodePoint) : Text :=
  match escapes.lookup c with
  | some s => text s
  | none =>
    if c.val < 0x20 then text "\\u00" ++ [hexDigit (c.val / 16), hexDigit (c.val % 16)] else [c]

/-- A text as a JSON string. -/
def quote (s : Text) : Text := text "\"" ++ (s.map escape).flatten ++ text "\""

mutual

/-- `json.dumps(value, ensure_ascii=False, sort_keys=True, default=str)`. -/
def dumps : Json → Text
  | null => text "null"
  | bool true => text "true"
  | bool false => text "false"
  | int n => text (toString n)
  | float repr => text repr
  | str s => quote s
  | other s => quote s
  | list items => text "[" ++ Text.join (text ", ") (dumpsItems items) ++ text "]"
  | dict entries => text "\x7b" ++ Text.join (text ", ") (((dumpsEntries entries).insertionSort
      fun a b => a.1 ≤ b.1).map fun entry => quote entry.1 ++ text ": " ++ entry.2) ++ text "\x7d"

/-- The texts of the items of a list. -/
def dumpsItems : List Json → List Text
  | [] => []
  | value :: items => dumps value :: dumpsItems items

/-- The keys of a dictionary with the texts of their values. -/
def dumpsEntries : List (Text × Json) → List (Text × Text)
  | [] => []
  | (key, value) :: entries => (key, dumps value) :: dumpsEntries entries

end

/-! ### Strings -/

mutual

/-- The string values in a value, keys left out. -/
def strings : Json → List Text
  | str s => [s]
  | list items => itemsStrings items
  | dict entries => entriesStrings entries
  | _ => []

/-- The texts within a list. -/
def itemsStrings : List Json → List Text
  | [] => []
  | value :: items => strings value ++ itemsStrings items

/-- The texts within the values of a dictionary. -/
def entriesStrings : List (Text × Json) → List Text
  | [] => []
  | (_, value) :: entries => strings value ++ entriesStrings entries

end

/-! ### Surrogates -/

mutual

/-- Some key or string in the value holds a surrogate. -/
def surrogates : Json → Bool
  | str s => s.surrogates
  | other s => s.surrogates
  | list items => itemsSurrogates items
  | dict entries => entriesSurrogates entries
  | _ => false

/-- A text within a list has a surrogate. -/
def itemsSurrogates : List Json → Bool
  | [] => false
  | value :: items => surrogates value || itemsSurrogates items

/-- A key of a dictionary, or a text within its values, has a surrogate. -/
def entriesSurrogates : List (Text × Json) → Bool
  | [] => false
  | (key, value) :: entries => (key.surrogates || surrogates value) || entriesSurrogates entries

end

theorem surrogates_escape (c : CodePoint) : (escape c).surrogates = c.surrogate := by
  have hescapes : ∀ entry ∈ escapes, entry.1.surrogate = false := by decide
  have hdigit : ∀ n : ℕ, n < 16 → (hexDigit n).surrogate = false := by decide
  unfold escape
  split
  · rename_i s hs
    obtain ⟨l₁, l₂, hsplit, -⟩ := List.lookup_eq_some_iff.1 hs
    rw [Text.surrogates_text, hescapes (c, s) (hsplit ▸ by simp)]
  split
  · rename_i hc
    have hc' : c.surrogate = false := decide_eq_false fun h => by omega
    rw [Text.surrogates_append, Text.surrogates_text, Bool.false_or, hc', Text.surrogates,
      List.any_cons, List.any_cons, List.any_nil, hdigit _ (by omega), hdigit _ (by omega)]
    rfl
  · exact Bool.or_false _

theorem surrogates_quote (s : Text) : (quote s).surrogates = s.surrogates := by
  rw [quote, Text.surrogates_append, Text.surrogates_append, Text.surrogates_text, Bool.false_or,
    Bool.or_false, Text.surrogates_flatten, List.any_map, Text.surrogates]
  exact List.any_congr rfl surrogates_escape

mutual

/-- The serialised value holds a surrogate exactly if a key or a string of it does. -/
theorem surrogates_dumps (value : Json) : (dumps value).surrogates = surrogates value := by
  cases value with
  | null => exact Text.surrogates_text _
  | bool b => cases b <;> exact Text.surrogates_text _
  | int n => exact Text.surrogates_text _
  | float repr => exact Text.surrogates_text _
  | str s => exact surrogates_quote s
  | other s => exact surrogates_quote s
  | list items =>
    rw [dumps, Text.surrogates_append, Text.surrogates_append, Text.surrogates_text,
      Bool.false_or, Text.surrogates_text, Bool.or_false,
      Text.surrogates_join (Text.surrogates_text _), surrogates_dumpsItems, surrogates]
  | dict entries =>
    rw [dumps, Text.surrogates_append, Text.surrogates_append, Text.surrogates_text,
      Bool.false_or, Text.surrogates_text, Bool.or_false,
      Text.surrogates_join (Text.surrogates_text _), List.any_map,
      (List.perm_insertionSort _ _).any_eq, surrogates, ← surrogates_dumpsEntries]
    refine List.any_congr rfl fun entry => ?_
    rw [Function.comp_apply, Text.surrogates_append, Text.surrogates_append, surrogates_quote,
      Text.surrogates_text, Bool.or_false]

theorem surrogates_dumpsItems (items : List Json) :
    (dumpsItems items).any Text.surrogates = itemsSurrogates items := by
  cases items with
  | nil => rfl
  | cons value items =>
    rw [dumpsItems, List.any_cons, surrogates_dumps, surrogates_dumpsItems, itemsSurrogates]

theorem surrogates_dumpsEntries (entries : List (Text × Json)) :
    (dumpsEntries entries).any (fun entry => entry.1.surrogates || entry.2.surrogates) =
      entriesSurrogates entries := by
  cases entries with
  | nil => rfl
  | cons entry entries =>
    obtain ⟨key, value⟩ := entry
    rw [dumpsEntries, List.any_cons, surrogates_dumps, surrogates_dumpsEntries, entriesSurrogates]

end

/-- The values of a dictionary without surrogates have none. -/
theorem surrogates_of_get {d : Dict} (hd : entriesSurrogates d = false) {key : Text} {value : Json}
    (h : d.get key = some value) : surrogates value = false := by
  induction d with
  | nil => cases h
  | cons entry d ih =>
    obtain ⟨key', value'⟩ := entry
    rw [entriesSurrogates, Bool.or_eq_false_iff, Bool.or_eq_false_iff] at hd
    rw [Dict.get, List.lookup_cons] at h
    split at h
    · cases h
      exact hd.1.2
    · exact ih hd.2 h

/-- `json.dumps(…).encode("utf-8")` fails exactly on values that hold a surrogate. -/
theorem encode_dumps_isSome (value : Json) :
    (dumps value).encode.isSome = !surrogates value := by
  rw [Text.encode_isSome, surrogates_dumps]

end Json

end Python
