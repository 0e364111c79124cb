import ForgejoMcp.Audit.Patterns
import ForgejoMcp.Python.Json

/-!
# Redaction of tool arguments

`redact_arguments` and `extract_target` of `audit/redaction.py`.  What is kept of two trees of
arguments that differ in secrets only is the same.
-/

namespace ForgejoMcp.Audit

open Python

/-! ### Functions -/

/-- What a text is cut off with. -/
def truncation : Text := text "…[TRUNCATED]"

/-- `_bounded_text`. -/
def boundedText (value : Text) (limit : ℕ) : Text :=
  if value.length ≤ limit then value else value.take limit ++ truncation

/-- `hexdigest()` of a digest. -/
def hexdigest (digest : List UInt8) : Text :=
  digest.flatMap fun b => [Json.hexDigit (b.toNat / 16), Json.hexDigit (b.toNat % 16)]

/-- The path of the contents of a commit's changes; the items of a list have the path of the list. -/
def contentPath : List Text := [text "changes", text "content"]

variable (u : Unicode) (sha256 : List UInt8 → List UInt8) (limit : ℕ)

/-- `redact` of a string. -/
def redactString (path : List Text) (value : Text) : Option (Json × Bool) :=
  if path = contentPath then do
    let contentBytes ← value.encode
    return (.dict [(text "redacted", .bool true), (text "bytes", .int contentBytes.length),
      (text "sha256", .str (hexdigest (sha256 contentBytes)))], true)
  else
    let sanitized := redactText u value
    if limit < sanitized.length then some (.str (sanitized.take limit ++ truncation), true)
    else some (.str sanitized, false)

mutual

/-- `redact`, with whether it sets `truncated`; `none` when it raises. -/
def redact (key : Option Text) (path : List Text) (value : Json) : Option (Json × Bool) :=
  if key.any (sensitiveKey u) then some (.str redacted, false)
  else
    match value with
    | .dict entries => do
      let (entries, truncated) ← redactEntries path entries
      return (.dict entries, truncated)
    | .list items => do
      let (items, truncated) ← redactItems path items
      return (.list items, truncated)
    | .str value => redactString u sha256 limit path value
    | .other _ => some (.str (text "[UNSUPPORTED VALUE]"), false)
    | value => some (value, false)

/-- The items of a list, redacted. -/
def redactItems (path : List Text) : List Json → Option (List Json × Bool)
  | [] => some ([], false)
  | value :: items => do
    let (value, truncated) ← redact none path value
    let (items, truncated') ← redactItems path items
    return (value :: items, truncated || truncated')

/-- The entries of a dictionary, redacted, each under its own path. -/
def redactEntries (path : List Text) : List (Text × Json) → Option (List (Text × Json) × Bool)
  | [] => some ([], false)
  | (key, value) :: entries => do
    let (value, truncated) ← redact (some key) (path ++ [key]) value
    let (entries, truncated') ← redactEntries path entries
    return ((key, value) :: entries, truncated || truncated')

end

/-- `RedactionResult`. -/
structure RedactionResult where
  value : Dict
  truncated : Bool

/-- `redact_arguments`, `none` when it raises. -/
def redactArguments (arguments : Dict) : Option RedactionResult := do
  let (value, truncated) ← redactEntries u sha256 limit [] arguments
  return ⟨value, truncated⟩

/-- `_TARGET_TEXT_LIMIT`. -/
def targetTextLimit : ℕ := 512

/-- `_TARGET_FIELDS`. -/
def targetFields : List Text := ["organization", "owner", "repo", "number", "run_id", "job_id",
  "attempt", "workflow_id", "path", "ref", "sha", "base", "head"].map text

/-- `extract_target`. -/
def extractTarget (arguments : Dict) : Dict :=
  targetFields.filterMap fun field =>
    match arguments.get field with
    | some (.str value) => some (field, .str (boundedText (redactText u value) targetTextLimit))
    | some (.int n) => some (field, .int n)
    | _ => none

/-! ### Arguments that differ in secrets only -/

mutual

/-- Values at a path that differ only in what is under sensitive keys and in contents of changes
that have the same length and digest. -/
inductive Alike : List Text → Json → Json → Prop
  | refl (path : List Text) (value : Json) : Alike path value value
  | content {s s' : Text} {bytes bytes' : List UInt8} (encode : s.encode = some bytes)
      (encode' : s'.encode = some bytes') (length : bytes.length = bytes'.length)
      (digest : sha256 bytes = sha256 bytes') : Alike contentPath (.str s) (.str s')
  | list {path : List Text} {items items' : List Json} (alike : AlikeItems path items items') :
      Alike path (.list items) (.list items')
  | dict {path : List Text} {entries entries' : Dict} (alike : AlikeEntries path entries entries') :
      Alike path (.dict entries) (.dict entries')

/-- Lists of the same length with alike items. -/
inductive AlikeItems : List Text → List Json → List Json → Prop
  | nil (path : List Text) : AlikeItems path [] []
  | cons {path : List Text} {value value' : Json} {items items' : List Json}
      (head : Alike path value value') (tail : AlikeItems path items items') :
      AlikeItems path (value :: items) (value' :: items')

/-- Dictionaries with the same keys whose values are alike, or stand under sensitive keys. -/
inductive AlikeEntries : List Text → Dict → Dict → Prop
  | nil (path : List Text) : AlikeEntries path [] []
  | sensitive {path : List Text} {key : Text} {entries entries' : Dict} (value value' : Json)
      (sensitive : sensitiveKey u key = true) (tail : AlikeEntries path entries entries') :
      AlikeEntries path ((key, value) :: entries) ((key, value') :: entries')
  | cons {path : List Text} {key : Text} {value value' : Json} {entries entries' : Dict}
      (head : Alike (path ++ [key]) value value') (tail : AlikeEntries path entries entries') :
      AlikeEntries path ((key, value) :: entries) ((key, value') :: entries')

end

variable {u sha256}

theorem redact_of_sensitive {key : Option Text} (h : key.any (sensitiveKey u) = true)
    (path : List Text) (value : Json) :
    redact u sha256 limit key path value = some (.str redacted, false) := by
  cases value <;> rw [redact, if_pos h] <;> (intros; contradiction)

theorem redactString_of_content {s : Text} {bytes : List UInt8} (h : s.encode = some bytes) :
    redactString u sha256 limit contentPath s =
      some (.dict [(text "redacted", .bool true), (text "bytes", .int bytes.length),
        (text "sha256", .str (hexdigest (sha256 bytes)))], true) := by
  rw [redactString, if_pos rfl, h]
  rfl

mutual

theorem redact_congr {path : List Text} {value value' : Json} (h : Alike u sha256 path value value')
    (key : Option Text) :
    redact u sha256 limit key path value = redact u sha256 limit key path value' := by
  cases h with
  | refl => rfl
  | content encode encode' length digest =>
    rw [redact, redact, redactString_of_content limit encode, redactString_of_content limit encode',
      length, digest]
  | list alike => rw [redact, redact, redactItems_congr alike]
  | dict alike => rw [redact, redact, redactEntries_congr alike]

theorem redactItems_congr {path : List Text} {items items' : List Json}
    (h : AlikeItems u sha256 path items items') :
    redactItems u sha256 limit path items = redactItems u sha256 limit path items' := by
  cases h with
  | nil => rfl
  | cons head tail => rw [redactItems, redactItems, redact_congr head, redactItems_congr tail]

theorem redactEntries_congr {path : List Text} {entries entries' : Dict}
    (h : AlikeEntries u sha256 path entries entries') :
    redactEntries u sha256 limit path entries = redactEntries u sha256 limit path entries' := by
  cases h with
  | nil => rfl
  | @sensitive _ key _ _ value value' sensitive tail =>
    have hkey : (some key).any (sensitiveKey u) = true := sensitive
    rw [redactEntries, redactEntries, redact_of_sensitive limit hkey, redact_of_sensitive limit hkey,
      redactEntries_congr tail]
  | cons head tail =>
    rw [redactEntries, redactEntries, redact_congr head, redactEntries_congr tail]

end

/-- The result of a redaction, value and flag, depends on no secret. -/
theorem redactArguments_eq_of_alike {arguments arguments' : Dict}
    (h : AlikeEntries u sha256 [] arguments arguments') :
    redactArguments u sha256 limit arguments = redactArguments u sha256 limit arguments' := by
  rw [redactArguments, redactArguments, redactEntries_congr limit h]

/-- The digest of the content `a`. -/
def sampleDigest : List UInt8 := [
  0xca, 0x97, 0x81, 0x12, 0xca, 0x1b, 0xbd, 0xca, 0xfa, 0xc2, 0x31,
  0xb3, 0x9a, 0x23, 0xdc, 0x4d, 0xa7, 0x86, 0xef, 0xf8, 0x14, 0x7c,
  0x4e, 0x72, 0xb9, 0x80, 0x77, 0x85, 0xaf, 0xee, 0x48, 0xbb]

theorem redactArguments_eq_of_alike_sample :
    redactArguments .ascii (fun _ => sampleDigest) 4096 [(text "apiKey", .int 1),
        (text "changes", .list [.dict [(text "content", .str (text "a"))]])] =
      redactArguments .ascii (fun _ => sampleDigest) 4096 [(text "apiKey", .str (text "x")),
        (text "changes", .list [.dict [(text "content", .str (text "a"))]])] :=
  redactArguments_eq_of_alike 4096 (.sensitive _ _ (by decide +kernel) (.cons (.list (.cons (.dict
    (.cons (.content rfl rfl rfl rfl) (.nil _))) (.nil _))) (.nil _)))

end ForgejoMcp.Audit
