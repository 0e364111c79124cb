import ForgejoMcp.Python.Json

/-!
# Summaries of tool results

`summarize_result` of `audit/redaction.py`.  It serialises the whole result and encodes it, which
fails on a result that holds a surrogate.
-/

namespace ForgejoMcp.Audit

open Python

/-- `key.endswith(end)`. -/
def endsWith (key : Text) (ending : String) : Bool := (text ending).isSuffixOf key

/-- The size and hash of a text field of the result. -/
def contentSummary (sha256 : List UInt8 → String) (result : Dict) (contentField : String) :
    Option Dict :=
  match result.get (text contentField) with
  | some (.str content) => do
    let contentBytes ← content.encode
    return [(text (contentField ++ "_bytes"), .int contentBytes.length),
      (text (contentField ++ "_sha256"), .str (text (sha256 contentBytes)))]
  | _ => some []

/-- `summarize_result`, `none` when it raises. -/
def summarizeResult (sha256 : List UInt8 → String) (result : Dict) : Option (Dict × Bool) := do
  let encoded ← (Json.dumps (.dict result)).encode
  let items := (result.get (text "items")).or (result.get (text "entries"))
  let count : Dict := match items with
    | some (.list items) => [(text "item_count", .int items.length)]
    | _ => []
  let content ← contentSummary sha256 result "content"
  let diff ← contentSummary sha256 result "diff"
  let truncated := result.any fun
    | (key, .bool true) => endsWith key "_truncated" || key == text "truncated"
    | _ => false
  return ([(text "response_bytes", .int encoded.length),
    (text "returned_keys", .list (result.sorted.map .str))] ++ count ++ content ++ diff, truncated)

variable {sha256 : List UInt8 → String} {result : Dict}

theorem contentSummary_isSome (sha256 : List UInt8 → String)
    (h : Json.entriesSurrogates result = false) (contentField : String) :
    (contentSummary sha256 result contentField).isSome = true := by
  unfold contentSummary
  split
  · rename_i content hget
    have hsurrogates : content.surrogates = false := Json.surrogates_of_get h hget
    have hencode := Text.encode_isSome content
    rw [hsurrogates] at hencode
    obtain ⟨bytes, hbytes⟩ := Option.isSome_iff_exists.1 hencode
    rw [hbytes]
    rfl
  · rfl

/-- A result is summarised unless it holds a surrogate. -/
theorem summarizeResult_isSome :
    (summarizeResult sha256 result).isSome = !Json.entriesSurrogates result := by
  have hencode : (Json.dumps (.dict result)).encode.isSome = !Json.entriesSurrogates result :=
    Json.encode_dumps_isSome _
  unfold summarizeResult
  cases he : (Json.dumps (.dict result)).encode with
  | none => rw [← hencode, he]; rfl
  | some encoded =>
    rw [he] at hencode
    have hsurrogates : Json.entriesSurrogates result = false := by simpa using hencode.symm
    obtain ⟨content, hcontent⟩ := Option.isSome_iff_exists.1
      (contentSummary_isSome sha256 hsurrogates "content")
    obtain ⟨diff, hdiff⟩ := Option.isSome_iff_exists.1
      (contentSummary_isSome sha256 hsurrogates "diff")
    rw [hsurrogates, hcontent, hdiff]
    rfl

end ForgejoMcp.Audit
