import ForgejoMcp.Client.Requests
import ForgejoMcp.Python.Quote

/-!
# Checks of arguments

The helpers of the client that check an argument and normalise it.
-/

namespace ForgejoMcp.Client

open Python

/-- A C0 control character or DEL. -/
def control (c : CodePoint) : Bool := decide (c.val < 32 ∨ c.val = 127)

/-- One dot. -/
def dot : Text := text "."

/-- Two dots. -/
def dotDot : Text := text ".."

/-- The checks of a name: not empty, no dot segment, at most so long, no control character. -/
def validName (maxLength : ℕ) (name : Text) : Bool :=
  decide (name ≠ [] ∧ name ≠ dot ∧ name ≠ dotDot ∧ name.length ≤ maxLength) && !name.any control

/-- `_ref_value`. -/
def refValue (value : Text) (label : String) (maxLength : ℕ) : Except Failure Text :=
  let normalized := value.strip
  if validName maxLength normalized then .ok normalized
  else .error (.validationFailed (label ++ " is invalid"))

/-- The checks of a path that is stripped. -/
def validPath (path : Text) : Bool :=
  decide (path ≠ [] ∧ path.length ≤ 1024 ∧ path.head? ≠ some 0x2F) &&
    !(path.split 0x2F).any (fun segment => segment == dot || segment == dotDot) &&
    !path.any control

/-- `_file_path`. -/
def filePath (value : Text) : Except Failure Text :=
  let normalized := value.strip
  if validPath normalized then .ok normalized else .error (.validationFailed "path is invalid")

/-- `_repository_name`. -/
def repositoryName (value : Text) (label : String) : Except Failure Text :=
  let normalized := value.strip
  if validName 255 normalized ∧ (0x2F : CodePoint) ∉ normalized then .ok normalized
  else .error (.validationFailed (label ++ " is invalid"))

/-- `quote(s, safe=safe)`, as far as it raises. -/
def quoted (s safe : Text) : Except Failure Text :=
  match s.quote safe with
  | some q => .ok q
  | none => .error .unicodeEncodeError

/-- `_repository_segment`. -/
def repositorySegment (value : Text) (label : String) : Except Failure Text := do
  quoted (← repositoryName value label) []

/-- `_validate_page`. -/
def validatePage (page limit : ℤ) : Except Failure Unit :=
  if page < 1 ∨ 100000 < page then
    .error (.validationFailed "page must be between 1 and 100000")
  else if limit < 1 ∨ 100 < limit then
    .error (.validationFailed "limit must be between 1 and 100")
  else .ok ()

/-- `_search_value`. -/
def searchValue (value : Text) : Except Failure Text :=
  let normalized := value.strip
  if normalized = [] ∨ 256 < normalized.length then .error (.validationFailed "query is invalid")
  else .ok normalized

/-- An item of `_string_list`. -/
def stringItem (label : String) (value : Text) : Except Failure Text :=
  let normalized := value.strip
  if normalized = [] ∨ 255 < normalized.length then
    .error (.validationFailed (label ++ " contains an invalid value"))
  else .ok normalized

/-- `_string_list`. -/
def stringList (values : List Text) (label : String) (maximum : ℕ) : Except Failure (List Text) :=
  if maximum < values.length then
    .error (.validationFailed (label ++ " contains too many items"))
  else values.mapM (stringItem label)

/-! ### Accepted arguments -/

variable {value a : Text} {label : String} {maxLength : ℕ}

theorem refValue_eq_ok :
    refValue value label maxLength = .ok a ↔ validName maxLength value.strip ∧ a = value.strip :=
  ite_eq_ok

theorem filePath_eq_ok : filePath value = .ok a ↔ validPath value.strip ∧ a = value.strip :=
  ite_eq_ok

theorem repositoryName_eq_ok : repositoryName value label = .ok a ↔
    (validName 255 value.strip ∧ (0x2F : CodePoint) ∉ value.strip) ∧ a = value.strip :=
  ite_eq_ok

theorem quoted_eq_ok {s safe q : Text} : quoted s safe = .ok q ↔ s.quote safe = some q := by
  unfold quoted
  split <;> simp_all

theorem repositorySegment_eq_ok {q : Text} : repositorySegment value label = .ok q ↔
    (validName 255 value.strip ∧ (0x2F : CodePoint) ∉ value.strip) ∧
      value.strip.quote [] = some q := by
  rw [repositorySegment, bind_eq_ok]
  simp only [repositoryName_eq_ok, quoted_eq_ok]
  constructor
  · rintro ⟨name, ⟨hname, rfl⟩, hq⟩
    exact ⟨hname, hq⟩
  · rintro ⟨hname, hq⟩
    exact ⟨_, ⟨hname, rfl⟩, hq⟩

theorem validatePage_eq_ok {page limit : ℤ} (h : validatePage page limit = .ok ()) :
    (1 ≤ page ∧ page ≤ 100000) ∧ 1 ≤ limit ∧ limit ≤ 100 := by
  unfold validatePage at h
  split at h
  · cases h
  split at h
  · cases h
  · omega

theorem validName_ne_dot {name : Text} (h : validName maxLength name = true) :
    name ≠ dot ∧ name ≠ dotDot := by
  simp only [validName, Bool.and_eq_true, decide_eq_true_eq] at h
  exact ⟨h.1.2.1, h.1.2.2.1⟩

theorem validPath_ne_dot {path segment : Text} (h : validPath path = true)
    (hsegment : segment ∈ path.split 0x2F) : segment ≠ dot ∧ segment ≠ dotDot := by
  simp only [validPath, Bool.and_eq_true, Bool.not_eq_true', List.any_eq_false, Bool.or_eq_true,
    beq_iff_eq, not_or] at h
  exact h.1.2 segment hsegment

end ForgejoMcp.Client
