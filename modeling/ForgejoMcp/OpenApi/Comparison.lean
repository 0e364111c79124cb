import ForgejoMcp.OpenApi.Changes
import ForgejoMcp.Python.Str

/-!
# Comparison of OpenAPI documents

`_differences` of `scripts/compare_forgejo_openapi.py`.  It compares values with `==`, to which
`true` is `1` and `false` is `0`: it is faithful just where this confuses nothing.
-/

namespace ForgejoMcp.OpenApi

open Python

/-- `s.replace(c, new)`. -/
def replaceChar (s : Text) (c : CodePoint) (new : Text) : Text :=
  s.flatMap fun d => if d = c then new else [d]

/-- A key as `_join` writes it. -/
def escape (key : Text) : Text := replaceChar (replaceChar key 0x7E (text "~0")) 0x2F (text "~1")

/-- `_join`. -/
def join (pointer key : Text) : Text := pointer ++ 0x2F :: escape key

/-- An item of the report. -/
structure Difference where
  pointer : Text
  delta : Delta

/-- `pointer or "/"`. -/
def orRoot (pointer : Text) : Text := if pointer = [] then text "/" else pointer

mutual

/-- `_differences`.  Lists are compared like values that are no containers. -/
def differences : Value → Value → Text → List Difference
  | .dict before, .dict after, pointer =>
    (byKey (without before after)).map (fun entry => ⟨join pointer entry.1, .removed entry.2⟩) ++
    (byKey (without after before)).map (fun entry => ⟨join pointer entry.1, .added entry.2⟩) ++
    (byKey (commonDifferences before after pointer)).flatMap Prod.snd
  | before, after, pointer =>
    if before.pyEq after then [] else [⟨orRoot pointer, .changed before after⟩]

/-- The differences at the keys that both dictionaries have. -/
def commonDifferences : List (Text × Value) → List (Text × Value) → Text →
    List (Text × List Difference)
  | [], _, _ => []
  | (key, value) :: before, after, pointer =>
    match after.lookup key with
    | some value' =>
      (key, differences value value' (join pointer key)) :: commonDifferences before after pointer
    | none => commonDifferences before after pointer

end

/-! ### Pointers -/

/-- The pointer to the end of a path of keys. -/
def pointerFrom (pointer : Text) (path : List Text) : Text := path.foldl join pointer

theorem pointerFrom_eq (pointer : Text) (path : List Text) :
    pointerFrom pointer path = pointer ++ path.flatMap fun key => 0x2F :: escape key := by
  induction path generalizing pointer with
  | nil => exact (List.append_nil pointer).symm
  | cons key path ih =>
    rw [pointerFrom, List.foldl_cons, ← pointerFrom, ih, join, List.flatMap_cons, List.append_assoc]

/-- A key that a pointer names, as it was before it was written. -/
def unescape : Text → Text
  | [] => []
  | [c] => [c]
  | c :: d :: s =>
    if c = 0x7E ∧ d = 0x30 then 0x7E :: unescape s
    else if c = 0x7E ∧ d = 0x31 then 0x2F :: unescape s
    else c :: unescape (d :: s)

/-- The keys of a pointer. -/
def keysOf : Text → Option (List Text)
  | [] => some []
  | c :: rest => if c = 0x2F then some ((Text.split rest 0x2F).map unescape) else none

theorem escape_cons (c : CodePoint) (key : Text) : escape (c :: key) =
    (if c = 0x7E then text "~0" else if c = 0x2F then text "~1" else [c]) ++ escape key := by
  rw [escape, replaceChar, replaceChar, List.flatMap_cons, List.flatMap_append]
  congr 1
  split
  · decide
  · simp

theorem not_mem_escape (key : Text) : (0x2F : CodePoint) ∉ escape key := by
  induction key with
  | nil => exact List.not_mem_nil
  | cons c key ih =>
    rw [escape_cons, List.mem_append, not_or]
    refine ⟨?_, ih⟩
    split
    · decide
    split
    · decide
    · rename_i hslash
      simpa using Ne.symm hslash

theorem unescape_escape (key : Text) : unescape (escape key) = key := by
  induction key with
  | nil => rfl
  | cons c key ih =>
    rw [escape_cons]
    split
    · rename_i hc
      rw [hc]
      exact congrArg _ ih
    split
    · rename_i hc
      rw [hc]
      exact congrArg _ ih
    · rename_i htilde hslash
      rw [List.singleton_append]
      cases hkey : escape key with
      | nil =>
        rw [← ih, hkey]
        rfl
      | cons d s =>
        rw [unescape, if_neg fun h => htilde h.1, if_neg fun h => htilde h.1, ← hkey, ih]

/-- A pointer names the keys that it was written of. -/
theorem keysOf_pointerFrom (path : List Text) : keysOf (pointerFrom [] path) = some path := by
  rw [pointerFrom_eq, List.nil_append]
  cases path with
  | nil => rfl
  | cons key path =>
    have hjoin : (key :: path).flatMap (fun key => 0x2F :: escape key) =
        0x2F :: Text.join [0x2F] ((key :: path).map escape) := by
      induction path generalizing key with
      | nil => simp [Text.join]
      | cons next path ih =>
        rw [List.flatMap_cons, ih, List.map_cons (l := next :: path), List.map_cons, Text.join]
        simp
    have hsplit : (Text.join [0x2F] ((key :: path).map escape)).split 0x2F =
        (key :: path).map escape := by
      refine Text.split_join_iff.2 ⟨List.cons_ne_nil _ _, fun s hs => ?_⟩
      obtain ⟨k, -, rfl⟩ := List.mem_map.1 hs
      exact not_mem_escape k
    rw [hjoin, keysOf, if_pos rfl, hsplit, List.map_map]
    have hid : unescape ∘ escape = id := funext unescape_escape
    rw [hid, List.map_id]

theorem pointerFrom_injective : Function.Injective (pointerFrom []) := fun path path' h => by
  have hkeys := congrArg keysOf h
  rw [keysOf_pointerFrom, keysOf_pointerFrom] at hkeys
  exact Option.some.inj hkeys

/-! ### The report and the changes -/

/-- A change as the report has it. -/
def Change.report (pointer : Text) (c : Change) : Difference :=
  ⟨orRoot (pointerFrom pointer c.path), c.delta⟩

theorem join_ne_nil (pointer key : Text) : join pointer key ≠ [] :=
  List.append_ne_nil_of_right_ne_nil _ (List.cons_ne_nil _ _)

theorem report_under (pointer key : Text) (c : Change) :
    Change.report pointer ⟨key :: c.path, c.delta⟩ = c.report (join pointer key) := rfl

theorem report_singleton (pointer key : Text) (delta : Delta) :
    Change.report pointer ⟨[key], delta⟩ = ⟨join pointer key, delta⟩ := by
  rw [Change.report, orRoot, if_neg (by exact join_ne_nil pointer key)]
  rfl

theorem byKey_map {β γ : Type} (f : Text → β → γ) (l : List (Text × β)) :
    byKey (l.map fun entry => (entry.1, f entry.1 entry.2)) =
      (byKey l).map fun entry => (entry.1, f entry.1 entry.2) :=
  (List.map_insertionSort (fun a b : Text × β => a.1 ≤ b.1) (fun a b : Text × γ => a.1 ≤ b.1)
    (fun entry : Text × β => (entry.1, f entry.1 entry.2)) l fun _ _ _ _ => Iff.rfl).symm

/-- The report lists the changes. -/
theorem differences_eq (v w : Value) (pointer : Text) :
    differences v w pointer = (changes v w).map (Change.report pointer) := by
  induction v using Value.induct generalizing w pointer with
  | scalar | list =>
    rw [differences, changes]
    · split <;> rfl
    all_goals
      intros
      contradiction
  | dict d ih =>
    cases w with
    | scalar | list =>
      rw [differences, changes]
      · split <;> rfl
      all_goals
        intros
        contradiction
    | dict e =>
      have hcommon : commonDifferences d e pointer = (commonChanges d e).map fun entry =>
          (entry.1, entry.2.map (Change.report (join pointer entry.1))) := by
        induction d with
        | nil => rfl
        | cons entry d ihd =>
          obtain ⟨key, v⟩ := entry
          have htail := ihd fun key v hv => ih key v (List.mem_cons_of_mem _ hv)
          rw [commonDifferences, commonChanges]
          cases e.lookup key with
          | none => exact htail
          | some w =>
            rw [List.map_cons, ← htail, ← ih key v List.mem_cons_self]
      rw [differences, changes, hcommon,
        byKey_map fun key cs => List.map (Change.report (join pointer key)) cs]
      simp only [List.map_append, List.map_map, List.map_flatMap, List.flatMap_map,
        Function.comp_def, report_singleton, report_under]

/-! ### What the report is for -/

/-- A document: an object whose objects have each key once. -/
structure Document where
  entries : List (Text × Value)
  wellFormed : (Value.dict entries).wellFormed = true

/-- The document as a value. -/
def Document.value (d : Document) : Value := .dict d.entries

/-- The additions, removals and changes of a report, made one after the other. -/
def applyReport (ds : List Difference) (v : Option Value) : Option Value :=
  ds.foldl (fun v d =>
    match keysOf d.pointer with
    | some path => replaceAt path d.delta.after? v
    | none => v) v

/-- The report on two documents says just how they differ. -/
structure Faithful (before after : Document) : Prop where
  empty_iff : differences before.value after.value [] = [] ↔ before.value.jsonEq after.value = true
  distinct : ((differences before.value after.value []).map Difference.pointer).Nodup
  located : ∀ d ∈ differences before.value after.value [], ∃ path,
    (∀ path', pointerFrom [] path' = d.pointer ↔ path' = path) ∧
      follow path (some before.value) = d.delta.before? ∧
      follow path (some after.value) = d.delta.after?
  applied : ∃ v, applyReport (differences before.value after.value []) (some before.value) = some v ∧
    v.jsonEq after.value = true

variable {before after : Document}

/-- At the top there are objects, so that no pointer is empty. -/
theorem pointer_report {c : Change} (hc : c ∈ changes before.value after.value) :
    (c.report []).pointer = pointerFrom [] c.path := by
  refine if_neg fun hnil => ?_
  obtain ⟨key, path, hpath⟩ := List.exists_cons_of_ne_nil (path_ne_nil c hc)
  rw [hpath, pointerFrom_eq] at hnil
  cases hnil

theorem applyReport_differences : applyReport (differences before.value after.value [])
    (some before.value) = patch (changes before.value after.value) (some before.value) := by
  rw [differences_eq, applyReport, patch, List.foldl_map]
  refine List.foldl_ext _ _ _ fun v c hc => ?_
  rw [pointer_report hc, keysOf_pointerFrom]
  rfl

theorem pointers_differences : (differences before.value after.value []).map Difference.pointer =
    ((changes before.value after.value).map Change.path).map (pointerFrom []) := by
  rw [differences_eq, List.map_map, List.map_map]
  exact List.map_congr_left fun c hc => pointer_report hc

/-- **The report is faithful just where `==` confuses nothing**: no two values at the same place
that Python takes for equal hold a boolean and the number it is taken for. -/
theorem differences_faithful_iff (before after : Document) :
    Faithful before after ↔ Separable before.value after.value := by
  have hv : before.value.wellFormed = true := before.wellFormed
  have hw : after.value.wellFormed = true := after.wellFormed
  constructor
  · intro h
    obtain ⟨v, hpatch, hjson⟩ := h.applied
    rw [applyReport_differences] at hpatch
    exact separable_of_patch hv hw (hpatch ▸ .some hjson)
  · intro h
    obtain ⟨v, hpatch, hjson⟩ : ∃ v, patch (changes before.value after.value)
        (some before.value) = some v ∧ v.jsonEq after.value = true := by
      have hrel := patch_changes hv hw h
      generalize hresult : patch (changes before.value after.value) (some before.value) = result
        at hrel
      cases hrel with
      | some hjson => exact ⟨_, rfl, hjson⟩
    refine ⟨⟨fun hnil => ?_, fun heq => ?_⟩, ?_, fun d hd => ?_, v, ?_, hjson⟩
    · rw [differences_eq, List.map_eq_nil_iff] at hnil
      rw [hnil] at hpatch
      rwa [Option.some.inj hpatch]
    · rw [differences_eq, changes_eq_nil hv hw (Value.pyEq_of_jsonEq hv hw heq), List.map_nil]
    · rw [pointers_differences]
      exact (nodup_paths hv hw).map pointerFrom_injective
    · rw [differences_eq] at hd
      obtain ⟨c, hc, rfl⟩ := List.mem_map.1 hd
      refine ⟨c.path, fun path' => ?_, follow_of_mem_changes hv hw c hc⟩
      rw [pointer_report hc]
      exact pointerFrom_injective.eq_iff
    · rw [applyReport_differences, hpatch]

/-- The document with one key. -/
def singleDocument (key : Text) (s : Scalar) : Document := ⟨[(key, .scalar s)], rfl⟩

/-- A boolean that becomes a number is not reported. -/
theorem differences_not_faithful : ¬∀ before after, Faithful before after := fun h =>
  absurd ((h (singleDocument (text "a") (.bool true)) (singleDocument (text "a") (.int 1))).empty_iff.1
    (by decide +kernel)) (by decide +kernel)

end ForgejoMcp.OpenApi
