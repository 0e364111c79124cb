import ForgejoMcp.Client.Validation
import ForgejoMcp.Python.Base64
import ForgejoMcp.Transactions.Run

/-!
# File contents and commits

`get_file_content` reads a file as text or as Base64, and `commit_changes` writes files back.  What was
read can be written back as it was, and a commit sends all of its changes or nothing.
-/

namespace ForgejoMcp.Client

open Python Transactions

/-- The limits of the client. -/
structure Limits where
  commitMaxFiles : ℕ
  commitMaxTotalBytes : ℕ

/-- `MAX_FILE_CONTENT_BYTES`. -/
def maxFileContentBytes : ℕ := 1024 * 1024

/-- `_repo_endpoint`. -/
def repoEndpoint (c : Connection) (owner repo suffix : Text) : Except Failure Text := do
  let ownerPath ← repositorySegment owner "owner"
  let repoPath ← repositorySegment repo "repository"
  return c.baseUrl ++ text "/api/v1/repos/" ++ ownerPath ++ text "/" ++ repoPath ++ text "/" ++
    suffix

/-- The query of an optional ref. -/
def refParams : Option Text → Except Failure (Option Dict)
  | none => .ok none
  | some ref => do return some [(text "ref", .str (← refValue ref "ref" 255))]

/-! ### Reading -/

/-- The content of a file that is returned. -/
structure FileContent where
  path : Text
  name : Text
  sha : Text
  ref : Option Text
  size : ℕ
  encoding : String
  content : Text
  htmlUrl : Option Text

/-- The failure for a response that is no content of a file. -/
def invalidContent : Failure :=
  .externalServiceUnavailable "Forgejo returned an invalid file content response"

/-- The content of a file as text, or else as Base64. -/
def outputContent (decoded : List UInt8) : Text × String :=
  match Text.decode decoded with
  | some content => (content, "utf-8")
  | none => (b64encode decoded, "base64")

/-- The string of a field that may be missing. -/
def optionalString : Option Json → Except Failure (Option Text)
  | none | some .null => .ok none
  | some (.str s) => .ok (some s)
  | _ => .error invalidContent

/-- The bytes that the payload of a file serves. -/
def servedBytes (payload : Dict) : Except Failure (List UInt8) :=
  match payload.get (text "content"), payload.get (text "encoding") with
  | some (.str encoded), some (.str encoding) =>
    match b64decode encoded with
    | some decoded => if encoding = text "base64" then .ok decoded else .error invalidContent
    | none => .error invalidContent
  | _, _ => .error invalidContent

/-- The part of `get_file_content` after the response. -/
def fileContent (path : Text) (ref : Option Text) (payload : Dict) : Except Failure FileContent := do
  let decoded ← servedBytes payload
  if maxFileContentBytes < decoded.length then
    .error (.externalServiceUnavailable "Forgejo file content is too large")
  else
    let output := outputContent decoded
    match payload.get (text "name"), payload.get (text "sha"), payload.get (text "size") with
    | some (.str name), some (.str sha), some (.int size) =>
      if size ≠ decoded.length then .error invalidContent
      else do
        let htmlUrl ← optionalString (payload.get (text "html_url"))
        return {
          path := path
          name := name
          sha := sha
          ref := ref
          size := decoded.length
          encoding := output.2
          content := output.1
          htmlUrl := htmlUrl }
    | some (.str _), some (.str _), some (.bool size) =>
      -- a `bool` is an `int`, but the model of the result is strict
      if size.toNat ≠ decoded.length then .error invalidContent
      else do
        let _ ← optionalString (payload.get (text "html_url"))
        .error .typeError
    | _, _, _ => .error invalidContent

/-- A payload that has to be an object. -/
def objectPayload : Json → Except Failure Dict
  | .dict payload => .ok payload
  | _ => .error invalidContent

/-- `get_file_content`. -/
def getFileContent (c : Connection) (owner repo path : Text) (ref : Option Text) :
    P FileContent := do
  let normalizedPath ← check (filePath path)
  let params ← check (refParams ref)
  let quotedPath ← check (quoted normalizedPath [0x2F])
  let endpoint ← check (repoEndpoint c owner repo (text "contents/" ++ quotedPath))
  let payload ← getJson c endpoint params "file content"
  check (objectPayload payload >>= fileContent normalizedPath ref)

/-! ### Writing -/

/-- The operation of a change. -/
inductive Operation
  | create
  | update
  | delete
  deriving DecidableEq

/-- The text of an operation. -/
def Operation.name : Operation → Text
  | create => text "create"
  | update => text "update"
  | delete => text "delete"

/-- The operation of a change; a value that cannot be looked up in a set is a type error. -/
def operationOf (change : Dict) : Except Failure Operation :=
  match change.get (text "operation") with
  | some (.str name) =>
    if name = text "create" then .ok .create
    else if name = text "update" then .ok .update
    else if name = text "delete" then .ok .delete
    else .error (.validationFailed "file operation is invalid")
  | some (.list _) | some (.dict _) => .error .typeError
  | _ => .error (.validationFailed "file operation is invalid")

/-- An argument that has to be a string. -/
def stringArgument : Json → Except Failure Text
  | .str s => .ok s
  | _ => .error .typeError

/-- The entry of a key of the change that is checked, if the change has it. -/
def optionalEntry (change : Dict) (key : String) (f : Text → Except Failure Text) :
    Except Failure Dict :=
  match change.get (text key) with
  | none => .ok []
  | some value => do return [(text key, .str (← f (← stringArgument value)))]

/-- The decoded content of a change, and the Base64 text that is sent for it. -/
def changeContent (change : Dict) : Except Failure (List UInt8 × Text) :=
  match change.get (text "content") with
  | some (.str content) =>
    let encoding := (change.get (text "encoding")).getD (.str (text "utf-8"))
    match encoding with
    | .str encoding =>
      if encoding = text "utf-8" then
        match content.encode with
        | some decoded => .ok (decoded, b64encode decoded)
        | none => .error .unicodeEncodeError
      else if encoding = text "base64" then
        match b64decode content with
        | some decoded => .ok (decoded, content)
        | none => .error (.validationFailed "file content is not valid base64")
      else .error (.validationFailed "file encoding is invalid")
    | _ => .error (.validationFailed "file encoding is invalid")
  | _ => .error (.validationFailed "file content is required")

/-- The content entry of an operation. -/
def contentEntry (change : Dict) : Operation → Except Failure Dict
  | .delete => .ok []
  | _ => do
    let (decoded, encoded) ← changeContent change
    if maxFileContentBytes < decoded.length then
      .error (.validationFailed "file content is too large")
    else return [(text "content", .str encoded)]

/-- `_change_file_operation`. -/
def changeFileOperation (change : Dict) : Except Failure Dict := do
  let operation ← operationOf change
  let path ← filePath (← stringArgument ((change.get (text "path")).getD (.str [])))
  let sha ← optionalEntry change "sha" fun value => refValue value "file SHA" 64
  if operation ≠ .create ∧ sha = [] then
    .error (.validationFailed "file SHA is required for update or delete")
  else
    let fromPath ← optionalEntry change "from_path" filePath
    let content ← contentEntry change operation
    return [(text "operation", .str operation.name), (text "path", .str path)] ++ sha ++ fromPath ++
      content

/-- `_change_content_size`. -/
def changeContentSize (change : Dict) : Except Failure ℕ :=
  match change.get (text "operation") with
  | some (.str operation) =>
    if operation = text "delete" then .ok 0 else size
  | _ => size
where
  size : Except Failure ℕ :=
    match change.get (text "content") with
    | some (.str content) =>
      match (change.get (text "encoding")).getD (.str (text "utf-8")) with
      | .str encoding =>
        if encoding = text "utf-8" then
          match content.encode with
          | some decoded => .ok decoded.length
          | none => .error .unicodeEncodeError
        else base64Size content
      | _ => base64Size content
    | _ => .error (.validationFailed "file content is required")
  base64Size (content : Text) : Except Failure ℕ :=
    match b64decode content with
    | some decoded => .ok decoded.length
    | none => .error (.validationFailed "file content is not valid base64")

/-- `_commit_message`. -/
def commitMessage (value : Text) : Except Failure Text :=
  let normalized := value.strip
  if normalized ≠ [] ∧ normalized.length ≤ 65536 then .ok normalized
  else .error (.validationFailed "commit message is invalid")

/-- The entry of an optional branch. -/
def branchEntry (key label : String) : Option Text → Except Failure Dict
  | none => .ok []
  | some branch => do return [(text key, .str (← refValue branch label 255))]

/-- `commit_changes`, up to the parsing of its payload. -/
def commitChanges (limits : Limits) (c : Connection) (owner repo : Text)
    (branch newBranch : Option Text) (message : Text) (changes : List Dict) (signoff : Bool) :
    P Json := do
  Prog.rejectIf (changes = [] ∨ limits.commitMaxFiles < changes.length) (.validationFailed
    ("changes must contain between 1 and " ++ toString limits.commitMaxFiles ++ " operations"))
  let files ← check (changes.mapM changeFileOperation)
  let sizes ← check (changes.mapM changeContentSize)
  Prog.rejectIf (limits.commitMaxTotalBytes < sizes.sum)
    (.validationFailed "combined file change content is too large")
  let message ← check (commitMessage message)
  let branch ← check (branchEntry "branch" "branch" branch)
  let newBranch ← check (branchEntry "new_branch" "new branch" newBranch)
  let endpoint ← check (repoEndpoint c owner repo (text "contents"))
  writeJson "POST" c endpoint ([(text "files", .list (files.map .dict)),
    (text "message", .str message), (text "signoff", .bool signoff)] ++ branch ++ newBranch)
    "file changes" 201

/-! ### What is sent -/

section Changes

variable {change file : Dict} {operation : Operation} {decoded : List UInt8} {encoded : Text}

theorem operationOf_eq_ok (h : operationOf change = .ok operation) :
    change.get (text "operation") = some (.str operation.name) := by
  unfold operationOf at h
  split at h
  · rename_i name hname
    rw [hname]
    split at h
    · rename_i heq
      cases h
      rw [heq]
      rfl
    split at h
    · rename_i heq
      cases h
      rw [heq]
      rfl
    split at h
    · rename_i heq
      cases h
      rw [heq]
      rfl
    · cases h
  all_goals cases h

/-- The bytes that a change asks to write: its content in its encoding, by default UTF-8. -/
def changeBytes (change : Dict) : Option (List UInt8) :=
  match change.get (text "content") with
  | some (.str content) =>
    match (change.get (text "encoding")).getD (.str (text "utf-8")) with
    | .str encoding =>
      if encoding = text "utf-8" then content.encode
      else if encoding = text "base64" then b64decode content
      else none
    | _ => none
  | _ => none

/-- The text that is sent decodes to the bytes of the change, which were accounted for. -/
theorem changeContent_eq_ok (h : changeContent change = .ok (decoded, encoded)) :
    b64decode encoded = some decoded ∧ changeBytes change = some decoded ∧
      changeContentSize.size change = .ok decoded.length := by
  unfold changeContent at h
  unfold changeContentSize.size changeBytes
  split at h
  · dsimp only at h
    split at h
    · split at h
      · rename_i hutf8
        rw [if_pos hutf8, if_pos hutf8]
        split at h
        · rename_i hbytes
          cases h
          exact ⟨b64decode_b64encode _, hbytes, rfl⟩
        · cases h
      · rename_i hutf8
        rw [if_neg hutf8, if_neg hutf8]
        split at h
        · rename_i hbase64
          rw [if_pos hbase64]
          split at h
          · rename_i hbytes
            cases h
            unfold changeContentSize.base64Size
            rw [hbytes]
            exact ⟨rfl, rfl, rfl⟩
          · cases h
        · cases h
    · cases h
  · cases h

/-- An entry of a change is checked and keeps its key. -/
theorem optionalEntry_eq_ok {key : String} {f : Text → Except Failure Text} {entry : Dict}
    (h : optionalEntry change key f = .ok entry) :
    change.get (text key) = none ∧ entry = [] ∨ ∃ value checked,
      change.get (text key) = some (.str value) ∧ f value = .ok checked ∧
        entry = [(text key, .str checked)] := by
  unfold optionalEntry at h
  split at h
  · rename_i hnone
    exact .inl ⟨hnone, (Except.ok.inj h).symm⟩
  · rename_i argument hsome
    obtain ⟨value, hvalue, hentry⟩ := bind_eq_ok.1 h
    obtain ⟨checked, hchecked, hpure⟩ := bind_eq_ok.1 hentry
    cases argument <;> cases hvalue
    exact .inr ⟨_, checked, hsome, hchecked, (Except.ok.inj hpure).symm⟩

theorem optionalEntry_keys {key : String} {f : Text → Except Failure Text} {entry : Dict}
    (h : optionalEntry change key f = .ok entry) :
    entry = [] ∨ ∃ value, entry = [(text key, value)] := by
  rcases optionalEntry_eq_ok h with ⟨-, hentry⟩ | ⟨_, checked, -, -, hentry⟩
  · exact .inl hentry
  · exact .inr ⟨_, hentry⟩

theorem get_cons_self (key : Text) (value : Json) (rest : Dict) :
    Dict.get ((key, value) :: rest) key = some value := List.lookup_cons_self

theorem get_append_of_ne {entry rest : Dict} {key : String} {other : Text}
    (hentry : entry = [] ∨ ∃ value, entry = [(text key, value)]) (hne : other ≠ text key) :
    Dict.get (entry ++ rest) other = Dict.get rest other := by
  rcases hentry with rfl | ⟨value, rfl⟩
  · rfl
  · have hkey : (other == text key) = false := by simpa using hne
    rw [List.cons_append, List.nil_append, Dict.get, List.lookup_cons, hkey]
    rfl

theorem get_eq_none_of_ne {entry : Dict} {key : String} {other : Text}
    (hentry : entry = [] ∨ ∃ value, entry = [(text key, value)]) (hne : other ≠ text key) :
    Dict.get entry other = none := by
  have hget : Dict.get (entry ++ []) other = Dict.get [] other := get_append_of_ne hentry hne
  rwa [List.append_nil] at hget

/-- The file has the text that the change has under the key, without surrounding blanks, or both have
none. -/
def SameEntry (key : String) (change file : Dict) : Prop :=
  change.get (text key) = none ∧ file.get (text key) = none ∨
    ∃ value, change.get (text key) = some (.str value) ∧ file.get (text key) = some (.str value.strip)

/-- A file of the request does what its change says: it has the operation, the path, the SHA and the
source path of the change; a deletion has no content; any other content decodes to the bytes of the
change, of the accounted number; and there is nothing else in the file. -/
structure Carries (change file : Dict) : Prop where
  operation : file.get (text "operation") = change.get (text "operation")
  path : ∃ path, change.get (text "path") = some (.str path) ∧
    file.get (text "path") = some (.str path.strip)
  sha : SameEntry "sha" change file
  fromPath : SameEntry "from_path" change file
  content : change.get (text "operation") = some (.str Operation.delete.name) ∧
      file.get (text "content") = none ∧ changeContentSize change = .ok 0 ∨
    change.get (text "operation") ≠ some (.str Operation.delete.name) ∧ ∃ encoded decoded,
      file.get (text "content") = some (.str encoded) ∧ b64decode encoded = some decoded ∧
      changeBytes change = some decoded ∧ decoded.length ≤ maxFileContentBytes ∧
      changeContentSize change = .ok decoded.length
  keys : ∀ entry ∈ file, entry.1 ∈ [text "operation", text "path", text "sha", text "from_path",
    text "content"]

theorem path_of_accepted {path : Text}
    (h : (stringArgument ((change.get (text "path")).getD (.str [])) >>= filePath) = .ok path) :
    ∃ value, change.get (text "path") = some (.str value) ∧ path = value.strip := by
  obtain ⟨value, hvalue, h⟩ := bind_eq_ok.1 h
  obtain ⟨hvalid, rfl⟩ := filePath_eq_ok.1 h
  cases hget : change.get (text "path") with
  | none =>
    rw [hget] at hvalue
    cases hvalue
    exact absurd hvalid (by decide)
  | some argument =>
    rw [hget, Option.getD_some] at hvalue
    cases argument <;> cases hvalue
    exact ⟨_, rfl, rfl⟩

theorem contentEntry_eq_ok {entry : Dict} (hop : operation ≠ .delete)
    (h : contentEntry change operation = .ok entry) : ∃ encoded decoded,
      changeContent change = .ok (decoded, encoded) ∧ decoded.length ≤ maxFileContentBytes ∧
      entry = [(text "content", .str encoded)] := by
  have hentry : (changeContent change >>= fun x => if maxFileContentBytes < x.1.length then
      .error (.validationFailed "file content is too large")
      else .ok [(text "content", .str x.2)]) = .ok entry := by
    cases operation with
    | delete => exact absurd rfl hop
    | create => exact h
    | update => exact h
  obtain ⟨⟨decoded, encoded⟩, hcontent, h⟩ := bind_eq_ok.1 hentry
  dsimp only at h
  split at h
  · cases h
  · rename_i hlength
    exact ⟨encoded, decoded, hcontent, Nat.le_of_not_lt hlength, (Except.ok.inj h).symm⟩

/-- A checked entry of a change is in the file if no entry before it has its key. -/
theorem sameEntry_of_checked {key : String} {f : Text → Except Failure Text} {entry rest : Dict}
    (hentry : optionalEntry change key f = .ok entry)
    (hf : ∀ value checked, f value = .ok checked → checked = value.strip)
    (hfile : file.get (text key) = Dict.get (entry ++ rest) (text key))
    (hrest : Dict.get rest (text key) = none) : SameEntry key change file := by
  rcases optionalEntry_eq_ok hentry with ⟨hnone, rfl⟩ | ⟨value, checked, hsome, hchecked, rfl⟩
  · exact .inl ⟨hnone, hfile.trans hrest⟩
  · refine .inr ⟨value, hsome, hfile.trans ?_⟩
    rw [← hf value checked hchecked]
    exact List.lookup_cons_self

/-- An accepted change is carried by its file. -/
theorem carries_of_accepted (h : changeFileOperation change = .ok file) : Carries change file := by
  obtain ⟨operation, hoperation, h⟩ := bind_eq_ok.1 h
  obtain ⟨value, hvalue, h⟩ := bind_eq_ok.1 h
  obtain ⟨path, hpath, h⟩ := bind_eq_ok.1 h
  obtain ⟨given, hgiven, rfl⟩ := path_of_accepted (bind_eq_ok.2 ⟨value, hvalue, hpath⟩)
  obtain ⟨sha, hsha, h⟩ := bind_eq_ok.1 h
  have hop := operationOf_eq_ok hoperation
  split at h
  · cases h
  obtain ⟨fromPath, hfromPath, h⟩ := bind_eq_ok.1 h
  obtain ⟨content, hcontent, h⟩ := bind_eq_ok.1 h
  cases h
  have hkeys : content = [] ∨ ∃ value, content = [(text "content", value)] := by
    rcases eq_or_ne operation .delete with rfl | hdelete
    · cases hcontent
      exact .inl rfl
    · obtain ⟨encoded, -, -, -, hentry⟩ := contentEntry_eq_ok hdelete hcontent
      exact .inr ⟨_, hentry⟩
  have hget : ∀ key, key ≠ text "operation" → key ≠ text "path" →
      Dict.get ([(text "operation", .str operation.name), (text "path", .str given.strip)] ++ sha ++
        fromPath ++ content) key = Dict.get (sha ++ (fromPath ++ content)) key := by
    intro key hoperation hpath
    rw [List.append_assoc, List.append_assoc]
    refine (get_append_of_ne (.inr ⟨_, rfl⟩) hoperation).trans ?_
    exact get_append_of_ne (.inr ⟨_, rfl⟩) hpath
  refine ⟨?_, ⟨given, hgiven, ?_⟩, ?_, ?_, ?_, ?_⟩
  · rw [hop]
    exact List.lookup_cons_self
  · refine (get_append_of_ne (.inr ⟨_, rfl⟩) (by decide)).trans ?_
    exact List.lookup_cons_self
  · refine sameEntry_of_checked hsha (fun _ _ h => (refValue_eq_ok.1 h).2)
      (hget _ (by decide) (by decide)) ?_
    rw [get_append_of_ne (optionalEntry_keys hfromPath) (by decide)]
    exact get_eq_none_of_ne hkeys (by decide)
  · refine sameEntry_of_checked hfromPath (fun _ _ h => (filePath_eq_ok.1 h).2)
      ((hget _ (by decide) (by decide)).trans ?_) (get_eq_none_of_ne hkeys (by decide))
    exact get_append_of_ne (optionalEntry_keys hsha) (by decide)
  · rw [hget _ (by decide) (by decide), get_append_of_ne (optionalEntry_keys hsha) (by decide),
      get_append_of_ne (optionalEntry_keys hfromPath) (by decide), hop]
    rcases eq_or_ne operation .delete with rfl | hdelete
    · cases hcontent
      refine .inl ⟨rfl, rfl, ?_⟩
      rw [changeContentSize, hop]
      exact if_pos rfl
    · obtain ⟨encoded, decoded, hchange, hlength, rfl⟩ := contentEntry_eq_ok hdelete hcontent
      obtain ⟨hdecode, hbytes, hsize⟩ := changeContent_eq_ok hchange
      have hname : operation.name ≠ text "delete" := by
        cases operation with
        | delete => exact absurd rfl hdelete
        | create => decide
        | update => decide
      refine .inr ⟨fun heq => hname (Json.str.inj (Option.some.inj heq)), encoded, decoded,
        List.lookup_cons_self, hdecode, hbytes, hlength, ?_⟩
      rw [changeContentSize, hop]
      exact (if_neg hname).trans hsize
  · have single : ∀ {entry : Dict} {key : String}, (entry = [] ∨ ∃ value, entry = [(text key, value)]) →
        ∀ x ∈ entry, x.1 = text key := by
      intro entry key hentry x hx
      rcases hentry with rfl | ⟨value, rfl⟩
      · exact absurd hx List.not_mem_nil
      · rw [List.mem_singleton.1 hx]
    intro x hx
    simp only [List.mem_append, List.mem_cons, List.not_mem_nil, or_false] at hx ⊢
    rcases hx with (((rfl | rfl) | hx) | hx) | hx
    · exact .inl rfl
    · exact .inr (.inl rfl)
    · exact .inr (.inr (.inl (single (optionalEntry_keys hsha) x hx)))
    · exact .inr (.inr (.inr (.inl (single (optionalEntry_keys hfromPath) x hx))))
    · exact .inr (.inr (.inr (.inr (single hkeys x hx))))

/-- The number of bytes that the content of a file decodes to. -/
def decodedLength (file : Dict) : ℕ :=
  match file.get (text "content") with
  | some (.str encoded) => ((b64decode encoded).map List.length).getD 0
  | _ => 0

theorem Carries.size (h : Carries change file) :
    changeContentSize change = .ok (decodedLength file) := by
  unfold decodedLength
  rcases h.content with ⟨-, hnone, hsize⟩ | ⟨-, encoded, decoded, hget, hdecode, -, -, hsize⟩
  · rw [hnone, hsize]
  · rw [hget, hsize]
    dsimp only
    rw [hdecode]
    rfl

theorem sizes_of_accepted {changes files : List Dict}
    (h : List.Forall₂ (fun change file => changeFileOperation change = .ok file) changes files) :
    changes.mapM changeContentSize = .ok (files.map decodedLength) := by
  rw [mapM_eq_ok, List.forall₂_map_right_iff]
  exact h.imp fun _ _ hfile => (carries_of_accepted hfile).size

end Changes

section Commit

variable (limits : Limits) (c : Connection) (owner repo : Text) (branch newBranch : Option Text)
  (message : Text) (changes : List Dict) (signoff : Bool)

/-- The message, the branches and the repository are accepted. -/
structure Addressed : Prop where
  message : ∃ value, commitMessage message = .ok value
  branch : ∃ entry, branchEntry "branch" "branch" branch = .ok entry
  newBranch : ∃ entry, branchEntry "new_branch" "new branch" newBranch = .ok entry
  endpoint : ∃ endpoint, repoEndpoint c owner repo (text "contents") = .ok endpoint

/-- The files of the request for the changes. -/
structure Files (files : List Dict) : Prop where
  accepted : List.Forall₂ (fun change file => changeFileOperation change = .ok file) changes files
  count : 1 ≤ changes.length ∧ changes.length ≤ limits.commitMaxFiles
  size : (files.map decodedLength).sum ≤ limits.commitMaxTotalBytes

variable {limits c owner repo branch newBranch message changes signoff}

theorem sent?_commitChanges {r : Request} :
    sent? (commitChanges limits c owner repo branch newBranch message changes signoff) = some r ↔
      ∃ files, Files limits changes files ∧
      ∃ value, commitMessage message = .ok value ∧
      ∃ first, branchEntry "branch" "branch" branch = .ok first ∧
      ∃ second, branchEntry "new_branch" "new branch" newBranch = .ok second ∧
      ∃ endpoint, repoEndpoint c owner repo (text "contents") = .ok endpoint ∧
      r = {
        method := "POST"
        endpoint := endpoint
        token := c.token
        verifyTls := c.verifyTls
        params := none
        jsonBody := some ([(text "files", .list (files.map .dict)), (text "message", .str value),
          (text "signoff", .bool signoff)] ++ first ++ second)
        resource := "file changes"
        expectedStatus := 201
        accept := "application/json" } := by
  unfold commitChanges
  simp only [Prog.bind_eq, sent?_rejectIf, sent?_check, not_or, not_lt]
  constructor
  · rintro ⟨⟨hne, hmax⟩, files, hfiles, sizes, hsizes, htotal, value, hvalue, first, hfirst, second,
      hsecond, endpoint, hendpoint, hr⟩
    have haccepted := mapM_eq_ok.1 hfiles
    rw [sizes_of_accepted haccepted] at hsizes
    cases hsizes
    exact ⟨files, ⟨haccepted, ⟨List.length_pos_iff.2 hne, hmax⟩, htotal⟩, value, hvalue, first,
      hfirst, second, hsecond, endpoint, hendpoint, (Option.some.inj hr).symm⟩
  · rintro ⟨files, hfiles, value, hvalue, first, hfirst, second, hsecond, endpoint, hendpoint, rfl⟩
    exact ⟨⟨List.length_pos_iff.1 hfiles.count.1, hfiles.count.2⟩, files,
      mapM_eq_ok.2 hfiles.accepted, _, sizes_of_accepted hfiles.accepted, hfiles.size, value, hvalue,
      first, hfirst, second, hsecond, endpoint, hendpoint, rfl⟩

/-- The number of bytes that a change writes. -/
def decodedSize (change : Dict) : ℕ :=
  match changeFileOperation change with
  | .ok file => decodedLength file
  | .error _ => 0

theorem exists_files : (∃ files, Files limits changes files) ↔
    (1 ≤ changes.length ∧ changes.length ≤ limits.commitMaxFiles) ∧
      (∀ change ∈ changes, ∃ file, changeFileOperation change = .ok file) ∧
      (changes.map decodedSize).sum ≤ limits.commitMaxTotalBytes := by
  have hsizes : ∀ {files : List Dict}, List.Forall₂
      (fun change file => changeFileOperation change = .ok file) changes files →
      changes.map decodedSize = files.map decodedLength := by
    intro files h
    induction h with
    | nil => rfl
    | cons hfile _ ih => rw [List.map_cons, List.map_cons, ih, decodedSize, hfile]
  rw [← exists_mapM_eq_ok]
  simp only [mapM_eq_ok]
  constructor
  · rintro ⟨files, hfiles⟩
    exact ⟨hfiles.count, ⟨files, hfiles.accepted⟩, hsizes hfiles.accepted ▸ hfiles.size⟩
  · rintro ⟨hcount, ⟨files, hfiles⟩, hsize⟩
    exact ⟨files, hfiles, hcount, hsizes hfiles ▸ hsize⟩

/-- A commit sends its request just if every change is accepted and the limits are kept, and then it
sends all changes, in their order: each file is what its change is encoded to, and does what the change
says. -/
theorem commit_changes_all_or_nothing :
    ((∃ r, sent? (commitChanges limits c owner repo branch newBranch message changes signoff) =
        some r) ↔
      ((1 ≤ changes.length ∧ changes.length ≤ limits.commitMaxFiles) ∧
        (∀ change ∈ changes, ∃ file, changeFileOperation change = .ok file) ∧
        (changes.map decodedSize).sum ≤ limits.commitMaxTotalBytes) ∧
      Addressed c owner repo branch newBranch message) ∧
    ∀ r, sent? (commitChanges limits c owner repo branch newBranch message changes signoff) =
        some r →
      ∃ files, r.jsonBody.bind (Dict.get · (text "files")) = some (.list (files.map .dict)) ∧
        List.Forall₂ (fun change file => changeFileOperation change = .ok file ∧
          Carries change file) changes files := by
  simp only [sent?_commitChanges]
  refine ⟨?_, ?_⟩
  · rw [← exists_files]
    constructor
    · rintro ⟨r, files, hfiles, value, hvalue, first, hfirst, second, hsecond, endpoint, hendpoint,
        -⟩
      exact ⟨⟨files, hfiles⟩, ⟨value, hvalue⟩, ⟨first, hfirst⟩, ⟨second, hsecond⟩, ⟨endpoint, hendpoint⟩⟩
    · rintro ⟨⟨files, hfiles⟩, ⟨value, hvalue⟩, ⟨first, hfirst⟩, ⟨second, hsecond⟩,
        ⟨endpoint, hendpoint⟩⟩
      exact ⟨_, files, hfiles, value, hvalue, first, hfirst, second, hsecond, endpoint, hendpoint, rfl⟩
  · rintro r ⟨files, hfiles, value, -, first, -, second, -, endpoint, -, rfl⟩
    exact ⟨files, get_cons_self _ _ _, hfiles.accepted.imp fun _ _ h => ⟨h, carries_of_accepted h⟩⟩

end Commit

/-! ### Reading and writing back -/

section RoundTrip

/-- The identifier of a Git object. -/
def objectId (s : Text) : Bool :=
  decide (s.length = 40 ∨ s.length = 64) && s.all fun c =>
    decide (0x30 ≤ c.val ∧ c.val ≤ 0x39 ∨ 0x61 ≤ c.val ∧ c.val ≤ 0x66)

/-- The payload of the contents API for a file of the given bytes. -/
structure Serves (payload : Dict) (bytes : List UInt8) : Prop where
  content : ∃ encoded, payload.get (text "content") = some (.str encoded) ∧
    b64decode encoded = some bytes
  encoding : payload.get (text "encoding") = some (.str (text "base64"))
  name : ∃ name, payload.get (text "name") = some (.str name)
  sha : ∃ sha, payload.get (text "sha") = some (.str sha) ∧ objectId sha = true
  size : payload.get (text "size") = some (.int bytes.length)
  htmlUrl : ∃ url, optionalString (payload.get (text "html_url")) = .ok url

/-- The change that writes a file back. -/
def changeOf (operation : Operation) (file : FileContent) : Dict :=
  [(text "operation", .str operation.name), (text "path", .str file.path),
    (text "content", .str file.content), (text "encoding", .str (text file.encoding)),
    (text "sha", .str file.sha)]

/-- The file of the request that writes the bytes back. -/
def writtenBack (operation : Operation) (file : FileContent) (bytes : List UInt8) : Dict :=
  [(text "operation", .str operation.name), (text "path", .str file.path),
    (text "sha", .str file.sha), (text "content", .str (b64encode bytes))]

theorem decodedLength_writtenBack (operation : Operation) (file : FileContent)
    (bytes : List UInt8) : decodedLength (writtenBack operation file bytes) = bytes.length := by
  change ((b64decode (b64encode bytes)).map List.length).getD 0 = _
  rw [b64decode_b64encode]
  rfl

variable {bytes : List UInt8} {payload : Dict} {path : Text} {ref : Option Text}
  {operation : Operation} {file : FileContent}

theorem refValue_objectId {sha : Text} {label : String} (h : objectId sha = true) :
    refValue sha label 64 = .ok sha := by
  obtain ⟨hlength, hall⟩ := Bool.and_eq_true_iff.1 h
  have hlength : sha.length = 40 ∨ sha.length = 64 := of_decide_eq_true hlength
  have hhex : ∀ c ∈ sha, 0x30 ≤ c.val ∧ c.val ≤ 0x39 ∨ 0x61 ≤ c.val ∧ c.val ≤ 0x66 :=
    fun c hc => of_decide_eq_true (List.all_eq_true.1 hall c hc)
  have hstrip : sha.strip = sha := by
    refine Text.strip_eq_self fun c hc => ?_
    have := hhex c hc
    simp only [CodePoint.isspace, Bool.or_eq_false_iff, decide_eq_false_iff_not,
      List.contains_eq_mem]
    refine ⟨by omega, fun hmem => ?_⟩
    simp only [List.mem_cons, List.not_mem_nil, or_false] at hmem
    omega
  have hvalid : validName 64 sha = true := by
    simp only [validName, Bool.and_eq_true, decide_eq_true_eq, Bool.not_eq_true', List.any_eq_false]
    refine ⟨⟨?_, ?_, ?_, by omega⟩, fun c hc => ?_⟩
    · rintro rfl
      simp at hlength
    · rintro rfl
      exact absurd hlength (by decide)
    · rintro rfl
      exact absurd hlength (by decide)
    · have := hhex c hc
      rw [control, decide_eq_true_iff]
      omega
  rw [refValue_eq_ok, hstrip]
  exact ⟨hvalid, rfl⟩

theorem fileContent_of_serves (h : Serves payload bytes) (hlength : bytes.length ≤ maxFileContentBytes) :
    ∃ file, fileContent path ref payload = .ok file ∧ file.path = path ∧
      (file.content, file.encoding) = outputContent bytes ∧ objectId file.sha = true := by
  obtain ⟨encoded, hcontent, hdecode⟩ := h.content
  obtain ⟨name, hname⟩ := h.name
  obtain ⟨sha, hsha, hid⟩ := h.sha
  obtain ⟨url, hurl⟩ := h.htmlUrl
  have hserved : servedBytes payload = .ok bytes := by
    unfold servedBytes
    rw [hcontent, h.encoding]
    dsimp only
    rw [hdecode]
    exact if_pos rfl
  unfold fileContent
  rw [hserved, hname, hsha, h.size, hurl]
  refine ⟨_, (if_neg (Nat.not_lt.2 hlength)).trans (if_neg (fun h => h rfl)), rfl, rfl, hid⟩

/-- What was read is written as the same bytes. -/
theorem changeContent_changeOf (h : (file.content, file.encoding) = outputContent bytes) :
    changeContent (changeOf operation file) = .ok (bytes, b64encode bytes) := by
  have hcontent : (changeOf operation file).get (text "content") = some (.str file.content) := by
    rfl
  have hencoding : (changeOf operation file).get (text "encoding") =
      some (.str (text file.encoding)) := by
    rfl
  unfold changeContent
  rw [hcontent, hencoding]
  dsimp only [Option.getD_some]
  unfold outputContent at h
  split at h
  · rename_i content hdecode
    obtain ⟨hc, he⟩ := Prod.mk.inj h
    rw [hc, he, if_pos rfl, Text.encode_decode hdecode]
  · obtain ⟨hc, he⟩ := Prod.mk.inj h
    rw [hc, he, if_neg (by decide), if_pos rfl, b64decode_b64encode]

theorem changeFileOperation_changeOf (h : (file.content, file.encoding) = outputContent bytes)
    (hlength : bytes.length ≤ maxFileContentBytes) (hpath : filePath path = .ok file.path)
    (hsha : objectId file.sha = true) (hoperation : operation ≠ .delete) :
    changeFileOperation (changeOf operation file) = .ok (writtenBack operation file bytes) := by
  have hop : operationOf (changeOf operation file) = .ok operation := by
    cases operation <;> rfl
  have hgivenPath : (changeOf operation file).get (text "path") = some (.str file.path) := by
    rfl
  have hgivenSha : (changeOf operation file).get (text "sha") = some (.str file.sha) := by
    rfl
  have hfrom : (changeOf operation file).get (text "from_path") = none := by
    rfl
  have hpath' : filePath file.path = .ok file.path := by
    obtain ⟨hvalid, heq⟩ := filePath_eq_ok.1 hpath
    rw [heq, filePath_eq_ok, Text.strip_strip]
    exact ⟨hvalid, rfl⟩
  have hsha' : optionalEntry (changeOf operation file) "sha" (fun value =>
      refValue value "file SHA" 64) = .ok [(text "sha", .str file.sha)] := by
    rw [optionalEntry, hgivenSha]
    exact bind_eq_ok.2 ⟨_, rfl, bind_eq_ok.2 ⟨_, refValue_objectId hsha, rfl⟩⟩
  have hfrom' : optionalEntry (changeOf operation file) "from_path" filePath = .ok [] := by
    rw [optionalEntry, hfrom]
  have hcontent : contentEntry (changeOf operation file) operation =
      .ok [(text "content", .str (b64encode bytes))] := by
    have hentry : (changeContent (changeOf operation file) >>= fun x =>
        if maxFileContentBytes < x.1.length then
          .error (.validationFailed "file content is too large")
        else .ok [(text "content", Json.str x.2)]) =
          .ok [(text "content", Json.str (b64encode bytes))] := by
      rw [changeContent_changeOf h]
      exact if_neg (Nat.not_lt.2 hlength)
    cases operation with
    | delete => exact absurd rfl hoperation
    | create => exact hentry
    | update => exact hentry
  unfold changeFileOperation
  refine bind_eq_ok.2 ⟨_, hop, bind_eq_ok.2 ⟨file.path, ?_, bind_eq_ok.2 ⟨_, hpath',
    bind_eq_ok.2 ⟨_, hsha', ?_⟩⟩⟩⟩
  · rw [hgivenPath]
    rfl
  rw [if_neg (fun h => List.cons_ne_nil _ _ h.2)]
  exact bind_eq_ok.2 ⟨_, hfrom', bind_eq_ok.2 ⟨_, hcontent, rfl⟩⟩

/-- A server that gives one response. -/
def answering (response : Response) : ∀ β, Action β → Unit → β × Unit
  | _, .request _, w => (.ok response, w)

/-- A read that sends its request gets the file that is served. -/
theorem run_getFileContent {c : Connection} {owner repo given : Text} {response : Response}
    (hsent : (sent? (getFileContent c owner repo given ref)).isSome = true)
    (hsize : response.size ≤ maxJsonResponseBytes) (hjson : response.json = some (.dict payload))
    (hserves : Serves payload bytes) (hlength : bytes.length ≤ maxFileContentBytes) :
    ∃ file, (getFileContent c owner repo given ref).run (answering response) () = (.ok file, ()) ∧
      filePath given = .ok file.path ∧ (file.content, file.encoding) = outputContent bytes ∧
      objectId file.sha = true := by
  obtain ⟨r, hsent⟩ := Option.isSome_iff_exists.1 hsent
  unfold getFileContent at hsent ⊢
  simp only [Prog.bind_eq, sent?_check] at hsent ⊢
  obtain ⟨path, hpath, params, hparams, quotedPath, hquoted, endpoint, hendpoint, -⟩ := hsent
  obtain ⟨file, hfile, rfl, hcontent, hsha⟩ : ∃ file,
      fileContent path ref payload = .ok file ∧ file.path = path ∧
        (file.content, file.encoding) = outputContent bytes ∧ objectId file.sha = true :=
    fileContent_of_serves hserves hlength
  refine ⟨file, ?_, hpath, hcontent, hsha⟩
  have hpayload : Client.payload "file content" response = .ret (.dict payload) := by
    rw [Client.payload, if_neg (Nat.not_lt.2 hsize), hjson]
    rfl
  have hcontinue : (Client.payload "file content" response).bind (fun payload =>
      check (objectPayload payload >>= fileContent file.path ref)) = .ret file := by
    rw [hpayload]
    change check (fileContent file.path ref payload) = _
    rw [hfile]
    rfl
  rw [hpath, hparams]
  dsimp only [check, Prog.ret_bind]
  rw [hquoted]
  dsimp only [check, Prog.ret_bind]
  rw [hendpoint]
  exact congrArg (Prog.run (answering response) · ()) hcontinue

/-- A file that was read is written back as the same bytes. -/
theorem contents_round_trip {limits : Limits} {c c' : Connection}
    {owner repo owner' repo' given : Text} {branch newBranch : Option Text} {message : Text}
    {signoff : Bool} {response : Response}
    (hsent : (sent? (getFileContent c owner repo given ref)).isSome = true)
    (hsize : response.size ≤ maxJsonResponseBytes) (hjson : response.json = some (.dict payload))
    (hserves : Serves payload bytes) (hlength : bytes.length ≤ maxFileContentBytes)
    (hfiles : 1 ≤ limits.commitMaxFiles) (htotal : bytes.length ≤ limits.commitMaxTotalBytes)
    (hoperation : operation ≠ .delete)
    (haddressed : Addressed c' owner' repo' branch newBranch message) :
    ∃ file, (getFileContent c owner repo given ref).run (answering response) () = (.ok file, ()) ∧
      ∃ r', sent? (commitChanges limits c' owner' repo' branch newBranch message
        [changeOf operation file] signoff) = some r' ∧
      ∃ (data : Dict) (encoded : Text), r'.jsonBody.bind (Dict.get · (text "files")) = some (.list [.dict data]) ∧
        data.get (text "operation") = some (.str operation.name) ∧
        data.get (text "path") = some (.str file.path) ∧
        data.get (text "sha") = some (.str file.sha) ∧
        data.get (text "content") = some (.str encoded) ∧ b64decode encoded = some bytes := by
  obtain ⟨file, hrun, hpath, hcontent, hsha⟩ :=
    run_getFileContent hsent hsize hjson hserves hlength
  have hchange := changeFileOperation_changeOf hcontent hlength hpath hsha hoperation
  obtain ⟨⟨value, hvalue⟩, ⟨first, hfirst⟩, ⟨second, hsecond⟩, endpoint, hendpoint⟩ := haddressed
  have hfile : Files limits [changeOf operation file] [writtenBack operation file bytes] := by
    refine ⟨.cons hchange .nil, ⟨le_rfl, hfiles⟩, ?_⟩
    rw [List.map_singleton, List.sum_singleton, decodedLength_writtenBack]
    exact htotal
  refine ⟨file, hrun, _, sent?_commitChanges.2 ⟨_, hfile, value, hvalue, first, hfirst, second,
    hsecond, endpoint, hendpoint, rfl⟩, _, b64encode bytes, get_cons_self _ _ _, rfl, rfl, rfl, rfl,
    b64decode_b64encode bytes⟩

/-- A connection to a sample server. -/
def sampleConnection : Connection := ⟨text "https://forge.example", text "secret", true⟩

/-- A file of two bytes that are no text. -/
def samplePayload : Dict :=
  [(text "content", .str (text "aP8=")), (text "encoding", .str (text "base64")),
    (text "name", .str (text "a.bin")), (text "size", .int 2),
    (text "sha", .str (List.replicate 40 0x61))]

theorem contents_round_trip_sample :
    ∃ file, (getFileContent sampleConnection (text "alice") (text "site") (text " a.bin") none).run
        (answering ⟨1000, some (.dict samplePayload)⟩) () = (.ok file, ()) ∧
      ∃ r, sent? (commitChanges ⟨100, 10485760⟩ sampleConnection (text "alice") (text "site") none
        none (text "Restore") [changeOf .update file] false) = some r ∧
      ∃ (data : Dict) (encoded : Text),
        r.jsonBody.bind (Dict.get · (text "files")) = some (.list [.dict data]) ∧
        data.get (text "operation") = some (.str Operation.update.name) ∧
        data.get (text "path") = some (.str file.path) ∧
        data.get (text "sha") = some (.str file.sha) ∧
        data.get (text "content") = some (.str encoded) ∧ b64decode encoded = some [0x68, 0xFF] := by
  have hserves : Serves samplePayload [0x68, 0xFF] := by
    refine ⟨⟨text "aP8=", rfl, by decide +kernel⟩, rfl, ⟨_, rfl⟩, ⟨_, rfl, by decide +kernel⟩, rfl,
      ⟨none, rfl⟩⟩
  exact contents_round_trip (by decide +kernel) (by decide) rfl hserves (by decide) (by decide)
    (by decide) (by decide) ⟨⟨_, rfl⟩, ⟨_, rfl⟩, ⟨_, rfl⟩, ⟨_, rfl⟩⟩

end RoundTrip

end ForgejoMcp.Client
