import ForgejoMcp.Client.Contents
import ForgejoMcp.Client.Retries
import ForgejoMcp.Python.Utf8

/-!
# Logs of action runs

`get_action_run_logs` takes the files of an archive in their order, at most so many and at most so
many bytes of them together, and says whether it left anything out.
-/

namespace ForgejoMcp.Client

open Python Zlib

/-! ### Functions -/

/-- `MAX_ACTION_LOG_BYTES`. -/
def maxActionLogBytes : ℕ := 1024 * 1024

/-- `MAX_ACTION_LOG_ARCHIVE_BYTES`. -/
def maxActionLogArchiveBytes : ℕ := 10 * 1024 * 1024

/-- `MAX_ACTION_LOG_FILES`. -/
def maxActionLogFiles : ℕ := 100

/-- The exceptions of `zipfile`, by the class that catches them; `other` is one that none does. -/
inductive ZipError
  | badZipFile
  | runtimeError
  | osError
  | other
  deriving DecidableEq, Repr

/-- An entry of an archive, with what `bundle.read(entry)` gives. -/
structure ZipEntry where
  filename : Text
  fileSize : ℕ
  read : Except ZipError (List UInt8)

/-- `entry.is_dir()`. -/
def ZipEntry.isDir (entry : ZipEntry) : Bool := entry.filename.getLast? == some 0x2F

/-- A file of the logs that are returned. -/
structure LogFile where
  name : Text
  size : ℕ
  sha256 : Text
  content : Text
  truncated : Bool

/-- The logs of a run that are returned. -/
structure ActionRunLogs where
  runId : ℤ
  size : ℕ
  sha256 : Text
  files : List LogFile
  filesTruncated : Bool

/-- An error of the client, or one of `zipfile` that it does not expect. -/
inductive LogsError
  | failed (e : Failure)
  | zip (e : ZipError)

/-- The failure for a file that unpacks to more than it may. -/
def oversizedFile : LogsError :=
  .failed (.externalServiceUnavailable "Forgejo action run logs contain an oversized file")

/-- The `except` clause around the archive. -/
def ZipError.raised : ZipError → LogsError
  | other => .zip .other
  | _ => .failed (.externalServiceUnavailable
      "Forgejo returned an invalid action run logs archive")

/-- What the loop over the entries keeps. -/
structure LogState where
  files : List LogFile
  remaining : ℤ
  filesTruncated : Bool

/-- The state before the first turn. -/
def LogState.start : LogState := ⟨[], maxActionLogBytes, false⟩

/-- `content[:n]`. -/
def slicePrefix (content : List UInt8) (n : ℤ) : List UInt8 :=
  content.take (if 0 ≤ n then n else content.length + n).toNat

variable (sha256 : List UInt8 → Text)

/-- The file of an entry of whose content the bytes `bounded` are taken. -/
def logFile (entry : ZipEntry) (content bounded : List UInt8) : LogFile where
  name := entry.filename
  size := content.length
  sha256 := sha256 content
  content := Text.decodeReplace bounded
  truncated := decide (bounded.length < content.length)

/-- A turn of the loop for an archive of `n` files, and whether it breaks. -/
def takeEntry (n : ℕ) (s : LogState) (entry : ZipEntry) : Except LogsError (LogState × Bool) :=
  if maxActionLogArchiveBytes < entry.fileSize then .error oversizedFile
  else
    match entry.read with
    | .error e => .error e.raised
    | .ok content =>
      let bounded := slicePrefix content s.remaining
      let files := s.files ++ [logFile sha256 entry content bounded]
      let remaining := s.remaining - bounded.length
      if remaining = 0 then
        .ok (⟨files, remaining,
          decide (files.length < n) || decide (bounded.length < content.length)⟩, true)
      else .ok (⟨files, remaining, s.filesTruncated⟩, false)

/-- The loop over the entries. -/
def takeEntries (n : ℕ) : List ZipEntry → LogState → Except LogsError LogState
  | [], s => .ok s
  | entry :: entries, s => do
    let (s, stop) ← takeEntry sha256 n s entry
    if stop then return s
    takeEntries n entries s

variable (zipFile : List UInt8 → Except ZipError (List ZipEntry))

/-- `get_action_run_logs` once it has the archive; `zipFile` gives `bundle.infolist()`. -/
def readActionRunLogs (runId : ℤ) (archive : List UInt8) : Except LogsError ActionRunLogs :=
  if maxActionLogArchiveBytes < archive.length then
    .error (.failed (.externalServiceUnavailable "Forgejo action run logs response is too large"))
  else
    match zipFile archive with
    | .error e => .error e.raised
    | .ok infolist => do
      let entries := infolist.filter (!·.isDir)
      let s ← takeEntries sha256 entries.length (entries.take maxActionLogFiles) .start
      return ⟨runId, archive.length, sha256 archive, s.files,
        s.filesTruncated || decide (maxActionLogFiles < entries.length)⟩

/-- `_positive_id`. -/
def positiveId (value : ℤ) (label : String) : Except Failure ℤ :=
  if value < 1 then .error (.validationFailed (label ++ " must be a positive integer")) else .ok value

/-- The request of `get_action_run_logs`, whose token may be an OAuth one. -/
def actionRunLogsCall (c : Connection) (oauth : Bool) (owner repo : Text) (runId : ℤ) :
    Except Failure Call := do
  let runId ← positiveId runId "run ID"
  let endpoint ← repoEndpoint c owner repo
    (text "actions/runs/" ++ text (toString runId) ++ text "/logs")
  return {
    method := text "GET"
    endpoint := endpoint
    token := some (if oauth then .forgejoOAuthToken c.token else .pat c.token)
    verifyTls := c.verifyTls
    params := none
    jsonBody := none
    resource := "action run logs"
    expectedStatus := [200]
    accept := text "application/zip" }

/-- `get_action_run_logs`, when `_request` ends a request as `answer` says. -/
def getActionRunLogs (answer : Call → Except Failure BufferedResponse) (c : Connection)
    (oauth : Bool) (owner repo : Text) (runId : ℤ) : Except LogsError ActionRunLogs := do
  let response ← (actionRunLogsCall c oauth owner repo runId >>= answer).mapError .failed
  readActionRunLogs sha256 zipFile runId response.content

/-! ### Turns of the loop -/

/-- The states of the loop: before each turn, and after the last one. -/
def logStates (n : ℕ) : List ZipEntry → LogState → List LogState
  | [], s => [s]
  | entry :: entries, s => s ::
    match takeEntry sha256 n s entry with
    | .error _ => []
    | .ok (s, true) => [s]
    | .ok (s, false) => logStates n entries s

/-- An entry that was read, and the bytes of its content that are taken. -/
structure Taken where
  entry : ZipEntry
  content : List UInt8
  bytes : List UInt8
  read : entry.read = .ok content
  isPrefix : bytes <+: content

namespace Taken

/-- The file that is returned for an entry. -/
def file (t : Taken) : LogFile := logFile sha256 t.entry t.content t.bytes

/-- All of the entry is taken. -/
def Whole (t : Taken) : Prop := t.bytes = t.content

end Taken

/-- How many bytes are taken. -/
def takenBytes (ts : List Taken) : ℕ := (ts.map fun t => t.bytes.length).sum

/-- The state says what is taken and how much more may be. -/
structure LogState.Holds (s : LogState) (ts : List Taken) : Prop where
  files : s.files = ts.map (Taken.file sha256)
  remaining : s.remaining = maxActionLogBytes - takenBytes ts
  nonneg : 0 ≤ s.remaining

/-- The state of a loop that goes on. -/
structure LogState.Open (s : LogState) (ts : List Taken) : Prop where
  holds : s.Holds sha256 ts
  pos : 0 < s.remaining
  whole : ∀ t ∈ ts, t.Whole
  untruncated : s.filesTruncated = false

variable {sha256 zipFile} {n : ℕ} {s s' : LogState} {ts : List Taken} {entry : ZipEntry}
  {entries : List ZipEntry} {stop : Bool}

theorem takenBytes_concat (ts : List Taken) (t : Taken) :
    takenBytes (ts ++ [t]) = takenBytes ts + t.bytes.length := by
  simp [takenBytes]

theorem Taken.whole_iff (t : Taken) : t.Whole ↔ (t.file sha256).truncated = false := by
  have hle := t.isPrefix.length_le
  rw [Taken.Whole, Taken.file, logFile, decide_eq_false_iff_not]
  exact ⟨fun h => by rw [h]; exact Nat.lt_irrefl _,
    fun h => t.isPrefix.eq_of_length (Nat.le_antisymm hle (Nat.le_of_not_lt h))⟩

/-- What a turn takes: as much of the entry as remains to be taken. -/
theorem exists_taken (h : s.Holds sha256 ts) (heq : takeEntry sha256 n s entry = .ok (s', stop)) :
    ∃ t : Taken, t.entry = entry ∧ s'.Holds sha256 (ts ++ [t]) ∧ (t.Whole ∨ s'.remaining = 0) ∧
      stop = decide (s'.remaining = 0) ∧ s'.filesTruncated =
        if stop then decide ((ts ++ [t]).length < n) || (t.file sha256).truncated
        else s.filesTruncated := by
  rw [takeEntry] at heq
  split at heq
  · cases heq
  split at heq
  · cases heq
  rename_i content hread
  dsimp only at heq
  have hnonneg := h.nonneg
  have hbytes : slicePrefix content s.remaining = content.take s.remaining.toNat := by
    rw [slicePrefix, if_pos hnonneg]
  rw [hbytes] at heq
  let t : Taken := ⟨entry, content, content.take s.remaining.toNat, hread, List.take_prefix _ _⟩
  have hfiles : s.files ++ [logFile sha256 entry content (content.take s.remaining.toNat)] =
      (ts ++ [t]).map (Taken.file sha256) := by
    rw [h.files, List.map_append]
    rfl
  have hlength : (content.take s.remaining.toNat).length = min s.remaining.toNat content.length :=
    List.length_take
  have hholds : ∀ b, LogState.Holds sha256 ⟨s.files ++ [logFile sha256 entry content
      (content.take s.remaining.toNat)], s.remaining - (content.take s.remaining.toNat).length, b⟩
      (ts ++ [t]) := by
    refine fun b => ⟨hfiles, ?_, ?_⟩
    · have hremaining := h.remaining
      rw [takenBytes_concat]
      dsimp only [t]
      omega
    · dsimp only
      omega
  split at heq
  · rename_i hzero
    cases heq
    refine ⟨t, rfl, hholds _, .inr hzero, (decide_eq_true hzero).symm, ?_⟩
    rw [if_pos rfl, hfiles, List.length_map]
    rfl
  · rename_i hpos
    cases heq
    refine ⟨t, rfl, hholds _, .inl ?_, (decide_eq_false hpos).symm, ?_⟩
    · refine List.take_of_length_le ?_
      omega
    · rw [if_neg Bool.false_ne_true]

/-- A turn takes a whole entry, or it is the last one. -/
theorem LogState.Open.takeEntry (h : s.Open sha256 ts)
    (heq : takeEntry sha256 n s entry = .ok (s', stop)) : ∃ t : Taken, t.entry = entry ∧
      s'.Holds sha256 (ts ++ [t]) ∧
      (stop = false ∧ s'.Open sha256 (ts ++ [t]) ∨ stop = true ∧ s'.filesTruncated =
        (decide ((ts ++ [t]).length < n) || (t.file sha256).truncated)) := by
  obtain ⟨t, hentry, hholds, hwhole, hstop, htruncated⟩ := exists_taken h.holds heq
  refine ⟨t, hentry, hholds, ?_⟩
  cases stop with
  | true =>
    rw [if_pos rfl] at htruncated
    exact .inr ⟨rfl, htruncated⟩
  | false =>
    have hne : s'.remaining ≠ 0 := of_decide_eq_false hstop.symm
    have hnonneg := hholds.nonneg
    refine .inl ⟨rfl, hholds, by omega, ?_, ?_⟩
    · exact List.forall_mem_append.2 ⟨h.whole, List.forall_mem_singleton.2 (hwhole.resolve_right hne)⟩
    · rw [htruncated, if_neg Bool.false_ne_true]
      exact h.untruncated

/-- The loop takes the entries in their order and all of each, until it breaks. -/
theorem LogState.Open.takeEntries (h : s.Open sha256 ts)
    (heq : takeEntries sha256 n entries s = .ok s') : ∃ ts', s'.Holds sha256 (ts ++ ts') ∧
      ts'.map Taken.entry <+: entries ∧
      ((∀ t ∈ ts ++ ts', t.Whole) ∧ s'.filesTruncated = false ∧ ts'.map Taken.entry = entries ∨
        ∃ ts'' t, ts ++ ts' = ts'' ++ [t] ∧ (∀ t ∈ ts'', t.Whole) ∧ s'.filesTruncated =
          (decide ((ts ++ ts').length < n) || (t.file sha256).truncated)) := by
  induction entries generalizing s ts with
  | nil =>
    cases heq
    rw [← List.append_nil ts] at h
    exact ⟨[], h.holds, List.prefix_rfl, .inl ⟨h.whole, h.untruncated, rfl⟩⟩
  | cons entry entries ih =>
    obtain ⟨⟨s₁, stop⟩, hturn, heq⟩ := bind_eq_ok.1 heq
    dsimp only at heq
    obtain ⟨t, rfl, hholds, ⟨rfl, hopen⟩ | ⟨rfl, htruncated⟩⟩ := h.takeEntry hturn
    · rw [if_neg Bool.false_ne_true] at heq
      obtain ⟨ts', hholds', hprefix, hend⟩ := ih hopen heq
      rw [List.append_assoc] at hholds' hend
      refine ⟨t :: ts', hholds', ?_, ?_⟩
      · rw [List.map_cons]
        exact (List.prefix_cons_inj _).2 hprefix
      · rcases hend with ⟨hwhole, hflag, hall⟩ | hlast
        · exact .inl ⟨hwhole, hflag, by rw [List.map_cons, hall]⟩
        · exact .inr hlast
    · rw [if_pos rfl] at heq
      cases heq
      exact ⟨[t], hholds, ⟨entries, rfl⟩, .inr ⟨ts, t, rfl, h.whole, htruncated⟩⟩

theorem LogState.Open.nonneg_of_mem (h : s.Open sha256 ts) :
    ∀ s' ∈ logStates sha256 n entries s, 0 ≤ s'.remaining := by
  induction entries generalizing s ts with
  | nil => exact List.forall_mem_singleton.2 h.holds.nonneg
  | cons entry entries ih =>
    rw [logStates]
    refine List.forall_mem_cons.2 ⟨h.holds.nonneg, ?_⟩
    split
    · exact fun _ hmem => absurd hmem List.not_mem_nil
    · rename_i s₁ hturn
      obtain ⟨t, -, hholds, -⟩ := h.takeEntry hturn
      exact List.forall_mem_singleton.2 hholds.nonneg
    · rename_i s₁ hturn
      obtain ⟨t, -, -, ⟨-, hopen⟩ | ⟨hstop, -⟩⟩ := h.takeEntry hturn
      · exact ih hopen
      · exact absurd hstop Bool.false_ne_true

/-- The loop ends without an error if every entry can be read. -/
theorem exists_takeEntries (n : ℕ) (hread : ∀ entry ∈ entries,
    entry.fileSize ≤ maxActionLogArchiveBytes ∧ ∃ content, entry.read = .ok content) :
    ∃ s', takeEntries sha256 n entries s = .ok s' := by
  induction entries generalizing s with
  | nil => exact ⟨s, rfl⟩
  | cons entry entries ih =>
    obtain ⟨⟨hsize, content, hcontent⟩, hread⟩ := List.forall_mem_cons.1 hread
    have hturn : ∃ s₁ stop, takeEntry sha256 n s entry = .ok (s₁, stop) := by
      rw [takeEntry, if_neg (Nat.not_lt_of_le hsize), hcontent]
      dsimp only
      split
      · exact ⟨_, _, rfl⟩
      · exact ⟨_, _, rfl⟩
    obtain ⟨s₁, stop, hturn⟩ := hturn
    cases stop with
    | true => exact ⟨s₁, bind_eq_ok.2 ⟨_, hturn, rfl⟩⟩
    | false =>
      obtain ⟨s', hs'⟩ := @ih s₁ hread
      exact ⟨s', bind_eq_ok.2 ⟨_, hturn, hs'⟩⟩

/-! ### Logs -/

theorem LogState.open_start : LogState.start.Open sha256 [] where
  holds := ⟨rfl, rfl, Int.natCast_nonneg _⟩
  pos := by decide
  whole := fun _ hmem => absurd hmem List.not_mem_nil
  untruncated := rfl

variable (sha256) in
/-- The logs are those of the files in `ts`, which are the first ones of the archive, within the
bounds, and they say whether anything is left out. -/
structure ActionRunLogs.Reports (logs : ActionRunLogs) (entries : List ZipEntry)
    (ts : List Taken) : Prop where
  files : logs.files = ts.map (Taken.file sha256)
  isPrefix : ts.map Taken.entry <+: entries
  length_le : ts.length ≤ maxActionLogFiles
  bytes_le : takenBytes ts ≤ maxActionLogBytes
  nonneg : ∀ s ∈ logStates sha256 entries.length (entries.take maxActionLogFiles) .start,
    0 ≤ s.remaining
  complete_iff : (logs.filesTruncated = false ∧ ∀ file ∈ logs.files, file.truncated = false) ↔
    ts.map Taken.entry = entries ∧ ∀ t ∈ ts, t.Whole

/-- The files are whole just if none of them is marked. -/
theorem forall_whole_iff : (∀ file ∈ ts.map (Taken.file sha256), file.truncated = false) ↔
    ∀ t ∈ ts, t.Whole := by
  rw [List.forall_mem_map]
  exact forall₂_congr fun t _ => t.whole_iff.symm

theorem readActionRunLogs_reports {runId : ℤ} {archive : List UInt8} {infolist : List ZipEntry}
    {logs : ActionRunLogs} (hzip : zipFile archive = .ok infolist)
    (h : readActionRunLogs sha256 zipFile runId archive = .ok logs) :
    ∃ ts, logs.Reports sha256 (infolist.filter (!·.isDir)) ts := by
  rw [readActionRunLogs] at h
  split at h
  · cases h
  rw [hzip] at h
  obtain ⟨s, hs, h⟩ := bind_eq_ok.1 h
  cases h
  generalize infolist.filter (!·.isDir) = entries at hs
  obtain ⟨ts, hholds, hprefix, hend⟩ := LogState.open_start.takeEntries hs
  rw [List.nil_append] at hholds hend
  have hlength : ts.length ≤ maxActionLogFiles := by
    rw [← List.length_map Taken.entry]
    exact hprefix.length_le.trans (List.length_take_le _ _)
  have hall := hprefix.trans (List.take_prefix _ entries)
  refine ⟨ts, hholds.files, hall, hlength, ?_, LogState.open_start.nonneg_of_mem, ?_⟩
  · have hnonneg := hholds.nonneg
    rw [hholds.remaining] at hnonneg
    omega
  dsimp only
  rw [hholds.files, forall_whole_iff, Bool.or_eq_false_iff, decide_eq_false_iff_not]
  -- all the files of the archive are taken just if as many are
  have hcount : ts.map Taken.entry = entries ↔ entries.length ≤ ts.length := by
    rw [← List.length_map Taken.entry]
    exact ⟨fun heq => Nat.le_of_eq (congrArg List.length heq.symm),
      fun hle => hall.eq_of_length (Nat.le_antisymm hall.length_le hle)⟩
  rcases hend with ⟨hwhole, hflag, hmap⟩ | ⟨ts', t, rfl, hwhole, hflag⟩
  · rw [hflag, hcount]
    have hmin := congrArg List.length hmap
    rw [List.length_map, List.length_take] at hmin
    constructor
    · rintro ⟨⟨-, hle⟩, -⟩
      exact ⟨by omega, hwhole⟩
    · rintro ⟨hle, -⟩
      exact ⟨⟨rfl, by omega⟩, hwhole⟩
  · rw [hflag, hcount, Bool.or_eq_false_iff, decide_eq_false_iff_not, ← t.whole_iff]
    constructor
    · rintro ⟨⟨⟨hle, -⟩, -⟩, hwhole⟩
      exact ⟨Nat.le_of_not_lt hle, hwhole⟩
    · rintro ⟨hle, hwhole⟩
      refine ⟨⟨⟨Nat.not_lt_of_le hle, hwhole t (List.mem_append_right _ List.mem_cons_self)⟩, ?_⟩,
        hwhole⟩
      omega

/-- The logs that are returned are those of the first files of the archive, at most a hundred of them
and at most 1 MiB, and their flags are down just if nothing is left out.  They are returned if the files
that are looked at can be read. -/
theorem getActionRunLogs_reports {answer : Call → Except Failure BufferedResponse} {c : Connection}
    {oauth : Bool} {owner repo : Text} {runId : ℤ} {response : BufferedResponse}
    {infolist : List ZipEntry}
    (hresponse : actionRunLogsCall c oauth owner repo runId >>= answer = .ok response)
    (hzip : zipFile response.content = .ok infolist) :
    (∀ logs, getActionRunLogs sha256 zipFile answer c oauth owner repo runId = .ok logs →
      ∃ ts, logs.Reports sha256 (infolist.filter (!·.isDir)) ts) ∧
    (response.content.length ≤ maxActionLogArchiveBytes →
      (∀ entry ∈ (infolist.filter (!·.isDir)).take maxActionLogFiles,
        entry.fileSize ≤ maxActionLogArchiveBytes ∧ ∃ content, entry.read = .ok content) →
      ∃ logs, getActionRunLogs sha256 zipFile answer c oauth owner repo runId = .ok logs) := by
  have hget : getActionRunLogs sha256 zipFile answer c oauth owner repo runId =
      readActionRunLogs sha256 zipFile runId response.content := by
    rw [getActionRunLogs, hresponse]
    rfl
  rw [hget]
  refine ⟨fun logs h => readActionRunLogs_reports hzip h, fun hle hread => ?_⟩
  have hloop : ∃ s, takeEntries sha256 (infolist.filter (!·.isDir)).length
      ((infolist.filter (!·.isDir)).take maxActionLogFiles) .start = .ok s :=
    exists_takeEntries _ hread
  obtain ⟨s, hs⟩ := hloop
  rw [readActionRunLogs, if_neg (Nat.not_lt_of_le hle), hzip]
  exact ⟨_, bind_eq_ok.2 ⟨s, hs, rfl⟩⟩

/-- An archive of one file in a directory. -/
def sampleEntries : List ZipEntry :=
  [⟨text "build/", 0, .ok []⟩, ⟨text "build/1.log", 2, .ok [0x6F, 0x6B]⟩]

/-- A response that begins as an archive does. -/
def sampleArchive : BufferedResponse := ⟨200, [], [0x50, 0x4B]⟩

theorem getActionRunLogs_reports_sample :
    (∀ logs, getActionRunLogs (fun _ => []) (fun _ => .ok sampleEntries)
        (fun _ => .ok sampleArchive) sampleConnection false (text "owner") (text "repo") 7 =
        .ok logs →
      ∃ ts, logs.Reports (fun _ => []) (sampleEntries.filter (!·.isDir)) ts) ∧
    (sampleArchive.content.length ≤ maxActionLogArchiveBytes →
      (∀ entry ∈ (sampleEntries.filter (!·.isDir)).take maxActionLogFiles,
        entry.fileSize ≤ maxActionLogArchiveBytes ∧ ∃ content, entry.read = .ok content) →
      ∃ logs, getActionRunLogs (fun _ => []) (fun _ => .ok sampleEntries)
        (fun _ => .ok sampleArchive) sampleConnection false (text "owner") (text "repo") 7 =
        .ok logs) :=
  getActionRunLogs_reports rfl rfl

end ForgejoMcp.Client
