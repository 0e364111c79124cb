import ForgejoMcp.Client.Endpoints

/-!
# Queries

`list_issues` joins its labels and milestones with commas, and `compare_refs` joins two refs with three
dots.  A request tells its arguments apart as long as the arguments do not hold the separator.
-/

namespace ForgejoMcp.Client

open Python Transactions

/-- `value.replace("Z", "+00:00")`. -/
def replaceZ (value : Text) : Text :=
  value.flatMap fun c => if c = 0x5A then text "+00:00" else [c]

/-- `_timestamp`; `fromisoformat` tells whether a parsed time has a timezone. -/
def timestamp (fromisoformat : Text → Option Bool) (value : Text) (label : String) :
    Except Failure Text :=
  match fromisoformat (replaceZ value) with
  | none => .error (.validationFailed (label ++ " must be an RFC 3339 timestamp"))
  | some false => .error (.validationFailed (label ++ " must include a timezone"))
  | some true => .ok value

/-- The arguments of `list_issues`. -/
structure IssueQuery where
  owner : Text
  repo : Text
  state : Text
  labels : Option (List Text)
  milestones : Option (List Text)
  query : Option Text
  since : Option Text
  before : Option Text
  sort : Text
  page : ℤ
  limit : ℤ
  deriving DecidableEq

/-- The states that issues are listed by. -/
def issueStates : List Text := ["open", "closed", "all"].map text

/-- The orders that issues are listed in. -/
def issueSorts : List Text :=
  ["relevance", "latest", "oldest", "recentupdate", "leastupdate", "mostcomment",
    "leastcomment"].map text

/-- The entry of an optional argument. -/
def entry {α : Type} (key : String) (f : α → Except Failure Text) : Option α → Except Failure Dict
  | none => .ok []
  | some a => do return [(text key, .str (← f a))]

/-- `",".join(_string_list(…))`. -/
def joined (label : String) (values : List Text) : Except Failure Text := do
  return Text.join [0x2C] (← stringList values label 50)

/-- `list_issues`, up to the parsing of its payload. -/
def listIssues (fromisoformat : Text → Option Bool) (c : Connection) (q : IssueQuery) : P Json := do
  check (validatePage q.page q.limit)
  Prog.rejectIf (q.state ∉ issueStates) (.validationFailed "issue state is invalid")
  Prog.rejectIf (q.sort ∉ issueSorts) (.validationFailed "issue sort is invalid")
  let labels ← check (entry "labels" (joined "labels") q.labels)
  let milestones ← check (entry "milestones" (joined "milestones") q.milestones)
  let query ← check (entry "q" searchValue q.query)
  let since ← check (entry "since" (timestamp fromisoformat · "since") q.since)
  let before ← check (entry "before" (timestamp fromisoformat · "before") q.before)
  let endpoint ← check (repoEndpoint c q.owner q.repo (text "issues"))
  getJson c endpoint (some ([(text "type", .str (text "issues")), (text "state", .str q.state),
    (text "sort", .str q.sort), (text "page", .int q.page), (text "limit", .int q.limit)] ++ labels ++
    milestones ++ query ++ since ++ before)) "issue list"

/-- What stands between the refs of a comparison. -/
def dots : Text := text "..."

/-- `compare_refs`, up to the parsing of its payload. -/
def compareRefs (c : Connection) (owner repo base head : Text) : P Json := do
  let ownerPath ← check (repositorySegment owner "owner")
  let repoPath ← check (repositorySegment repo "repository")
  let basePath ← check (refValue base "base ref" 255 >>= fun ref => quoted ref [])
  let headPath ← check (refValue head "head ref" 255 >>= fun ref => quoted ref [])
  getJson c (c.baseUrl ++ text "/api/v1/repos/" ++ ownerPath ++ text "/" ++ repoPath ++
    text "/compare/" ++ basePath ++ dots ++ headPath) none "comparison"

/-! ### Lists -/

/-- A list that is joined can be split: it has a value, and none holds a comma. -/
def Separable (values : Option (List Text)) : Prop :=
  ∀ given ∈ values, given ≠ [] ∧ ∀ value ∈ given, (0x2C : CodePoint) ∉ value.strip

/-- Splitting the value of the query gives the stripped list back. -/
def SplitsBack (r : Request) (key : String) (values : Option (List Text)) : Prop :=
  ∀ given ∈ values, ∃ value, r.params.bind (Dict.get · (text key)) = some (.str value) ∧
    value.split 0x2C = given.map Text.strip

theorem stringItem_eq_ok {label : String} {value item : Text}
    (h : stringItem label value = .ok item) : item = value.strip := by
  unfold stringItem at h
  dsimp only at h
  split at h
  · cases h
  · exact (Except.ok.inj h).symm

theorem items_eq {label : String} {values items : List Text}
    (h : List.Forall₂ (fun value item => stringItem label value = .ok item) values items) :
    items = values.map Text.strip := by
  induction h with
  | nil => rfl
  | cons hitem _ ih => rw [List.map_cons, ← stringItem_eq_ok hitem, ← ih]

theorem joined_eq_ok {label : String} {values : List Text} {value : Text}
    (h : joined label values = .ok value) : value = Text.join [0x2C] (values.map Text.strip) := by
  obtain ⟨items, hitems, h⟩ := bind_eq_ok.1 h
  cases h
  unfold stringList at hitems
  split at hitems
  · cases hitems
  · rw [items_eq (mapM_eq_ok.1 hitems)]

/-- The joined values split back just if they are separable. -/
theorem split_join_strip_iff {values : List Text} :
    Text.split (Text.join [0x2C] (values.map Text.strip)) 0x2C = values.map Text.strip ↔
      values ≠ [] ∧ ∀ s ∈ values, (0x2C : CodePoint) ∉ s.strip := by
  rw [Text.split_join_iff, List.forall_mem_map, ne_eq, List.map_eq_nil_iff]

/-! ### The query of `list_issues` -/

theorem searchValue_eq_ok {value a : Text} (h : searchValue value = .ok a) : a = value.strip := by
  unfold searchValue at h
  dsimp only at h
  split at h
  · cases h
  · exact (Except.ok.inj h).symm

theorem timestamp_eq_ok {fromisoformat : Text → Option Bool} {value a : Text} {label : String}
    (h : timestamp fromisoformat value label = .ok a) : a = value := by
  unfold timestamp at h
  split at h
  · cases h
  · cases h
  · exact (Except.ok.inj h).symm

theorem entry_eq_ok {α : Type} {key : String} {f : α → Except Failure Text} {g : α → Text}
    (hf : ∀ a value, f a = .ok value → value = g a) {given : Option α} {e : Dict}
    (h : entry key f given = .ok e) :
    e = (given.map fun a => (text key, Json.str (g a))).toList := by
  cases given with
  | none => exact (Except.ok.inj h).symm
  | some a =>
    obtain ⟨value, hvalue, h⟩ := bind_eq_ok.1 h
    cases h
    rw [hf a value hvalue]
    rfl

theorem get_cons_of_ne {key other : Text} {value : Json} {rest : Dict} (h : other ≠ key) :
    Dict.get ((key, value) :: rest) other = Dict.get rest other := by
  have hkey : (other == key) = false := by simpa using h
  rw [Dict.get, List.lookup_cons, hkey]
  rfl

theorem get_entry_of_ne {α : Type} {key : String} {other : Text} {g : α → Json} {given : Option α}
    {rest : Dict} (h : other ≠ text key) :
    Dict.get ((given.map fun a => (text key, g a)).toList ++ rest) other = Dict.get rest other := by
  cases given with
  | none => rfl
  | some a => exact get_cons_of_ne h

theorem get_entry_self {α : Type} {key : String} {g : α → Json} {given : Option α} {rest : Dict}
    (h : Dict.get rest (text key) = none) :
    Dict.get ((given.map fun a => (text key, g a)).toList ++ rest) (text key) = given.map g := by
  cases given with
  | none => exact h
  | some a => exact get_cons_self _ _ _

/-- What the query of `list_issues` says. -/
structure Carried (q : IssueQuery) (params : Dict) : Prop where
  state : params.get (text "state") = some (.str q.state)
  sort : params.get (text "sort") = some (.str q.sort)
  page : params.get (text "page") = some (.int q.page)
  limit : params.get (text "limit") = some (.int q.limit)
  labels : params.get (text "labels") =
    q.labels.map fun values => .str (Text.join [0x2C] (values.map Text.strip))
  milestones : params.get (text "milestones") =
    q.milestones.map fun values => .str (Text.join [0x2C] (values.map Text.strip))
  query : params.get (text "q") = q.query.map fun value => .str value.strip
  since : params.get (text "since") = q.since.map .str
  before : params.get (text "before") = q.before.map .str

theorem carried (q : IssueQuery) : Carried q ([(text "type", .str (text "issues")),
    (text "state", .str q.state), (text "sort", .str q.sort), (text "page", .int q.page),
    (text "limit", .int q.limit)] ++
    (q.labels.map fun values =>
      (text "labels", .str (Text.join [0x2C] (values.map Text.strip)))).toList ++
    (q.milestones.map fun values =>
      (text "milestones", .str (Text.join [0x2C] (values.map Text.strip)))).toList ++
    (q.query.map fun value => (text "q", .str value.strip)).toList ++
    (q.since.map fun value => (text "since", .str value)).toList ++
    ((q.before.map fun value => (text "before", .str value)).toList ++ [])) := by
  have hnil : ∀ key, Dict.get [] key = none := fun _ => rfl
  simp only [List.append_assoc, List.cons_append, List.nil_append]
  constructor <;> simp (disch := decide) only [get_cons_of_ne, get_cons_self, get_entry_of_ne]
  all_goals
    rw [get_entry_self]
    simp (disch := decide) only [get_entry_of_ne, hnil]

variable {fromisoformat : Text → Option Bool} {c : Connection} {q q' : IssueQuery} {r r' : Request}

/-- A request of `list_issues` carries its query. -/
theorem sent_listIssues (h : sent? (listIssues fromisoformat c q) = some r) :
    (∃ params, r.params = some params ∧ Carried q params) ∧
      repoEndpoint c q.owner q.repo (text "issues") = .ok r.endpoint := by
  simp only [listIssues, Prog.bind_eq, sent?_check, sent?_rejectIf] at h
  obtain ⟨⟨⟩, -, -, -, labels, hlabels, milestones, hmilestones, query, hquery, since, hsince,
    before, hbefore, endpoint, hendpoint, hr⟩ := h
  cases hr
  rw [entry_eq_ok (fun _ _ => joined_eq_ok) hlabels,
    entry_eq_ok (fun _ _ => joined_eq_ok) hmilestones,
    entry_eq_ok (fun _ _ => searchValue_eq_ok) hquery,
    entry_eq_ok (g := fun value => value) (fun _ _ => timestamp_eq_ok) hsince,
    entry_eq_ok (g := fun value => value) (fun _ _ => timestamp_eq_ok) hbefore]
  refine ⟨⟨_, rfl, ?_⟩, hendpoint⟩
  have hcarried := carried q
  rwa [List.append_nil] at hcarried

theorem Carried.splitsBack_iff {params : Dict} {key : String} {values : Option (List Text)}
    (hparams : r.params = some params) (hget : params.get (text key) =
      values.map fun given => .str (Text.join [0x2C] (given.map Text.strip))) :
    SplitsBack r key values ↔ Separable values := by
  have hcarried : r.params.bind (Dict.get · (text key)) =
      values.map fun given => .str (Text.join [0x2C] (given.map Text.strip)) := by
    rw [hparams]
    exact hget
  unfold SplitsBack Separable
  rw [hcarried]
  cases values with
  | none => simp
  | some given =>
    simp only [Option.mem_def, Option.some.injEq, forall_eq', Option.map_some, Json.str.injEq,
      exists_eq_left']
    exact split_join_strip_iff

theorem names_eq_of_endpoint {owner repo owner' repo' suffix endpoint : Text}
    (h : repoEndpoint c owner repo suffix = .ok endpoint)
    (h' : repoEndpoint c owner' repo' suffix = .ok endpoint) :
    owner.strip = owner'.strip ∧ repo.strip = repo'.strip := by
  obtain ⟨ownerPath, howner, h⟩ := bind_eq_ok.1 h
  obtain ⟨repoPath, hrepo, h⟩ := bind_eq_ok.1 h
  obtain ⟨ownerPath', howner', h'⟩ := bind_eq_ok.1 h'
  obtain ⟨repoPath', hrepo', h'⟩ := bind_eq_ok.1 h'
  obtain ⟨hownerEq, hrepoEq, -⟩ := parts_eq (repositorySegment_eq_ok.1 howner).2
    (repositorySegment_eq_ok.1 hrepo).2 (repositorySegment_eq_ok.1 howner').2
    (repositorySegment_eq_ok.1 hrepo').2 ((Except.ok.inj h).trans (Except.ok.inj h').symm)
  exact ⟨hownerEq, hrepoEq⟩

/-- The query without the blanks that are stripped. -/
def IssueQuery.normalized (q : IssueQuery) : IssueQuery :=
  { q with
    owner := q.owner.strip
    repo := q.repo.strip
    labels := q.labels.map (List.map Text.strip)
    milestones := q.milestones.map (List.map Text.strip)
    query := q.query.map Text.strip }

theorem lists_eq {values values' : Option (List Text)} (h : Separable values)
    (h' : Separable values')
    (heq : (values.map fun given => Json.str (Text.join [0x2C] (given.map Text.strip))) =
      values'.map fun given => Json.str (Text.join [0x2C] (given.map Text.strip))) :
    values.map (List.map Text.strip) = values'.map (List.map Text.strip) := by
  cases values with
  | none =>
    cases values' with
    | none => rfl
    | some given' => cases heq
  | some given =>
    cases values' with
    | none => cases heq
    | some given' =>
      have hjoin := Json.str.inj (Option.some.inj heq)
      have hsplit := split_join_strip_iff.2 (h given rfl)
      rw [hjoin, split_join_strip_iff.2 (h' given' rfl)] at hsplit
      exact congrArg some hsplit.symm

/-- A request of `list_issues` determines its separable query. -/
theorem normalized_eq_of_sent (h : sent? (listIssues fromisoformat c q) = some r)
    (h' : sent? (listIssues fromisoformat c q') = some r)
    (hlabels : Separable q.labels ∧ Separable q'.labels)
    (hmilestones : Separable q.milestones ∧ Separable q'.milestones) :
    q.normalized = q'.normalized := by
  obtain ⟨⟨params, hparams, hq⟩, hendpoint⟩ := sent_listIssues h
  obtain ⟨⟨params', hparams', hq'⟩, hendpoint'⟩ := sent_listIssues h'
  obtain rfl : params = params' := Option.some.inj (hparams.symm.trans hparams')
  obtain ⟨howner, hrepo⟩ := names_eq_of_endpoint hendpoint hendpoint'
  have hstate := Json.str.inj (Option.some.inj (hq.state.symm.trans hq'.state))
  have hsort := Json.str.inj (Option.some.inj (hq.sort.symm.trans hq'.sort))
  have hpage := Json.int.inj (Option.some.inj (hq.page.symm.trans hq'.page))
  have hlimit := Json.int.inj (Option.some.inj (hq.limit.symm.trans hq'.limit))
  have hlabelLists := lists_eq hlabels.1 hlabels.2 (hq.labels.symm.trans hq'.labels)
  have hmilestoneLists :=
    lists_eq hmilestones.1 hmilestones.2 (hq.milestones.symm.trans hq'.milestones)
  have hinjective : Function.Injective (Option.map Json.str) :=
    Option.map_injective fun _ _ => Json.str.inj
  have hquery : q.query.map Text.strip = q'.query.map Text.strip := by
    refine hinjective ?_
    rw [Option.map_map, Option.map_map]
    exact hq.query.symm.trans hq'.query
  have hsince := hinjective (hq.since.symm.trans hq'.since)
  have hbefore := hinjective (hq.before.symm.trans hq'.before)
  simp only [IssueQuery.normalized, IssueQuery.mk.injEq]
  exact ⟨howner, hrepo, hstate, hlabelLists, hmilestoneLists, hquery, hsince, hbefore, hsort, hpage,
    hlimit⟩

/-! ### Two refs -/

/-- A text that is a ref. -/
def isRef (s : Text) : Bool := validName 255 s && s.strip == s

/-- The joined refs can be cut at three other dots into refs. -/
def Ambiguous (base head : Text) : Prop :=
  ∃ k, k ≠ base.length ∧ ((base ++ dots ++ head).drop k).take 3 = dots ∧
    isRef ((base ++ dots ++ head).take k) = true ∧
    isRef ((base ++ dots ++ head).drop (k + 3)) = true

variable {owner repo base head base' head' : Text}

/-- A request of `compare_refs` has the joined refs, quoted, in its endpoint. -/
theorem sent_compareRefs : sent? (compareRefs c owner repo base head) = some r ↔
    ∃ ownerPath repoPath basePath headPath,
      repositorySegment owner "owner" = .ok ownerPath ∧
      repositorySegment repo "repository" = .ok repoPath ∧
      (validName 255 base.strip = true ∧ base.strip.quote [] = some basePath) ∧
      (validName 255 head.strip = true ∧ head.strip.quote [] = some headPath) ∧
      sent? (getJson c (c.baseUrl ++ text "/api/v1/repos/" ++ ownerPath ++ text "/" ++ repoPath ++
        text "/compare/" ++ basePath ++ dots ++ headPath) none "comparison") = some r := by
  have href : ∀ {s q label}, (refValue s label 255 >>= fun ref => quoted ref []) = .ok q ↔
      validName 255 s.strip = true ∧ s.strip.quote [] = some q := by
    intro s q label
    refine ⟨quotedRef_eq_ok, fun ⟨hvalid, hquote⟩ => ?_⟩
    exact bind_eq_ok.2 ⟨_, refValue_eq_ok.2 ⟨hvalid, rfl⟩, quoted_eq_ok.2 hquote⟩
  simp only [compareRefs, Prog.bind_eq, sent?_check, href]
  constructor
  · rintro ⟨ownerPath, howner, repoPath, hrepo, basePath, hbase, headPath, hhead, hr⟩
    exact ⟨ownerPath, repoPath, basePath, headPath, howner, hrepo, hbase, hhead, hr⟩
  · rintro ⟨ownerPath, repoPath, basePath, headPath, howner, hrepo, hbase, hhead, hr⟩
    exact ⟨ownerPath, howner, repoPath, hrepo, basePath, hbase, headPath, hhead, hr⟩

/-- Two comparisons in a repository have one endpoint just if their joined refs are the same. -/
theorem endpoint_eq_iff (h : sent? (compareRefs c owner repo base head) = some r)
    (h' : sent? (compareRefs c owner repo base' head') = some r') :
    r'.endpoint = r.endpoint ↔
      base'.strip ++ dots ++ head'.strip = base.strip ++ dots ++ head.strip := by
  obtain ⟨ownerPath, repoPath, basePath, headPath, howner, hrepo, ⟨-, hbase⟩, ⟨-, hhead⟩, hr⟩ :=
    sent_compareRefs.1 h
  obtain ⟨ownerPath', repoPath', basePath', headPath', howner', hrepo', ⟨-, hbase'⟩, ⟨-, hhead'⟩,
    hr'⟩ := sent_compareRefs.1 h'
  obtain rfl : ownerPath = ownerPath' := Except.ok.inj (howner.symm.trans howner')
  obtain rfl : repoPath = repoPath' := Except.ok.inj (hrepo.symm.trans hrepo')
  have hdots : dots.quote [] = some dots := by decide +kernel
  have hquote := Text.quote_append (Text.quote_append hbase hdots) hhead
  have hquote' := Text.quote_append (Text.quote_append hbase' hdots) hhead'
  cases hr
  cases hr'
  constructor
  · intro heq
    have hjoined : basePath' ++ dots ++ headPath' = basePath ++ dots ++ headPath := by
      simp only [List.append_assoc, List.append_cancel_left_eq] at heq ⊢
      exact heq
    rw [hjoined] at hquote'
    exact Option.some.inj ((Text.unquote_quote (by decide) hquote').symm.trans
      (Text.unquote_quote (by decide) hquote))
  · intro heq
    rw [heq, hquote] at hquote'
    have hjoined := Option.some.inj hquote'
    simp only [List.append_assoc] at hjoined ⊢
    rw [hjoined]

theorem isRef_iff {s : Text} : isRef s = true ↔ validName 255 s = true ∧ s.strip = s := by
  rw [isRef, Bool.and_eq_true, beq_iff_eq]

/-- A text is what is before three dots in it, the dots, and what is after them. -/
theorem joined_cut {s : Text} {k : ℕ} (h : (s.drop k).take 3 = dots) :
    s.take k ++ dots ++ s.drop (k + 3) = s := by
  rw [← h, List.append_assoc, ← List.drop_drop, List.take_append_drop, List.take_append_drop]

theorem isRef_strip {s : Text} (h : validName 255 s.strip = true) : isRef s.strip = true := by
  exact isRef_iff.2 ⟨h, Text.strip_strip s⟩

/-- The endpoint of a comparison determines its refs just if they are not ambiguous. -/
theorem compare_determined_iff (h : sent? (compareRefs c owner repo base head) = some r) :
    (∀ base' head' r', sent? (compareRefs c owner repo base' head') = some r' →
      r'.endpoint = r.endpoint → base'.strip = base.strip ∧ head'.strip = head.strip) ↔
      ¬Ambiguous base.strip head.strip := by
  constructor
  · rintro hdetermined ⟨k, hk, hdots, hbase, hhead⟩
    obtain ⟨ownerPath, repoPath, basePath, headPath, howner, hrepo, ⟨-, hbasePath⟩,
      ⟨-, hheadPath⟩, -⟩ := sent_compareRefs.1 h
    have hcut := joined_cut hdots
    have hquote := Text.quote_append (Text.quote_append hbasePath
      (by decide +kernel : dots.quote [] = some dots)) hheadPath
    rw [← hcut] at hquote
    obtain ⟨first, headPath', hfirst, hheadPath'⟩ := Text.quote_of_append hquote
    obtain ⟨basePath', -, hbasePath', -⟩ := Text.quote_of_append hfirst
    obtain ⟨hbaseValid, hbaseStrip⟩ := isRef_iff.1 hbase
    obtain ⟨hheadValid, hheadStrip⟩ := isRef_iff.1 hhead
    have hsent := (sent_compareRefs (c := c)).2 ⟨ownerPath, repoPath, basePath', headPath', howner,
      hrepo, ⟨hbaseStrip.symm ▸ hbaseValid, hbaseStrip.symm ▸ hbasePath'⟩,
      ⟨hheadStrip.symm ▸ hheadValid, hheadStrip.symm ▸ hheadPath'⟩, rfl⟩
    have heq := (endpoint_eq_iff h hsent).2 (by rw [hbaseStrip, hheadStrip, hcut])
    have hbaseEq := (hdetermined _ _ _ hsent heq).1
    rw [hbaseStrip] at hbaseEq
    have hlength := congrArg List.length hbaseEq
    have hlt := congrArg List.length hdots
    rw [List.length_take, List.length_drop] at hlt
    have hthree : dots.length = 3 := by rfl
    rw [List.length_take] at hlength
    omega
  · intro hunambiguous base' head' r' h' heq
    have hjoined := (endpoint_eq_iff h h').1 heq
    obtain ⟨-, -, -, -, -, -, ⟨hbase', -⟩, ⟨hhead', -⟩, -⟩ := sent_compareRefs.1 h'
    have hlength : base'.strip.length = base.strip.length := by
      by_contra hk
      refine hunambiguous ⟨base'.strip.length, hk, ?_, ?_, ?_⟩ <;> rw [← hjoined]
      · rw [List.append_assoc, List.drop_left]
        exact @List.take_left _ dots _
      · rw [List.append_assoc, List.take_left]
        exact isRef_strip hbase'
      · have hthree : base'.strip.length + 3 = (base'.strip ++ dots).length := by
          rw [List.length_append]
          rfl
        rw [hthree, List.drop_left]
        exact isRef_strip hhead'
    rw [List.append_assoc, List.append_assoc] at hjoined
    obtain ⟨hbase, hrest⟩ := List.append_inj hjoined hlength
    exact ⟨hbase, List.append_cancel_left hrest⟩

/-- A request can be read back just if its lists are separable and its refs are not ambiguous. -/
theorem request_encoding_iff (fromisoformat : Text → Option Bool) (c : Connection) :
    (∀ (q : IssueQuery) (r : Request), sent? (listIssues fromisoformat c q) = some r →
      (SplitsBack r "labels" q.labels ∧ SplitsBack r "milestones" q.milestones ↔
        Separable q.labels ∧ Separable q.milestones)) ∧
    (∀ (q q' : IssueQuery) (r : Request), sent? (listIssues fromisoformat c q) = some r →
      sent? (listIssues fromisoformat c q') = some r → Separable q.labels ∧ Separable q'.labels →
      Separable q.milestones ∧ Separable q'.milestones → q.normalized = q'.normalized) ∧
    ∀ (owner repo base head : Text) (r : Request),
      sent? (compareRefs c owner repo base head) = some r →
      ((∀ base' head' r', sent? (compareRefs c owner repo base' head') = some r' →
        r'.endpoint = r.endpoint → base'.strip = base.strip ∧ head'.strip = head.strip) ↔
        ¬Ambiguous base.strip head.strip) := by
  refine ⟨fun q r h => ?_, fun q q' r h h' hlabels hmilestones => ?_, fun _ _ _ _ _ h => ?_⟩
  · obtain ⟨⟨params, hparams, hcarried⟩, -⟩ := sent_listIssues h
    rw [Carried.splitsBack_iff hparams hcarried.labels,
      Carried.splitsBack_iff hparams hcarried.milestones]
  · exact normalized_eq_of_sent h h' hlabels hmilestones
  · exact compare_determined_iff h

/-- A query for the open issues with the labels. -/
def sampleIssues (labels : List Text) : IssueQuery where
  owner := text "alice"
  repo := text "site"
  state := text "open"
  labels := some labels
  milestones := none
  query := none
  since := none
  before := none
  sort := text "latest"
  page := 1
  limit := 30

/-- One label with a comma is sent like two labels, and one pair of refs like another. -/
theorem request_encoding_collides :
    (∃ r, sent? (listIssues (fun _ => none) sampleConnection (sampleIssues [text "bug,ui"])) =
        some r ∧
      sent? (listIssues (fun _ => none) sampleConnection (sampleIssues [text "bug", text "ui"])) =
        some r ∧ ¬SplitsBack r "labels" (some [text "bug,ui"])) ∧
    ∃ r, sent? (compareRefs sampleConnection (text "alice") (text "site") (text "a")
        (text "b...c")) = some r ∧
      sent? (compareRefs sampleConnection (text "alice") (text "site") (text "a...b")
        (text "c")) = some r := by
  refine ⟨⟨_, by rfl, by rfl, ?_⟩, _, by rfl, by rfl⟩
  intro hsplits
  obtain ⟨value, hvalue, hsplit⟩ := hsplits _ rfl
  cases hvalue
  revert hsplit
  decide +kernel

end ForgejoMcp.Client
