import ForgejoMcp.Client.Contents

/-!
# Endpoints

The endpoints of the methods that read a path or a ref of a repository.  Each names what was asked for:
its segments decode to the owner, the repository and the path or ref, so that different targets have
different URLs.
-/

namespace ForgejoMcp.Client

open Python Transactions

/-! ### The methods -/

/-- The suffix of the contents of a path; an empty path is the root. -/
def contentsSuffix (path : Option Text) : Except Failure Text :=
  match path with
  | none | some [] => .ok (text "contents")
  | some path => do
    return text "contents/" ++ (← quoted (← filePath path) [0x2F])

/-- `list_repository_contents`, up to the parsing of its payload. -/
def listRepositoryContents (c : Connection) (owner repo : Text) (path ref : Option Text) :
    P Json := do
  let suffix ← check (contentsSuffix path)
  let params ← check (refParams ref)
  let endpoint ← check (repoEndpoint c owner repo suffix)
  getJson c endpoint params "repository contents"

/-- `get_git_tree`, up to the parsing of its payload. -/
def getGitTree (c : Connection) (owner repo sha : Text) (recursive : Bool) (page limit : ℤ) :
    P Json := do
  check (validatePage page limit)
  let treeSha ← check (refValue sha "tree SHA or ref" 255 >>= fun sha => quoted sha [])
  let endpoint ← check (repoEndpoint c owner repo (text "git/trees/" ++ treeSha))
  getJson c endpoint (some [(text "recursive", .bool recursive), (text "page", .int page),
    (text "per_page", .int limit)]) "git tree"

/-- `get_commit`, up to the parsing of its payload. -/
def getCommit (c : Connection) (owner repo sha : Text) : P Json := do
  let ownerPath ← check (repositorySegment owner "owner")
  let repoPath ← check (repositorySegment repo "repository")
  let commitPath ← check (refValue sha "commit SHA" 64 >>= fun sha => quoted sha [])
  getJson c (c.baseUrl ++ text "/api/v1/repos/" ++ ownerPath ++ text "/" ++ repoPath ++
    text "/git/commits/" ++ commitPath) (some [(text "stat", .bool true),
    (text "verification", .bool false), (text "files", .bool true)]) "commit"

/-- A call of one of the methods. -/
inductive Reading
  | listContents (owner repo : Text) (path ref : Option Text)
  | fileContent (owner repo path : Text) (ref : Option Text)
  | gitTree (owner repo sha : Text) (recursive : Bool) (page limit : ℤ)
  | commit (owner repo sha : Text)

namespace Reading

/-- The request that a call sends. -/
def sent? (c : Connection) : Reading → Option Request
  | listContents owner repo path ref => Client.sent? (listRepositoryContents c owner repo path ref)
  | fileContent owner repo path ref => Client.sent? (getFileContent c owner repo path ref)
  | gitTree owner repo sha recursive page limit =>
    Client.sent? (getGitTree c owner repo sha recursive page limit)
  | commit owner repo sha => Client.sent? (getCommit c owner repo sha)

end Reading

/-! ### Targets -/

/-- What a call asks for, with its names stripped. -/
inductive Resource
  | contents (path : Option Text)
  | tree (ref : Text)
  | commit (sha : Text)

/-- What a URL names: a resource of a repository. -/
structure Target where
  owner : Text
  repo : Text
  resource : Resource

namespace Resource

/-- The segments that name a resource in its repository. -/
def segments : Resource → List Text
  | contents none => [text "contents"]
  | contents (some path) => text "contents" :: path.split 0x2F
  | tree ref => [text "git", text "trees", ref]
  | commit sha => [text "git", text "commits", sha]

/-- What the checks accept. -/
def Accepted : Resource → Prop
  | contents none => True
  | contents (some path) => validPath path = true
  | tree ref => validName 255 ref = true
  | commit sha => validName 64 sha = true

theorem segments_injective : Function.Injective segments := by
  intro r r' h
  have hgit : text "contents" ≠ text "git" := by decide
  have htrees : text "trees" ≠ text "commits" := by decide
  have hsplit : ∀ path : Text, path.split 0x2F ≠ [] := fun path => List.splitOn_ne_nil _ _
  rcases r with (_ | path) | ref | sha <;> rcases r' with (_ | path') | ref' | sha' <;>
    simp only [segments, List.cons.injEq, hgit, hgit.symm, htrees, htrees.symm, hsplit,
      (hsplit _).symm, true_and, false_and, and_false, and_true, List.nil_eq] at h
  · rfl
  · rw [Text.split_injective 0x2F h]
  · rw [h]
  · rw [h]

end Resource

namespace Target

/-- The segments of the path of the target's URL. -/
def segments (t : Target) : List Text :=
  [text "api", text "v1", text "repos", t.owner, t.repo] ++ t.resource.segments

/-- The parts of the target pass the checks of the client. -/
structure Accepted (t : Target) : Prop where
  owner : validName 255 t.owner = true ∧ (0x2F : CodePoint) ∉ t.owner
  repo : validName 255 t.repo = true ∧ (0x2F : CodePoint) ∉ t.repo
  resource : t.resource.Accepted

theorem segments_injective : Function.Injective segments := by
  rintro ⟨owner, repo, resource⟩ ⟨owner', repo', resource'⟩ h
  have htail := List.append_inj h rfl
  obtain ⟨rfl, rfl⟩ : owner = owner' ∧ repo = repo' := by simpa using htail.1
  exact congrArg _ (Resource.segments_injective htail.2)

end Target

/-! ### URLs -/

/-- No character that ends the path of a URL. -/
def PathOnly (s : Text) : Prop := (0x3F : CodePoint) ∉ s ∧ (0x23 : CodePoint) ∉ s

/-- The endpoint names the target: its segments after the base URL decode to those of the target, and
none of them is a dot segment. -/
def Names (c : Connection) (target : Target) (endpoint : Text) : Prop :=
  ∃ path : Text, endpoint = c.baseUrl ++ 0x2F :: path ∧
    (path.split 0x2F).map Text.unquote = target.segments.map some ∧ PathOnly path ∧
    ∀ segment ∈ path.split 0x2F, segment ≠ dot ∧ segment ≠ dotDot

variable {c : Connection} {t t' : Target} {endpoint s q suffix : Text}

theorem PathOnly.append (hs : PathOnly s) (hq : PathOnly q) : PathOnly (s ++ q) :=
  ⟨fun h => (List.mem_append.1 h).elim hs.1 hq.1, fun h => (List.mem_append.1 h).elim hs.2 hq.2⟩

theorem pathOnly_quote {safe : Text} (h : s.quote safe = some q)
    (hquery : Quote.kept safe 0x3F = false) (hfragment : Quote.kept safe 0x23 = false) :
    PathOnly q :=
  ⟨Text.not_mem_quote h hquery (by decide), Text.not_mem_quote h hfragment (by decide)⟩

theorem Target.Accepted.ne_dot (h : t.Accepted) {segment : Text}
    (hsegment : segment ∈ t.segments) : segment ≠ dot ∧ segment ≠ dotDot := by
  have hliteral : ∀ s ∈ [text "api", text "v1", text "repos", text "contents", text "git",
      text "trees", text "commits"], s ≠ dot ∧ s ≠ dotDot := by decide
  simp only [Target.segments, List.cons_append, List.nil_append, List.mem_cons] at hsegment
  rcases hsegment with rfl | rfl | rfl | rfl | rfl | hsegment
  · exact hliteral _ (by simp)
  · exact hliteral _ (by simp)
  · exact hliteral _ (by simp)
  · exact validName_ne_dot h.owner.1
  · exact validName_ne_dot h.repo.1
  have hresource := h.resource
  rcases hr : t.resource with (_ | path) | ref | sha <;> rw [hr] at hsegment hresource <;>
    simp only [Resource.segments, List.mem_cons, List.not_mem_nil, or_false] at hsegment
  · exact hsegment ▸ hliteral _ (by simp)
  · rcases hsegment with rfl | hsegment
    · exact hliteral _ (by simp)
    · exact validPath_ne_dot hresource hsegment
  · rcases hsegment with rfl | rfl | rfl
    · exact hliteral _ (by simp)
    · exact hliteral _ (by simp)
    · exact validName_ne_dot hresource
  · rcases hsegment with rfl | rfl | rfl
    · exact hliteral _ (by simp)
    · exact hliteral _ (by simp)
    · exact validName_ne_dot hresource

/-- Different targets do not share a URL. -/
theorem Names.target_eq (h : Names c t endpoint) (h' : Names c t' endpoint) : t = t' := by
  obtain ⟨path, rfl, hsegments, -, -⟩ := h
  obtain ⟨path', heq, hsegments', -, -⟩ := h'
  obtain rfl : path = path' := (List.cons.inj (List.append_cancel_left heq)).2
  rw [hsegments] at hsegments'
  exact Target.segments_injective (List.map_injective_iff.2 (Option.some_injective _) hsegments')

theorem unquote_api : (text "api").unquote = some (text "api") := by decide +kernel

theorem unquote_v1 : (text "v1").unquote = some (text "v1") := by decide +kernel

theorem unquote_repos : (text "repos").unquote = some (text "repos") := by decide +kernel

theorem unquote_contents : (text "contents").unquote = some (text "contents") := by
  decide +kernel

theorem unquote_git : (text "git").unquote = some (text "git") := by decide +kernel

theorem unquote_trees : (text "trees").unquote = some (text "trees") := by decide +kernel

theorem unquote_commits : (text "commits").unquote = some (text "commits") := by decide +kernel

theorem slash_not_mem_quote (h : s.quote [] = some q) : (0x2F : CodePoint) ∉ q :=
  Text.not_mem_quote h (b := 0x2F) (by decide) (by decide)

/-- The part of an endpoint after the base URL and its slash. -/
def endpointPath (ownerPath repoPath suffix : Text) : Text :=
  text "api/v1/repos/" ++ (ownerPath ++ 0x2F :: (repoPath ++ 0x2F :: suffix))

section Parts

variable {owner repo ownerPath repoPath : Text}

theorem endpoint_eq : c.baseUrl ++ text "/api/v1/repos/" ++ ownerPath ++ text "/" ++ repoPath ++
    text "/" ++ suffix = c.baseUrl ++ 0x2F :: endpointPath ownerPath repoPath suffix := by
  simp only [List.append_assoc]
  rfl

theorem split_endpointPath (howner : owner.quote [] = some ownerPath)
    (hrepo : repo.quote [] = some repoPath) :
    (endpointPath ownerPath repoPath suffix).split 0x2F =
      text "api" :: text "v1" :: text "repos" :: ownerPath :: repoPath :: suffix.split 0x2F := by
  have hliteral : endpointPath ownerPath repoPath suffix =
      text "api" ++ 0x2F :: (text "v1" ++ 0x2F :: (text "repos" ++ 0x2F ::
        (ownerPath ++ 0x2F :: (repoPath ++ 0x2F :: suffix)))) := by
    rfl
  rw [hliteral, Text.split_append_cons (by decide), Text.split_append_cons (by decide),
    Text.split_append_cons (by decide), Text.split_append_cons (slash_not_mem_quote howner),
    Text.split_append_cons (slash_not_mem_quote hrepo)]

/-- The parts of an endpoint, quoted, make an endpoint that names the target. -/
theorem names_of_parts {resource : Resource} (hacc : Target.Accepted ⟨owner, repo, resource⟩)
    (howner : owner.quote [] = some ownerPath) (hrepo : repo.quote [] = some repoPath)
    (hsuffix : (suffix.split 0x2F).map Text.unquote = resource.segments.map some)
    (hclean : PathOnly suffix) :
    Names c ⟨owner, repo, resource⟩ (c.baseUrl ++ text "/api/v1/repos/" ++ ownerPath ++ text "/" ++
      repoPath ++ text "/" ++ suffix) := by
  have hmap : ((endpointPath ownerPath repoPath suffix).split 0x2F).map Text.unquote =
      (Target.segments ⟨owner, repo, resource⟩).map some := by
    rw [split_endpointPath howner hrepo, Target.segments, List.map_append, ← hsuffix]
    simp only [List.map_cons, List.map_nil, Text.unquote_quote (by decide) howner,
      Text.unquote_quote (by decide) hrepo, List.cons_append, List.nil_append, unquote_api,
      unquote_v1, unquote_repos]
  refine ⟨endpointPath ownerPath repoPath suffix, endpoint_eq, hmap, ?_, fun segment hsegment => ?_⟩
  · have hslash : ∀ {s : Text}, PathOnly s → PathOnly (0x2F :: s) := fun h =>
      ⟨List.not_mem_cons_of_ne_of_not_mem (by decide) h.1,
        List.not_mem_cons_of_ne_of_not_mem (by decide) h.2⟩
    have hrepoPart := (pathOnly_quote hrepo (by decide) (by decide)).append (hslash hclean)
    have hownerPart := (pathOnly_quote howner (by decide) (by decide)).append (hslash hrepoPart)
    exact PathOnly.append (by unfold PathOnly; decide) hownerPart
  · have hmem : segment.unquote ∈ (Target.segments ⟨owner, repo, resource⟩).map some :=
      hmap ▸ List.mem_map_of_mem hsegment
    obtain ⟨name, hname, heq⟩ := List.mem_map.1 hmem
    obtain ⟨hdot, hdotDot⟩ := hacc.ne_dot hname
    constructor
    · rintro rfl
      exact hdot (Option.some.inj (heq.trans (by decide +kernel : dot.unquote = some dot)))
    · rintro rfl
      exact hdotDot
        (Option.some.inj (heq.trans (by decide +kernel : dotDot.unquote = some dotDot)))

/-- An endpoint tells its owner, its repository and its suffix. -/
theorem parts_eq {owner' repo' ownerPath' repoPath' suffix' : Text}
    (howner : owner.quote [] = some ownerPath) (hrepo : repo.quote [] = some repoPath)
    (howner' : owner'.quote [] = some ownerPath') (hrepo' : repo'.quote [] = some repoPath')
    (h : c.baseUrl ++ text "/api/v1/repos/" ++ ownerPath ++ text "/" ++ repoPath ++ text "/" ++
      suffix = c.baseUrl ++ text "/api/v1/repos/" ++ ownerPath' ++ text "/" ++ repoPath' ++
        text "/" ++ suffix') : owner = owner' ∧ repo = repo' ∧ suffix = suffix' := by
  rw [endpoint_eq, endpoint_eq] at h
  have hpath := (List.cons.inj (List.append_cancel_left h)).2
  have hsplit := congrArg (Text.split · 0x2F) hpath
  simp only [split_endpointPath howner hrepo, split_endpointPath howner' hrepo', List.cons.injEq,
    true_and] at hsplit
  obtain ⟨rfl, rfl, hsuffix⟩ := hsplit
  refine ⟨?_, ?_, Text.split_injective 0x2F hsuffix⟩
  · exact Option.some.inj ((Text.unquote_quote (by decide) howner).symm.trans
      (Text.unquote_quote (by decide) howner'))
  · exact Option.some.inj ((Text.unquote_quote (by decide) hrepo).symm.trans
      (Text.unquote_quote (by decide) hrepo'))

end Parts

/-! ### Calls -/

/-- An optional ref that the checks accept. -/
def RefAccepted (ref : Option Text) : Prop := ∀ value ∈ ref, validName 255 value.strip = true

namespace Reading

/-- The target that the arguments of a reading name. -/
def target : Reading → Target
  | listContents owner repo (some (c :: path)) _ =>
    ⟨owner.strip, repo.strip, .contents (some (Text.strip (c :: path)))⟩
  | listContents owner repo _ _ => ⟨owner.strip, repo.strip, .contents none⟩
  | fileContent owner repo path _ => ⟨owner.strip, repo.strip, .contents (some path.strip)⟩
  | gitTree owner repo sha _ _ _ => ⟨owner.strip, repo.strip, .tree sha.strip⟩
  | commit owner repo sha => ⟨owner.strip, repo.strip, .commit sha.strip⟩

/-- What the checks accept beside the target. -/
def QueryAccepted : Reading → Prop
  | listContents _ _ _ ref => RefAccepted ref
  | fileContent _ _ _ ref => RefAccepted ref
  | gitTree _ _ _ _ page limit => (1 ≤ page ∧ page ≤ 100000) ∧ 1 ≤ limit ∧ limit ≤ 100
  | commit _ _ _ => True

end Reading

theorem refAccepted_of_params {ref : Option Text} {params : Option Dict}
    (h : refParams ref = .ok params) : RefAccepted ref := by
  intro value hvalue
  cases hvalue
  obtain ⟨name, hname, -⟩ := bind_eq_ok.1 h
  exact (refValue_eq_ok.1 hname).1

/-- An endpoint of a repository names what its suffix names. -/
theorem names_repoEndpoint {owner repo : Text} (resource : Resource)
    (h : repoEndpoint c owner repo suffix = .ok endpoint) (hresource : resource.Accepted)
    (hsuffix : (suffix.split 0x2F).map Text.unquote = resource.segments.map some)
    (hclean : PathOnly suffix) :
    Target.Accepted ⟨owner.strip, repo.strip, resource⟩ ∧
      Names c ⟨owner.strip, repo.strip, resource⟩ endpoint := by
  obtain ⟨ownerPath, howner, h⟩ := bind_eq_ok.1 h
  obtain ⟨repoPath, hrepo, h⟩ := bind_eq_ok.1 h
  cases h
  obtain ⟨hownerName, howner⟩ := repositorySegment_eq_ok.1 howner
  obtain ⟨hrepoName, hrepo⟩ := repositorySegment_eq_ok.1 hrepo
  have hacc : Target.Accepted ⟨owner.strip, repo.strip, resource⟩ :=
    ⟨hownerName, hrepoName, hresource⟩
  exact ⟨hacc, names_of_parts hacc howner hrepo hsuffix hclean⟩

/-- The suffix of a path names its contents. -/
theorem contents_suffix {path : Text} (h : path.quote [0x2F] = some q) :
    ((text "contents/" ++ q).split 0x2F).map Text.unquote =
      (Resource.contents (some path)).segments.map some ∧ PathOnly (text "contents/" ++ q) := by
  have hliteral : text "contents/" ++ q = text "contents" ++ 0x2F :: q := by rfl
  constructor
  · rw [hliteral, Text.split_append_cons (by decide), List.map_cons, Text.split_quote h,
      unquote_contents, Resource.segments, List.map_cons]
  · exact PathOnly.append (by unfold PathOnly; decide) (pathOnly_quote h (by decide) (by decide))

theorem root_suffix : ((text "contents").split 0x2F).map Text.unquote =
      (Resource.contents none).segments.map some ∧ PathOnly (text "contents") := by
  rw [Text.split_eq_singleton (by decide), List.map_singleton, unquote_contents]
  exact ⟨rfl, by unfold PathOnly; decide⟩

/-- A quoted ref is one segment. -/
theorem ref_suffix {ref : Text} (h : ref.quote [] = some q) :
    q.split 0x2F = [q] ∧ q.unquote = some ref ∧ PathOnly q :=
  ⟨Text.split_eq_singleton (Text.not_mem_quote h (b := 0x2F) (by decide) (by decide)),
    Text.unquote_quote (by decide) h, pathOnly_quote h (by decide) (by decide)⟩

theorem tree_suffix {ref : Text} (h : ref.quote [] = some q) :
    ((text "git/trees/" ++ q).split 0x2F).map Text.unquote = (Resource.tree ref).segments.map some ∧
      PathOnly (text "git/trees/" ++ q) := by
  obtain ⟨hsplit, hunquote, hclean⟩ := ref_suffix h
  have hliteral : text "git/trees/" ++ q = text "git" ++ 0x2F :: (text "trees" ++ 0x2F :: q) := by
    rfl
  constructor
  · rw [hliteral, Text.split_append_cons (by decide), Text.split_append_cons (by decide), hsplit]
    simp only [List.map_cons, List.map_nil, hunquote, unquote_git, unquote_trees,
      Resource.segments]
  · exact PathOnly.append (by unfold PathOnly; decide) hclean

theorem commit_suffix {ref : Text} (h : ref.quote [] = some q) :
    ((text "git/commits/" ++ q).split 0x2F).map Text.unquote =
      (Resource.commit ref).segments.map some ∧ PathOnly (text "git/commits/" ++ q) := by
  obtain ⟨hsplit, hunquote, hclean⟩ := ref_suffix h
  have hliteral : text "git/commits/" ++ q =
      text "git" ++ 0x2F :: (text "commits" ++ 0x2F :: q) := by
    rfl
  constructor
  · rw [hliteral, Text.split_append_cons (by decide), Text.split_append_cons (by decide), hsplit]
    simp only [List.map_cons, List.map_nil, hunquote, unquote_git, unquote_commits,
      Resource.segments]
  · exact PathOnly.append (by unfold PathOnly; decide) hclean

theorem quotedRef_eq_ok {label : String} {n : ℕ}
    (h : (refValue s label n >>= fun name => quoted name []) = .ok q) :
    validName n s.strip = true ∧ s.strip.quote [] = some q := by
  obtain ⟨name, hname, hq⟩ := bind_eq_ok.1 h
  obtain ⟨hvalid, rfl⟩ := refValue_eq_ok.1 hname
  exact ⟨hvalid, quoted_eq_ok.1 hq⟩

/-- A request of a call names its target. -/
theorem names_of_sent {call : Reading} {r : Request} (h : call.sent? c = some r) :
    (call.target.Accepted ∧ call.QueryAccepted) ∧ Names c call.target r.endpoint := by
  cases call with
  | listContents owner repo path ref =>
    simp only [Reading.sent?, listRepositoryContents, Prog.bind_eq, sent?_check] at h
    obtain ⟨suffix, hsuffix, params, hparams, endpoint, hendpoint, hr⟩ := h
    cases hr
    have href := refAccepted_of_params hparams
    match path, hsuffix with
    | none, hsuffix | some [], hsuffix =>
      cases hsuffix
      obtain ⟨hacc, hnames⟩ := names_repoEndpoint (.contents none) hendpoint trivial root_suffix.1
        root_suffix.2
      exact ⟨⟨hacc, href⟩, hnames⟩
    | some (d :: path), hsuffix =>
      obtain ⟨name, hname, hsuffix⟩ := bind_eq_ok.1 hsuffix
      obtain ⟨quotedPath, hquoted, hsuffix⟩ := bind_eq_ok.1 hsuffix
      cases hsuffix
      obtain ⟨hvalid, rfl⟩ := filePath_eq_ok.1 hname
      obtain ⟨hsegments, hclean⟩ := contents_suffix (quoted_eq_ok.1 hquoted)
      obtain ⟨hacc, hnames⟩ := names_repoEndpoint (.contents (some (Text.strip (d :: path))))
        hendpoint hvalid hsegments hclean
      exact ⟨⟨hacc, href⟩, hnames⟩
  | fileContent owner repo path ref =>
    simp only [Reading.sent?, getFileContent, Prog.bind_eq, sent?_check] at h
    obtain ⟨name, hname, params, hparams, quotedPath, hquoted, endpoint, hendpoint, hr⟩ := h
    cases hr
    obtain ⟨hvalid, rfl⟩ := filePath_eq_ok.1 hname
    obtain ⟨hsegments, hclean⟩ := contents_suffix (quoted_eq_ok.1 hquoted)
    obtain ⟨hacc, hnames⟩ := names_repoEndpoint (.contents (some path.strip)) hendpoint hvalid
      hsegments hclean
    exact ⟨⟨hacc, refAccepted_of_params hparams⟩, hnames⟩
  | gitTree owner repo sha recursive page limit =>
    simp only [Reading.sent?, getGitTree, Prog.bind_eq, sent?_check] at h
    obtain ⟨⟨⟩, hpage, treeSha, hsha, endpoint, hendpoint, hr⟩ := h
    cases hr
    obtain ⟨hvalid, hquoted⟩ := quotedRef_eq_ok hsha
    obtain ⟨hsegments, hclean⟩ := tree_suffix hquoted
    obtain ⟨hacc, hnames⟩ := names_repoEndpoint (.tree sha.strip) hendpoint hvalid hsegments hclean
    exact ⟨⟨hacc, validatePage_eq_ok hpage⟩, hnames⟩
  | commit owner repo sha =>
    simp only [Reading.sent?, getCommit, Prog.bind_eq, sent?_check] at h
    obtain ⟨ownerPath, howner, repoPath, hrepo, commitPath, hsha, hr⟩ := h
    cases hr
    obtain ⟨hownerName, howner⟩ := repositorySegment_eq_ok.1 howner
    obtain ⟨hrepoName, hrepo⟩ := repositorySegment_eq_ok.1 hrepo
    obtain ⟨hvalid, hquoted⟩ := quotedRef_eq_ok hsha
    obtain ⟨hsegments, hclean⟩ := commit_suffix hquoted
    have hacc : Target.Accepted ⟨owner.strip, repo.strip, .commit sha.strip⟩ :=
      ⟨hownerName, hrepoName, hvalid⟩
    have hnames := names_of_parts (c := c) hacc howner hrepo hsegments hclean
    refine ⟨⟨hacc, trivial⟩, ?_⟩
    have hsuffix : text "/git/commits/" ++ commitPath =
        text "/" ++ (text "git/commits/" ++ commitPath) := by
      rfl
    rw [List.append_assoc _ _ commitPath, hsuffix, ← List.append_assoc]
    exact hnames

/-- The URL of a request names what its call asks for, and rejected arguments send no request. -/
theorem url_names_target (c : Connection) :
    (∀ (call : Reading) (r : Request), call.sent? c = some r → Names c call.target r.endpoint) ∧
      (∀ (call call' : Reading) (r r' : Request), call.sent? c = some r → call'.sent? c = some r' →
        r.endpoint = r'.endpoint → call.target = call'.target) ∧
      ∀ call : Reading, ¬(call.target.Accepted ∧ call.QueryAccepted) → call.sent? c = none := by
  refine ⟨fun call r h => (names_of_sent h).2, fun call call' r r' h h' heq => ?_,
    fun call hrejected => ?_⟩
  · have hnames := (names_of_sent h).2
    rw [heq] at hnames
    exact hnames.target_eq (names_of_sent h').2
  · rw [Option.eq_none_iff_forall_ne_some]
    exact fun r h => hrejected (names_of_sent h).1

example : ((Reading.fileContent (text "alice") (text "my site") (text " docs/a?b.md") none).sent?
    sampleConnection).map Request.endpoint =
      some (text "https://forge.example/api/v1/repos/alice/my%20site/contents/docs/a%3Fb.md") := by
  decide +kernel

end ForgejoMcp.Client
