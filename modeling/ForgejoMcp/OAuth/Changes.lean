import ForgejoMcp.OAuth.Serial

/-!
# What a step changes

The steps of the serial model, sorted by what they do to the token tables (`CoreChange`), to the
authorization requests and codes (`ConsentChange`), and to the grants and allowances
(`PermissionChange`).
-/

namespace ForgejoMcp.OAuth

open Transactions

/-- The same families, refresh tokens, access links and tokens. -/
structure SameCore (a b : Db) : Prop where
  tokenFamilies : b.tokenFamilies = a.tokenFamilies
  refreshTokens : b.refreshTokens = a.refreshTokens
  accessTokens : b.accessTokens = a.accessTokens
  mcpTokens : b.mcpTokens = a.mcpTokens

theorem SameCore.of_eq {a b c : Db} (h : b = c) (hf : c.tokenFamilies = a.tokenFamilies)
    (hr : c.refreshTokens = a.refreshTokens) (hl : c.accessTokens = a.accessTokens)
    (hm : c.mcpTokens = a.mcpTokens) : SameCore a b :=
  h ▸ ⟨hf, hr, hl, hm⟩

theorem SameCore.lineage {a b : Db} (h : SameCore a b) (f : Uuid) : b.lineage f = a.lineage f := by
  rw [Db.lineage, h.refreshTokens, Db.lineage]

/-- The pair a commit issued, if any. -/
def Label.issue? : Label → Option Issue
  | .issued _ i => some i
  | .rotated _ _ _ _ i => some i
  | _ => none

/-- The family whose lock a commit holds, if any. -/
def Label.family? : Label → Option Uuid
  | .issued _ i => some i.familyId
  | .rotated _ _ _ _ i => some i.familyId
  | .reused _ family _ => some family
  | .revoked family _ => some family
  | .dashboard _ (some (family, _)) => some family
  | _ => none

variable {d : Deployment} {base : Db} {h : List (Entry sorts)} {e : Entry sorts}

theorem mem_footprint_family {l : Label} {f : Uuid} :
    Key.family f ∈ footprint d l ↔ l.family? = some f := by
  cases l with
  | dashboard token family => cases family <;> simp [footprint, Label.family?, eq_comm]
  | _ => simp [footprint, Label.family?, registryKeys, eq_comm]

/-- A commit that issues a pair holds the lock of its family. -/
theorem Label.family_of_issue {l : Label} {i : Issue} (hl : l.issue? = some i) :
    l.family? = some i.familyId := by
  cases l with
  | issued codeId j => cases hl; rfl
  | rotated parent oldToken readAt now j => cases hl; rfl
  | _ => cases hl

/-! ### The token tables -/

/-- The ways in which a commit changes the families, tokens and links. -/
inductive CoreChange (d : Deployment) (base : Db) (h : List (Entry sorts)) (e : Entry sorts) : Prop
  | same (label : e.label.issue? = none) (noFamily : e.label.family? = none)
      (db : SameCore (after base h) e.db)
  | issued (codeId : Uuid) (i : Issue) (code : OAuthAuthorizationCode)
      (label : e.label = .issued codeId i) (exchanges : ExchangesCode d base h e codeId i code)
      (db : SameCore (((after base h).openFamily i.familyId).issue d i) e.db)
  | rotated (parent m : Uuid) (readAt : ℕ) (now : Time) (i : Issue) (r : OAuthRefreshToken)
      (label : e.label = .rotated parent (some m) readAt now i)
      (rotates : Rotates d base h e parent (some m) readAt now i r)
      (db : SameCore ((((after base h).markRotated parent now).revokeToken m now).issue d i) e.db)
  | revoked (family : Uuid) (tokens : List Uuid) (time : Time) (label : e.label.issue? = none)
      (locks : e.label.family? = some family)
      (touches : ∀ m ∈ tokens, .mcpToken m ∈ footprint d e.label)
      (stored : (after base h).tokenFamilies.get family ≠ none)
      (members : tokens = (after base h).memberTokens family)
      (db : SameCore ((after base h).revokeFamily family tokens time) e.db)
  | dashboard (family token : Uuid) (tokens : List Uuid) (time now : Time)
      (label : e.label.issue? = none)
      (locks : e.label.family? = some family)
      (touches : ∀ m ∈ tokens, .mcpToken m ∈ footprint d e.label)
      (stored : (after base h).tokenFamilies.get family ≠ none)
      (members : tokens = (after base h).memberTokens family) (member : token ∈ tokens)
      (db : SameCore (((after base h).revokeFamily family tokens time).disableToken token now) e.db)
  | disabled (token : Uuid) (row : McpToken) (now : Time) (label : e.label.issue? = none)
      (noFamily : e.label.family? = none)
      (touches : .mcpToken token ∈ footprint d e.label)
      (stored : (after base h).mcpTokens.get token = some row) (kind : row.kind ≠ .oauth)
      (db : SameCore ((after base h).disableToken token now) e.db)
  | created (token : McpToken) (secret : ℕ) (label : e.label = .created token.id secret)
      (noFamily : e.label.family? = none)
      (kind : token.kind = .static)
      (hash : token.tokenHash = d.hashToken (d.newMcpToken secret)) (id : Fresh d base h token.id)
      (db : SameCore ((after base h).addToken token) e.db)
  | used (token : Uuid) (now : Time) (label : e.label.issue? = none)
      (noFamily : e.label.family? = none)
      (db : SameCore ((after base h).useToken token now) e.db)

/-- Every step changes the token tables in one of these ways. -/
theorem Step.coreChange (hs : Step d base h e) : CoreChange d base h e := by
  unfold Step at hs
  cases he : e.label with
  | denied request =>
    rw [he] at hs
    obtain ⟨now, log, hdb, -⟩ := hs
    exact .same (by rw [he]; rfl) (by rw [he]; rfl) (.of_eq hdb rfl rfl rfl rfl)
  | approved request code secret tools =>
    rw [he] at hs
    obtain ⟨code, now, log, hdb, -⟩ := hs
    exact .same (by rw [he]; rfl) (by rw [he]; rfl) (.of_eq hdb rfl rfl rfl rfl)
  | issued codeId i =>
    rw [he] at hs
    obtain ⟨code, now, log, hdb, hx⟩ := hs
    exact .issued codeId i code he hx (.of_eq hdb rfl rfl rfl rfl)
  | rotated parent oldToken readAt now i =>
    rw [he] at hs
    obtain ⟨r, m, log, rfl, hdb, hx⟩ := hs
    exact .rotated parent m readAt now i r he hx (.of_eq hdb rfl rfl rfl rfl)
  | recovered refreshToken token =>
    rw [he] at hs
    obtain ⟨r, log, hdb, -⟩ := hs
    exact .same (by rw [he]; rfl) (by rw [he]; rfl) (.of_eq hdb rfl rfl rfl rfl)
  | rejected refreshToken =>
    rw [he] at hs
    obtain ⟨r, log, hdb, -⟩ := hs
    exact .same (by rw [he]; rfl) (by rw [he]; rfl) (.of_eq hdb rfl rfl rfl rfl)
  | reused refreshToken family tokens =>
    rw [he] at hs
    obtain ⟨r, time, log, hdb, hp, -, hf, hm⟩ := hs
    obtain ⟨fam, hfam, -⟩ := hp.family
    refine .revoked family tokens time (by rw [he]; rfl) (by rw [he]; rfl) ?_ ?_ hm
      (.of_eq hdb rfl rfl rfl rfl)
    · rw [he]; simp [footprint]
    · rw [← hf, hfam]
      exact Option.some_ne_none fam
  | revoked family tokens =>
    rw [he] at hs
    obtain ⟨time, log, hdb, hfam, hm⟩ := hs
    exact .revoked family tokens time (by rw [he]; rfl) (by rw [he]; rfl)
      (by rw [he]; simp [footprint]) hfam hm
      (.of_eq hdb rfl rfl rfl rfl)
  | dashboard token family =>
    rw [he] at hs
    cases family with
    | none =>
      obtain ⟨now, log, row, hdb, hrow, hkind⟩ := hs
      exact .disabled token row now (by rw [he]; rfl) (by rw [he]; rfl)
        (by rw [he]; exact List.mem_cons_self) hrow hkind (.of_eq hdb rfl rfl rfl rfl)
    | some family =>
      obtain ⟨family, tokens⟩ := family
      obtain ⟨now, time, log, hdb, hfam, hm, hmem⟩ := hs
      exact .dashboard family token tokens time now (by rw [he]; rfl)
        (by rw [he]; rfl) (by rw [he]; intro m hm; simp [footprint, hm]) hfam hm hmem
        (.of_eq hdb rfl rfl rfl rfl)
  | allowances userId toolNames prunedAt =>
    rw [he] at hs
    obtain ⟨pruned, settings, log, hdb, -⟩ := hs
    exact .same (by rw [he]; rfl) (by rw [he]; rfl) (.of_eq hdb rfl rfl rfl rfl)
  | grants tokenId toolNames ownedAt =>
    rw [he] at hs
    obtain ⟨userId, settings, log, hdb, -⟩ := hs
    exact .same (by rw [he]; rfl) (by rw [he]; rfl) (.of_eq hdb rfl rfl rfl rfl)
  | setting tool enabled =>
    rw [he] at hs
    obtain ⟨settings, log, hdb⟩ := hs
    exact .same (by rw [he]; rfl) (by rw [he]; rfl) (.of_eq hdb rfl rfl rfl rfl)
  | created id secret =>
    rw [he] at hs
    obtain ⟨token, log, hdb, rfl, hkind, hhash, -, -, hid, -⟩ := hs
    exact .created token secret he (by rw [he]; rfl) hkind hhash hid (.of_eq hdb rfl rfl rfl rfl)
  | used token =>
    rw [he] at hs
    obtain ⟨now, log, row, hdb, -⟩ := hs
    exact .used token now (by rw [he]; rfl) (by rw [he]; rfl) (.of_eq hdb rfl rfl rfl rfl)
  | environment =>
    rw [he] at hs
    obtain ⟨change, hdb⟩ := hs
    refine .same (by rw [he]; rfl) (by rw [he]; rfl) ?_
    cases change <;> exact .of_eq hdb rfl rfl rfl rfl

/-- What a rotation found. -/
theorem Step.rotates (hs : Step d base h e) {parent : Uuid} {oldToken : Option Uuid} {readAt : ℕ}
    {now : Time} {i : Issue} (hl : e.label = .rotated parent oldToken readAt now i) :
    ∃ r m, oldToken = some m ∧ Rotates d base h e parent (some m) readAt now i r := by
  unfold Step at hs
  rw [hl] at hs
  obtain ⟨r, m, log, rfl, -, hx⟩ := hs
  exact ⟨r, m, rfl, hx⟩

/-- What a code exchange found. -/
theorem Step.exchanges (hs : Step d base h e) {codeId : Uuid} {i : Issue}
    (hl : e.label = .issued codeId i) : ∃ code, ExchangesCode d base h e codeId i code := by
  unfold Step at hs
  rw [hl] at hs
  obtain ⟨code, now, log, -, hx⟩ := hs
  exact ⟨code, hx⟩

/-! ### The authorization requests and codes -/

/-- The ways in which a commit changes the authorization requests and codes. -/
inductive ConsentChange (d : Deployment) (base : Db) (h : List (Entry sorts)) (e : Entry sorts) :
    Prop
  | same (requests : e.db.authorizationRequests = (after base h).authorizationRequests)
      (codes : e.db.authorizationCodes = (after base h).authorizationCodes)
  | requested (request : OAuthAuthorizationRequest)
      (requests : e.db.authorizationRequests = (after base h).authorizationRequests.insert request)
      (codes : e.db.authorizationCodes = (after base h).authorizationCodes)
  | denied (request : Uuid) (now : Time) (label : e.label = .denied request)
      (requests : e.db.authorizationRequests =
        ((after base h).resolveRequest request now).authorizationRequests)
      (codes : e.db.authorizationCodes = (after base h).authorizationCodes)
  | approved (request : Uuid) (code : OAuthAuthorizationCode) (secret : ℕ) (tools : List String)
      (now : Time) (label : e.label = .approved request code.id secret tools)
      (fresh : Fresh d base h code.id) (toolNames : code.toolNames = sorted tools)
      (expires : ∃ ttl ∈ d.oauthGrantTtlOptionsDays, code.refreshExpiresAt = some (now + days ttl))
      (requests : e.db.authorizationRequests =
        ((after base h).resolveRequest request now).authorizationRequests)
      (codes : e.db.authorizationCodes = (after base h).authorizationCodes.insert code)
  | consumed (codeId : Uuid) (i : Issue) (now : Time) (label : e.label = .issued codeId i)
      (requests : e.db.authorizationRequests = (after base h).authorizationRequests)
      (codes : e.db.authorizationCodes =
        ((after base h).consumeCode codeId now).authorizationCodes)

/-- Every step changes the requests and codes in one of these ways. -/
theorem Step.consentChange (hs : Step d base h e) : ConsentChange d base h e := by
  unfold Step at hs
  cases he : e.label with
  | denied request =>
    rw [he] at hs
    obtain ⟨now, log, hdb, -⟩ := hs
    exact .denied request now he (congrArg Db.authorizationRequests hdb :)
      (congrArg Db.authorizationCodes hdb :)
  | approved request codeId secret tools =>
    rw [he] at hs
    obtain ⟨code, now, log, hdb, -, rfl, htools, -, hexp, hfresh, -⟩ := hs
    exact .approved request code secret tools now he hfresh htools hexp
      (congrArg Db.authorizationRequests hdb :) (congrArg Db.authorizationCodes hdb :)
  | issued codeId i =>
    rw [he] at hs
    obtain ⟨code, now, log, hdb, -⟩ := hs
    exact .consumed codeId i now he (congrArg Db.authorizationRequests hdb :)
      (congrArg Db.authorizationCodes hdb :)
  | rotated parent oldToken readAt now i =>
    rw [he] at hs
    obtain ⟨r, m, log, -, hdb, -⟩ := hs
    exact .same (congrArg Db.authorizationRequests hdb :)
      (congrArg Db.authorizationCodes hdb :)
  | recovered refreshToken token =>
    rw [he] at hs
    obtain ⟨r, log, hdb, -⟩ := hs
    exact .same (congrArg Db.authorizationRequests hdb :)
      (congrArg Db.authorizationCodes hdb :)
  | rejected refreshToken =>
    rw [he] at hs
    obtain ⟨r, log, hdb, -⟩ := hs
    exact .same (congrArg Db.authorizationRequests hdb :)
      (congrArg Db.authorizationCodes hdb :)
  | reused refreshToken family tokens =>
    rw [he] at hs
    obtain ⟨r, time, log, hdb, -⟩ := hs
    exact .same (congrArg Db.authorizationRequests hdb :)
      (congrArg Db.authorizationCodes hdb :)
  | revoked family tokens =>
    rw [he] at hs
    obtain ⟨time, log, hdb, -⟩ := hs
    exact .same (congrArg Db.authorizationRequests hdb :)
      (congrArg Db.authorizationCodes hdb :)
  | dashboard token family =>
    rw [he] at hs
    cases family with
    | none =>
      obtain ⟨now, log, row, hdb, -⟩ := hs
      exact .same (congrArg Db.authorizationRequests hdb :)
        (congrArg Db.authorizationCodes hdb :)
    | some family =>
      obtain ⟨now, time, log, hdb, -⟩ := hs
      exact .same (congrArg Db.authorizationRequests hdb :)
        (congrArg Db.authorizationCodes hdb :)
  | allowances userId toolNames prunedAt =>
    rw [he] at hs
    obtain ⟨pruned, settings, log, hdb, -⟩ := hs
    exact .same (congrArg Db.authorizationRequests hdb :)
      (congrArg Db.authorizationCodes hdb :)
  | grants tokenId toolNames ownedAt =>
    rw [he] at hs
    obtain ⟨userId, settings, log, hdb, -⟩ := hs
    exact .same (congrArg Db.authorizationRequests hdb :)
      (congrArg Db.authorizationCodes hdb :)
  | setting tool enabled =>
    rw [he] at hs
    obtain ⟨settings, log, hdb⟩ := hs
    exact .same (congrArg Db.authorizationRequests hdb :)
      (congrArg Db.authorizationCodes hdb :)
  | created id secret =>
    rw [he] at hs
    obtain ⟨token, log, hdb, -⟩ := hs
    exact .same (congrArg Db.authorizationRequests hdb :)
      (congrArg Db.authorizationCodes hdb :)
  | used token =>
    rw [he] at hs
    obtain ⟨now, log, row, hdb, -⟩ := hs
    exact .same (congrArg Db.authorizationRequests hdb :)
      (congrArg Db.authorizationCodes hdb :)
  | environment =>
    rw [he] at hs
    obtain ⟨change, hdb⟩ := hs
    cases change with
    | directory users accounts credentials =>
      exact .same (congrArg Db.authorizationRequests hdb :) (congrArg Db.authorizationCodes hdb :)
    | register client =>
      exact .same (congrArg Db.authorizationRequests hdb :) (congrArg Db.authorizationCodes hdb :)
    | authorize request =>
      exact .requested { request with resolvedAt := none }
        (congrArg Db.authorizationRequests hdb :) (congrArg Db.authorizationCodes hdb :)

/-! ### The grants and allowances -/

/-- The commit changes no grants or allowances. -/
def Label.keepsPermissions : Label → Bool
  | .issued _ _ | .rotated _ _ _ _ _ | .allowances _ _ _ | .grants _ _ _ => false
  | _ => true

/-- The ways in which a commit changes the grants and the allowances. -/
inductive PermissionChange (d : Deployment) (base : Db) (h : List (Entry sorts))
    (e : Entry sorts) : Prop
  | same (keeps : e.label.keepsPermissions = true)
      (grants : e.db.mcpTokenToolGrants = (after base h).mcpTokenToolGrants)
      (allowances : e.db.userToolAllowances = (after base h).userToolAllowances)
  | issued (i : Issue) (label : e.label.issue? = some i) (fresh : Fresh d base h i.accessId)
      (grants : e.db.mcpTokenToolGrants = (after base h).mcpTokenToolGrants.insertAll i.grantRecords)
      (allowances : e.db.userToolAllowances = (after base h).userToolAllowances)
  | allowances (userId : Uuid) (toolNames : List String) (prunedAt : ℕ)
      (pruned : List (Uuid × String)) (label : e.label = .allowances userId toolNames prunedAt)
      (prunes : Prunes d base h e userId toolNames prunedAt pruned)
      (grants : e.db.mcpTokenToolGrants =
        ((after base h).replaceAllowances userId toolNames pruned).mcpTokenToolGrants)
      (allowances : e.db.userToolAllowances =
        ((after base h).replaceAllowances userId toolNames pruned).userToolAllowances)
  | grants (tokenId : Uuid) (toolNames : List String) (ownedAt : ℕ) (userId : Uuid)
      (label : e.label = .grants tokenId toolNames ownedAt)
      (regrants : Regrants base h e tokenId toolNames ownedAt userId)
      (grants : e.db.mcpTokenToolGrants =
        ((after base h).replaceGrants tokenId toolNames).mcpTokenToolGrants)
      (allowances : e.db.userToolAllowances = (after base h).userToolAllowances)

/-- The tools of an issued pair could be used by the user in a state since its transaction began. -/
theorem Step.issues (hs : Step d base h e) {i : Issue} (hl : e.label.issue? = some i) :
    ∃ n, e.began ≤ n ∧ n ≤ h.length ∧
      i.toolNames ⊆ (after base (h.take n)).effectiveToolNames i.userId := by
  cases he : e.label with
  | issued codeId j =>
    rw [he] at hl
    cases hl
    obtain ⟨code, hx⟩ := hs.exchanges he
    exact hx.issues.effective
  | rotated parent oldToken readAt now j =>
    rw [he] at hl
    cases hl
    obtain ⟨r, m, -, hx⟩ := hs.rotates he
    obtain ⟨names, hissues, -⟩ := hx.issues
    exact hissues.effective
  | _ => rw [he] at hl; cases hl

/-- What a replacement of the allowances of a user pruned. -/
theorem Step.prunes (hs : Step d base h e) {user : Uuid} {tools : List String} {prunedAt : ℕ}
    (hl : e.label = .allowances user tools prunedAt) :
    ∃ pruned, Prunes d base h e user tools prunedAt pruned := by
  unfold Step at hs
  rw [hl] at hs
  obtain ⟨pruned, settings, log, -, hx⟩ := hs
  exact ⟨pruned, hx⟩

/-- What a replacement of the grants of a token found. -/
theorem Step.regrants (hs : Step d base h e) {m : Uuid} {tools : List String} {ownedAt : ℕ}
    (hl : e.label = .grants m tools ownedAt) : ∃ user, Regrants base h e m tools ownedAt user := by
  unfold Step at hs
  rw [hl] at hs
  obtain ⟨user, settings, log, -, hx⟩ := hs
  exact ⟨user, hx⟩

/-- Every step changes the grants and allowances in one of these ways. -/
theorem Step.permissionChange (hs : Step d base h e) : PermissionChange d base h e := by
  unfold Step at hs
  cases he : e.label with
  | denied request =>
    rw [he] at hs
    obtain ⟨now, log, hdb, -⟩ := hs
    exact .same (by rw [he]; rfl) (congrArg Db.mcpTokenToolGrants hdb :)
      (congrArg Db.userToolAllowances hdb :)
  | approved request codeId secret tools =>
    rw [he] at hs
    obtain ⟨code, now, log, hdb, -⟩ := hs
    exact .same (by rw [he]; rfl) (congrArg Db.mcpTokenToolGrants hdb :)
      (congrArg Db.userToolAllowances hdb :)
  | issued codeId i =>
    rw [he] at hs
    obtain ⟨code, now, log, hdb, hx⟩ := hs
    exact .issued i (by rw [he]; rfl) hx.issues.accessId (congrArg Db.mcpTokenToolGrants hdb :)
      (congrArg Db.userToolAllowances hdb :)
  | rotated parent oldToken readAt now i =>
    rw [he] at hs
    obtain ⟨r, m, log, -, hdb, hx⟩ := hs
    obtain ⟨selected, hi, -⟩ := hx.issues
    exact .issued i (by rw [he]; rfl) hi.accessId (congrArg Db.mcpTokenToolGrants hdb :)
      (congrArg Db.userToolAllowances hdb :)
  | recovered refreshToken token =>
    rw [he] at hs
    obtain ⟨r, log, hdb, -⟩ := hs
    exact .same (by rw [he]; rfl) (congrArg Db.mcpTokenToolGrants hdb :)
      (congrArg Db.userToolAllowances hdb :)
  | rejected refreshToken =>
    rw [he] at hs
    obtain ⟨r, log, hdb, -⟩ := hs
    exact .same (by rw [he]; rfl) (congrArg Db.mcpTokenToolGrants hdb :)
      (congrArg Db.userToolAllowances hdb :)
  | reused refreshToken family tokens =>
    rw [he] at hs
    obtain ⟨r, time, log, hdb, -⟩ := hs
    exact .same (by rw [he]; rfl) (congrArg Db.mcpTokenToolGrants hdb :)
      (congrArg Db.userToolAllowances hdb :)
  | revoked family tokens =>
    rw [he] at hs
    obtain ⟨time, log, hdb, -⟩ := hs
    exact .same (by rw [he]; rfl) (congrArg Db.mcpTokenToolGrants hdb :)
      (congrArg Db.userToolAllowances hdb :)
  | dashboard token family =>
    rw [he] at hs
    cases family with
    | none =>
      obtain ⟨now, log, row, hdb, -⟩ := hs
      exact .same (by rw [he]; rfl) (congrArg Db.mcpTokenToolGrants hdb :)
        (congrArg Db.userToolAllowances hdb :)
    | some family =>
      obtain ⟨now, time, log, hdb, -⟩ := hs
      exact .same (by rw [he]; rfl) (congrArg Db.mcpTokenToolGrants hdb :)
        (congrArg Db.userToolAllowances hdb :)
  | allowances userId toolNames prunedAt =>
    rw [he] at hs
    obtain ⟨pruned, settings, log, hdb, hx⟩ := hs
    exact .allowances userId toolNames prunedAt pruned he hx (congrArg Db.mcpTokenToolGrants hdb :)
      (congrArg Db.userToolAllowances hdb :)
  | grants tokenId toolNames ownedAt =>
    rw [he] at hs
    obtain ⟨userId, settings, log, hdb, hx⟩ := hs
    exact .grants tokenId toolNames ownedAt userId he hx (congrArg Db.mcpTokenToolGrants hdb :)
      (congrArg Db.userToolAllowances hdb :)
  | setting tool enabled =>
    rw [he] at hs
    obtain ⟨settings, log, hdb⟩ := hs
    exact .same (by rw [he]; rfl) (congrArg Db.mcpTokenToolGrants hdb :)
      (congrArg Db.userToolAllowances hdb :)
  | created id secret =>
    rw [he] at hs
    obtain ⟨token, log, hdb, -⟩ := hs
    exact .same (by rw [he]; rfl) (congrArg Db.mcpTokenToolGrants hdb :)
      (congrArg Db.userToolAllowances hdb :)
  | used token =>
    rw [he] at hs
    obtain ⟨now, log, row, hdb, -⟩ := hs
    exact .same (by rw [he]; rfl) (congrArg Db.mcpTokenToolGrants hdb :)
      (congrArg Db.userToolAllowances hdb :)
  | environment =>
    rw [he] at hs
    obtain ⟨change, hdb⟩ := hs
    cases change <;> exact .same (by rw [he]; rfl) (congrArg Db.mcpTokenToolGrants hdb :)
      (congrArg Db.userToolAllowances hdb :)

end ForgejoMcp.OAuth
