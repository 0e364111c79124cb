import ForgejoMcp.OAuth.Bearer
import ForgejoMcp.OAuth.Refinement.Rules

/-!
# Refinement: loading and authenticating tokens

A call that accepts a token saw it unrevoked and unexpired in a state since it started.
-/

namespace ForgejoMcp.OAuth

open Transactions Rows

variable {d : Deployment} {t : ℕ} {l : Session sorts} {g : Shared sorts} {n : ℕ}

/-! ### Postconditions -/

section

variable {α : Type} {F : α → Db → Prop}

/-- When something is found, a state since the first `n` commits agrees. -/
def Found (n : ℕ) (F : α → Db → Prop) : Except Failure (Option α) → Shared sorts → Prop
  | .ok (some x), g => Serial.Sometime n (F x) g
  | _, _ => True

theorem Found.kept : Kept d t (Found n F) := by
  intro r
  match r with
  | .ok (some x) => exact Serial.Sometime.stable (S := sorts) n (F x)
  | .ok none => exact Spec.Stable.pure True
  | .error e => exact Spec.Stable.pure True

theorem Found.none : Runs d t (Found n F) (.ret Option.none) l g := Runs.ret Found.kept trivial

theorem Found.some {x : α} (h : Serial.Sometime n (F x) g) :
    Runs d t (Found n F) (.ret (Option.some x)) l g :=
  Runs.ret Found.kept h

end

/-- The token is the one with the plaintext `plaintext`, enabled and not revoked. -/
def Accepts (d : Deployment) (plaintext : String) (tokenId : Uuid) (db : Db) : Prop :=
  ∃ token, db.mcpTokens.get tokenId = some token ∧ token.tokenHash = d.hashToken plaintext ∧
    token.enabled = true ∧ token.revokedAt = none

/-- The token is the one with the plaintext `plaintext`, enabled, not revoked and not expired at
`now`. -/
structure Presentable (d : Deployment) (plaintext : String) (now : Time) (record : McpToken) : Prop where
  hash : record.tokenHash = d.hashToken plaintext
  enabled : record.enabled = true
  unrevoked : record.revokedAt = none
  unexpired : ∀ time, record.expiresAt = some time → now < time

theorem Presentable.accepts {plaintext : String} {now : Time} {record : McpToken} {tokenId : Uuid}
    {db : Db} (h : Presentable d plaintext now record) (hdb : db.mcpTokens.get tokenId = some record) :
    Accepts d plaintext tokenId db :=
  ⟨record, hdb, h.hash, h.enabled, h.unrevoked⟩

/-- What `load_access_token` found of the token it returns. -/
def LoadedToken (d : Deployment) (plaintext : String) (t n : ℕ) :
    Except Failure (Option StoredAccessToken) → Shared sorts → Prop
  | .ok (some token), g => ∃ now record, (t, now) ∈ g.readings ∧ Presentable d plaintext now record ∧
      record.expiresAt ≠ none ∧
      Serial.Sometime n (fun db : Db => db.mcpTokens.get token.mcpTokenId = some record) g
  | _, _ => True

theorem LoadedToken.kept {plaintext : String} : Kept d t (LoadedToken d plaintext t n) := by
  intro r
  match r with
  | .ok (some x) =>
    refine .exists fun now => .exists fun record => ?_
    exact (Serial.stable_reading now).and ((Spec.Stable.pure _).and
      ((Spec.Stable.pure _).and (Serial.Sometime.stable n _)))
  | .ok none => exact Spec.Stable.pure True
  | .error e => exact Spec.Stable.pure True

/-- What `authenticate` read of the link, the refresh token and the family of a token: `read` says
that a property held of a state it read. -/
inductive ContextRead (resource : Option String) (read : (Db → Prop) → Prop) (record : McpToken) :
    Option (List String × String × Uuid) → Prop
  | static (kind : record.kind = .static)
      (unlinked : read fun db => db.accessTokens.get record.id = none) :
      ContextRead resource read record none
  | oauth {link : OAuthAccessToken} {refresh : OAuthRefreshToken} {family : OAuthTokenFamily}
      (kind : record.kind = .oauth)
      (linked : read fun db => db.accessTokens.get record.id = some link)
      (linkUnrevoked : link.revokedAt = none) (audience : some link.resource = resource)
      (refreshed : read fun db => db.refreshTokens.get link.refreshTokenId = some refresh)
      (refreshUnrevoked : refresh.revokedAt = none)
      (opened : read fun db => db.tokenFamilies.get refresh.familyId = some family)
      (familyUnrevoked : family.revokedAt = none) :
      ContextRead resource read record (some (refresh.scopes, link.resource, family.id))

theorem ContextRead.mono {resource : Option String} {read read' : (Db → Prop) → Prop}
    {record : McpToken} {context : Option (List String × String × Uuid)}
    (h : ContextRead resource read record context) (hread : ∀ P, read P → read' P) :
    ContextRead resource read' record context := by
  cases h with
  | static kind unlinked => exact .static kind (hread _ unlinked)
  | oauth kind linked hl ha refreshed hr opened hf =>
    exact .oauth kind (hread _ linked) hl ha (hread _ refreshed) hr (hread _ opened) hf

/-- What `authenticate` read of a token and its owner. -/
structure TokenRead (d : Deployment) (plaintext : String) (now : Time)
    (read : (Db → Prop) → Prop) (record : McpToken) : Prop where
  presentable : Presentable d plaintext now record
  stored : read fun db => db.mcpTokens.get record.id = some record
  owner : ∃ user, user.status = .active ∧ read fun db => db.users.get record.userId = some user

theorem TokenRead.mono {plaintext : String} {now : Time} {read read' : (Db → Prop) → Prop}
    {record : McpToken} (h : TokenRead d plaintext now read record)
    (hread : ∀ P, read P → read' P) : TokenRead d plaintext now read' record := by
  obtain ⟨user, hactive, howner⟩ := h.owner
  exact ⟨h.presentable, hread _ h.stored, user, hactive, hread _ howner⟩

/-- The result of `authenticate` for a token and its context. -/
def authenticatedToken (record : McpToken) (issuer : Option String) :
    Option (List String × String × Uuid) → AuthenticatedMcpToken
  | some (scopes, resource, familyId) =>
    ⟨record.id, record.userId, record.expiresAt, scopes, resource, issuer, familyId⟩
  | none => ⟨record.id, record.userId, record.expiresAt, [], none, none, none⟩

/-- The result of an authentication by thread `t`, started after `n` commits: its only commit used
the token, and what it read held in states before that commit. -/
def Authenticated (d : Deployment) (plaintext : String) (resource issuer : Option String)
    (t n : ℕ) : Except Failure (Option AuthenticatedMcpToken) → Shared sorts → Prop
  | .ok (some token), g => ∃ base h e now record context, Serial.Committed t n base h e g ∧
      e.label = .used record.id ∧ (t, now) ∈ g.readings ∧
      TokenRead d plaintext now (fun P => Serial.Between n h.length P g) record ∧
      ContextRead resource (fun P => Serial.Between n h.length P g) record context ∧
      token = authenticatedToken record issuer context
  | _, _ => True

section

variable {plaintext : String} {resource issuer : Option String} {held : List (RowLock Key)}
  {record : McpToken} {now : Time} {context : Option (List String × String × Uuid)}

theorem TokenRead.stable {read : Shared sorts → (Db → Prop) → Prop}
    (hst : ∀ P, (serial d).spec.Stable t held fun g => read g P) :
    (serial d).spec.Stable t held fun g => TokenRead d plaintext now (read g) record where
  interferes := fun a b hab h => h.mono fun P => (hst P).interferes a b hab
  quiet := fun a b hab hi h => h.mono fun P => (hst P).quiet a b hab hi

theorem ContextRead.stable {read : Shared sorts → (Db → Prop) → Prop}
    (hst : ∀ P, (serial d).spec.Stable t held fun g => read g P) :
    (serial d).spec.Stable t held fun g => ContextRead resource (read g) record context where
  interferes := fun a b hab h => h.mono fun P => (hst P).interferes a b hab
  quiet := fun a b hab hi h => h.mono fun P => (hst P).quiet a b hab hi

theorem Authenticated.kept : Kept d t (Authenticated d plaintext resource issuer t n) := by
  intro r
  match r with
  | .ok (some x) =>
    refine .exists fun base => .exists fun h => .exists fun e => .exists fun now =>
      .exists fun record => .exists fun context => ?_
    have hread : ∀ P, (serial d).spec.Stable t [] (Serial.Between n h.length P) :=
      Serial.Between.stable n h.length
    exact (Serial.Committed.stable n base h e).and ((Spec.Stable.pure _).and
      ((Serial.stable_reading now).and ((TokenRead.stable hread).and
        ((ContextRead.stable hread).and (Spec.Stable.pure _)))))
  | .ok none => exact Spec.Stable.pure True
  | .error e => exact Spec.Stable.pure True

end

/-- The refresh token is the one with the plaintext `plaintext`, in a family not revoked. -/
def Loads (d : Deployment) (plaintext : String) (token : StoredRefreshToken) (db : Db) : Prop :=
  ∃ r family, db.refreshTokens.get token.recordId = some r ∧
    r.tokenHash = d.hashToken plaintext ∧ db.tokenFamilies.get r.familyId = some family ∧
    family.revokedAt = none

/-! ### Codes and refresh tokens -/

theorem loadAuthorizationCode_runs {clientId : Option String} {code : String}
    (hi : (serial d).Inv g) : Runs d t Done (loadAuthorizationCode d clientId code) {} g := by
  unfold loadAuthorizationCode
  split
  · exact Done.ret
  refine Runs.withSession Done.kept hi ?_
  refine Rel.select_safe (Serial.Continues.stable g.base g.history) (.refl g)
    fun g₁ rows hi₁ hA₁ hrows => ?_
  split
  · exact Done.ret
  refine Spec.Safe.query (Serial.Continues.stable g.base g.history) hA₁ fun g₂ row _ _ _ => ?_
  split
  · exact Done.ret
  split <;> exact Done.ret

theorem loadRefreshToken_runs {clientId : Option String} {plaintext : String}
    (hi : (serial d).Inv g) (hn : n ≤ g.history.length) :
    Runs d t (Found n (Loads d plaintext)) (loadRefreshToken d clientId plaintext) {} g := by
  unfold loadRefreshToken
  split
  · exact Found.none
  refine Runs.withSession Found.kept hi ?_
  refine Rel.select_safe (Serial.stable_length n) hn fun g₁ rows hi₁ hn₁ hrows => ?_
  split
  · exact Found.none
  rename_i record hrecord
  have hsel := Table.mem_select.1 (hrows ▸ List.mem_of_mem_head? hrecord)
  refine Rel.find_safe ((Serial.Continues.stable g₁.base g₁.history).and (Serial.stable_length n))
    ⟨.refl g₁, hn₁⟩ fun g₂ row hi₂ hA₂ hrow => ?_
  split
  · exact Found.none
  rename_i family
  split
  · exact Found.none
  rename_i hopen
  -- the record is still in the state in which the family was found open
  have hloads : Loads d plaintext ⟨plaintext, "", [], 0, record.id, 0, 0, 0, none⟩ g₂.current := by
    obtain ⟨r, hr, hlater⟩ := (later_of_continues hA₂.1 hi₂).refreshTokens _ _
      (Table.get_of_mem hsel.1)
    have hfam : r.familyId = record.familyId :=
      (congrArg OAuthRefreshToken.familyId hlater.core :)
    have hhash : r.tokenHash = record.tokenHash :=
      (congrArg OAuthRefreshToken.tokenHash hlater.core :)
    exact ⟨r, family, hr, hhash.trans (of_decide_eq_true hsel.2), hfam ▸ hrow, not_not.1 hopen⟩
  have hfound := Serial.Sometime.now hA₂.2 hloads
  refine Spec.Safe.query (Serial.Sometime.stable n _) hfound fun g₃ client _ hfound₃ _ => ?_
  split
  · exact Found.none
  split
  · exact Found.none
  · exact Found.some hfound₃

/-! ### Access tokens -/

theorem loadAccessToken_runs {plaintext : String} (hi : (serial d).Inv g)
    (hn : n ≤ g.history.length) :
    Runs d t (LoadedToken d plaintext t n) (loadAccessToken d plaintext) {} g := by
  have nothing : ∀ {l : Session sorts} {g : Shared sorts},
      Runs d t (LoadedToken d plaintext t n) (.ret none) l g := Runs.ret LoadedToken.kept trivial
  unfold loadAccessToken
  split
  · exact nothing
  refine Runs.withSession LoadedToken.kept hi ?_
  refine Rel.select_safe (Serial.stable_length n) hn fun g₁ rows hi₁ hn₁ hrows => ?_
  cases hrecord : rows.head? with
  | none => exact Spec.Safe.now (Serial.stable_length n) hn₁ fun _ _ _ => nothing
  | some record =>
    have hsel := Table.mem_select.1 (hrows ▸ List.mem_of_mem_head? hrecord)
    refine Spec.Safe.now (Serial.Sometime.stable n fun db : Db =>
      db.mcpTokens.get record.id = some record) (.now hn₁ (Table.get_of_mem hsel.1))
      fun g₂ _ hfound => ?_
    have hst : (serial d).spec.Stable t [] fun g => Serial.Sometime n (fun db : Db =>
        db.mcpTokens.get record.id = some record) g ∧ (t, g₂.clock) ∈ g.readings :=
      (Serial.Sometime.stable n _).and (Serial.stable_reading _)
    have hA₂ := And.intro hfound (Serial.mem_readState t g₂)
    dsimp only
    split
    · exact nothing
    rename_i time hexpires
    split
    · exact nothing
    rename_i hactive
    rw [not_or, not_or, Bool.not_eq_false, not_not, not_le] at hactive
    refine Rel.find_safe hst hA₂ fun g₃ link _ hA₃ _ => ?_
    split
    · exact nothing
    split
    · exact nothing
    refine Rel.find_safe hst hA₃ fun g₄ refresh _ hA₄ _ => ?_
    refine Spec.Safe.query hst hA₄ fun g₅ client _ hA₅ _ => ?_
    split
    · exact nothing
    refine Rel.find_safe hst hA₅ fun g₆ family _ hA₆ _ => ?_
    split
    · exact nothing
    split
    · exact nothing
    · refine Runs.ret LoadedToken.kept ⟨g₂.clock, record, hA₆.2, ⟨of_decide_eq_true hsel.2,
        hactive.1, hactive.2.1, fun time' htime => ?_⟩, hexpires ▸ Option.some_ne_none time, hA₆.1⟩
      rw [hexpires, Option.some.injEq] at htime
      exact htime ▸ hactive.2.2

/-! ### Bearer authentication -/

/-- A locked token keeps its standing. -/
theorem get_token_of_held {m : Uuid} {base : Db} {h : List (Entry sorts)}
    (hh : (serial d).Held (.mcpToken m) base h g) (hi : (serial d).Inv g) {token : McpToken}
    (hm : (after base h).mcpTokens.get m = some token) :
    ∃ token', g.current.mcpTokens.get m = some token' ∧ token'.standing = token.standing :=
  hh.related hi (SameStanding m) (SameStanding.refl m) (fun _ _ _ => SameStanding.trans)
    (fun _ _ _ hs => SameStanding.step hs) token hm

variable {plaintext : String} {resource issuer : Option String}

/-- What `authenticate` knows before its conditional update. -/
structure Authenticating (d : Deployment) (plaintext : String) (resource : Option String) (t n : ℕ)
    (now : Time) (record : McpToken) (context : Option (List String × String × Uuid))
    (g : Shared sorts) : Prop where
  idle : Serial.Idle t n g
  reading : (t, now) ∈ g.readings
  token : TokenRead d plaintext now (fun P => Serial.Sometime n P g) record
  context : ContextRead resource (fun P => Serial.Sometime n P g) record context

theorem Authenticating.stable {now : Time} {record : McpToken}
    {context : Option (List String × String × Uuid)} {held : List (RowLock Key)} :
    (serial d).spec.Stable t held
      (Authenticating d plaintext resource t n now record context) :=
  ((Serial.Idle.stable n).and ((Serial.stable_reading now).and
    ((TokenRead.stable fun P => Serial.Sometime.stable (S := sorts) n P).and
      (ContextRead.stable fun P => Serial.Sometime.stable (S := sorts) n P)))).congr
        fun _ => ⟨fun hg => ⟨hg.1, hg.2, hg.3, hg.4⟩, fun hg => ⟨hg.1, hg.2.1, hg.2.2.1, hg.2.2.2⟩⟩

theorem acceptToken_runs {record : McpToken} {now : Time}
    {context : Option (List String × String × Uuid)} (hl : ∀ db, l.view db = db)
    (hA : Authenticating d plaintext resource t n now record context g) :
    Runs d t (Authenticated d plaintext resource issuer t n)
      (acceptToken record now context issuer) l g := by
  unfold acceptToken
  refine Rel.update_safe Authenticating.stable hA fun g₁ g₂ ks hi₁ _ _ hi₂ hA₂ hks => ?_
  split
  · exact Runs.ret Authenticated.kept trivial
  rename_i k rest hupdated
  -- an updated row is the record, enabled, and locked
  obtain ⟨row, hrow, hkey⟩ := List.mem_map.1 (hupdated ▸ List.mem_cons_self (a := k) (l := rest))
  obtain ⟨hmem, hcond⟩ := Table.mem_select.1 hrow
  rw [hl] at hmem
  obtain ⟨hin, hid, hen, hrev⟩ : row.id ∈ ks ∧ row.id = record.id ∧ row.enabled = true ∧
      row.revokedAt = none := by simpa using hcond
  have hlock : ⟨.mcpToken record.id, true⟩ ∈ ks.map mcpTokens.exclusive ++ l.held :=
    List.mem_append_left _ (hid ▸ List.mem_map_of_mem hin)
  refine Serial.commit (Authenticating.stable.and (Serial.Held.stable (M := serial d) (t := t) hlock
    g₂.base g₂.history)) ⟨hA₂, .refl _ _⟩ fun g₃ hi₃ hA₃ => ?_
  refine ⟨commits_of_step hi₃ rfl ?_ (fun k hk => absurd hk List.not_mem_nil), ?_⟩
  · obtain ⟨token, hget, hstanding⟩ := get_token_of_held hA₃.2 hi₃ (hid ▸ Table.get_of_mem hmem)
    refine ⟨now, g₃.current.managementAuditEvents, token, ?_, hget,
      (congrArg McpToken.enabled hstanding :).trans hen,
      (congrArg McpToken.revokedAt hstanding :).trans hrev⟩
    rw [Session.exec_view, Session.touch_view, hl, List.foldl_cons, List.foldl_nil,
      Rel.updated_eq fun r _ hr => ?_]
    · rfl
    · rw [(of_decide_eq_true hr).1, ← hid]
      exact hin
  · obtain ⟨hidle, hreading, htoken, hcontext⟩ := hA₃.1
    have hpost : ∀ l : Session sorts, Authenticated d plaintext resource issuer t n
        (.ok (some (authenticatedToken record issuer context)))
        (Spec.commitState t (.used record.id) l g₃) := fun l =>
      ⟨_, _, _, now, record, context, hidle.committed _ _, rfl, hreading,
        htoken.mono fun P hP => hP.between _ _, hcontext.mono fun P hP => hP.between _ _, rfl⟩
    split <;> exact Runs.ret Authenticated.kept (hpost _)

theorem oauthContext_runs {α : Type} {R : Except Failure α → Shared sorts → Prop}
    {A : Shared sorts → Prop} {link : Option OAuthAccessToken} {record : McpToken}
    {k : Option (List String × String × Uuid) → P α} (hkind : record.kind = .oauth)
    (hst : ∀ held, (serial d).spec.Stable t held A) (hA : A g) (hn : ∀ g, A g → n ≤ g.history.length)
    (hlink : Serial.Sometime n (fun db : Db => db.accessTokens.get record.id = link) g)
    (hl : ∀ db, l.view db = db) (hnone : ∀ l g, Runs d t R (k none) l g)
    (h : ∀ context l' g₁, (∀ db, l'.view db = db) → A g₁ →
      ContextRead resource (fun P => Serial.Sometime n P g₁) record (some context) →
      Runs d t R (k (some context)) l' g₁) :
    Runs d t R (oauthContext link resource issuer >>= k) l g := by
  unfold oauthContext
  cases link with
  | none => exact hnone _ _
  | some link =>
    dsimp only
    split
    · exact hnone _ _
    rename_i hopen
    rw [not_or, not_or, not_or, not_not, not_not] at hopen
    obtain ⟨-, -, hlinkOpen, haudience⟩ := hopen
    simp only [Prog.bind_eq, Prog.bind_assoc]
    have hst₁ : ∀ held, (serial d).spec.Stable t held fun g => A g ∧
        Serial.Sometime n (fun db : Db => db.accessTokens.get record.id = some link) g :=
      fun held => (hst held).and (Serial.Sometime.stable n _)
    refine Rel.find_safe (hst₁ _) ⟨hA, hlink⟩ fun g₁ refresh _ hA₁ hrefresh => ?_
    rw [hl] at hrefresh
    split
    · exact hnone _ _
    rename_i refresh
    split
    · exact hnone _ _
    rename_i hrefreshOpen
    simp only [Prog.bind_assoc]
    have hst₂ : ∀ held, (serial d).spec.Stable t held fun g => (A g ∧
        Serial.Sometime n (fun db : Db => db.accessTokens.get record.id = some link) g) ∧
        Serial.Sometime n (fun db : Db => db.refreshTokens.get link.refreshTokenId =
          some refresh) g :=
      fun held => (hst₁ held).and (Serial.Sometime.stable n _)
    refine Rel.find_safe (hst₂ _) ⟨hA₁, .now (hn _ hA₁.1) hrefresh⟩
      fun g₂ family _ hA₂ hfamily => ?_
    rw [Session.touch_view, hl] at hfamily
    split
    · exact hnone _ _
    rename_i family
    split
    · exact hnone _ _
    rename_i hfamilyOpen
    exact h _ _ _ (fun db => hl db) hA₂.1.1 (.oauth hkind hA₂.1.2 hlinkOpen haudience hA₂.2
      (not_not.1 hrefreshOpen) (.now (hn _ hA₂.1.1) hfamily) (not_not.1 hfamilyOpen))

theorem authenticate_runs (hi : (serial d).Inv g) (hidle : Serial.Idle t n g) :
    Runs d t (Authenticated d plaintext resource issuer t n)
      (authenticate d plaintext resource issuer) {} g := by
  have nothing : ∀ (l : Session sorts) (g : Shared sorts),
      Runs d t (Authenticated d plaintext resource issuer t n) (.ret none) l g :=
    fun _ _ => Runs.ret Authenticated.kept trivial
  unfold authenticate
  split
  · exact nothing _ _
  refine Runs.withSession Authenticated.kept hi ?_
  refine Rel.select_safe (Serial.Idle.stable n) hidle fun g₁ rows hi₁ hidle₁ hrows => ?_
  split
  · rename_i record hone
    have hmem : record ∈ rows.filter fun r => decide (r.tokenHash = d.hashToken plaintext) :=
      hone ▸ List.mem_singleton_self record
    obtain ⟨hmem, hhash⟩ := List.mem_filter.1 hmem
    have hsel := Table.mem_select.1 (hrows ▸ hmem)
    have hst₁ : ∀ held, (serial d).spec.Stable t held fun g => Serial.Idle t n g ∧
        Serial.Sometime n (fun db : Db => db.mcpTokens.get record.id = some record) g :=
      fun _ => (Serial.Idle.stable n).and (Serial.Sometime.stable n _)
    refine Spec.Safe.query (hst₁ _) ⟨hidle₁, .now hidle₁.started (Table.get_of_mem hsel.1)⟩
      fun g₂ user _ hA₂ huser => ?_
    have hst₂ : ∀ held, (serial d).spec.Stable t held fun g => (Serial.Idle t n g ∧
        Serial.Sometime n (fun db : Db => db.mcpTokens.get record.id = some record) g) ∧
        Serial.Sometime n (fun db : Db => db.users.get record.userId = user) g :=
      fun held => (hst₁ held).and (Serial.Sometime.stable n _)
    refine Spec.Safe.now (hst₂ _) ⟨hA₂, .now hA₂.1.started huser⟩ fun g₃ _ hA₃ => ?_
    split
    · exact nothing _ _
    rename_i hactive
    simp only [active, Bool.not_eq_false, Bool.and_eq_true, Option.isNone_iff_eq_none] at hactive
    obtain ⟨⟨⟨henabled, hunrevoked⟩, howner⟩, hunexpired⟩ := hactive
    have hread : ∀ g, Serial.Sometime n (fun db : Db => db.mcpTokens.get record.id = some record) g →
        Serial.Sometime n (fun db : Db => db.users.get record.userId = user) g →
        TokenRead d plaintext g₃.clock (fun P : Db → Prop => Serial.Sometime (S := sorts) n P g)
          record := by
      intro g hstored hread
      obtain ⟨u, rfl, hu⟩ := (Option.any_eq_true _ _).1 howner
      refine ⟨⟨of_decide_eq_true hhash, henabled, hunrevoked, fun time htime => ?_⟩, hstored, u,
        of_decide_eq_true hu, hread⟩
      rw [htime] at hunexpired
      exact of_decide_eq_true hunexpired
    have hst₃ : ∀ held, (serial d).spec.Stable t held fun g => ((Serial.Idle t n g ∧
        Serial.Sometime n (fun db : Db => db.mcpTokens.get record.id = some record) g) ∧
        Serial.Sometime n (fun db : Db => db.users.get record.userId = user) g) ∧
        (t, g₃.clock) ∈ g.readings :=
      fun held => (hst₂ held).and (Serial.stable_reading _)
    refine Rel.find_safe (hst₃ _) ⟨hA₃, Serial.mem_readState t g₃⟩ fun g₄ link _ hA₄ hlink => ?_
    have hlinked : Serial.Sometime n (fun db : Db => db.accessTokens.get record.id = link) g₄ :=
      .now hA₄.1.1.1.started hlink
    split
    · rename_i hkind
      refine oauthContext_runs hkind hst₃ hA₄ (fun g hg => hg.1.1.1.started) hlinked (fun _ => rfl)
        nothing fun context l' g₅ hl' hA₅ hcontext => ?_
      exact acceptToken_runs hl' ⟨hA₅.1.1.1, hA₅.2, hread _ hA₅.1.1.2 hA₅.1.2, hcontext⟩
    · rename_i hkind
      split
      · exact acceptToken_runs (fun _ => rfl) ⟨hA₄.1.1.1, hA₄.2, hread _ hA₄.1.1.2 hA₄.1.2,
          .static hkind hlinked⟩
      · exact nothing _ _
    · exact nothing _ _
  · exact nothing _ _

end ForgejoMcp.OAuth
