import ForgejoMcp.Credentials.Refinement.Saving

/-!
# Refinement of the services of the administrators

Changing a user, the instance, and the OAuth configuration: what the commits find and leave.
-/

namespace ForgejoMcp.Credentials

open Transactions Rows
open Forgejo (strip)

-- a rule is applied by the form of its program, which is not run
attribute [local irreducible] Spec.Safe

variable {server : Server} {t : ℕ} {l : Session sorts} {g : Shared sorts} {β : Type}
  {held : List (RowLock Key)}

/-! ### What the sessions write -/

/-- A user whose attributes are not changed. -/
theorem updateUser_self (db : Db) (user : User) : db.updateUser user user = db := by
  rw [Db.updateUser, Table.update_of_apply_eq fun r => ?_]
  simp only [User.flush, Users.flushed, if_true]

/-- The session has written a user, and possibly accounts and sessions of the Dashboard. -/
structure WritesUser (l : Session sorts) (loaded value : User) : Prop where
  view : ∀ db, ∃ accounts sessions, l.view db =
    { db.updateUser loaded value with accounts := accounts, sessions := sessions }
  accounts : ∀ db : Db, db.KeepsAccounts (l.view db)

theorem WritesUser.of_eq {loaded value : User} (h : ∀ db, l.view db = db.updateUser loaded value) :
    WritesUser l loaded value :=
  ⟨fun db => ⟨db.accounts, db.sessions, h db⟩, fun db => .of_eq (by rw [h]; rfl)⟩

/-- Accounts are written that keep their users, and sessions. -/
theorem WritesUser.write {l' : Session sorts} {loaded value : User} (h : WritesUser l loaded value)
    (hview : ∀ db, ∃ accounts sessions, l'.view db =
      { l.view db with accounts := accounts, sessions := sessions })
    (hkeeps : ∀ db, (l.view db).KeepsAccounts (l'.view db)) : WritesUser l' loaded value := by
  refine ⟨fun db => ?_, fun db => (h.accounts db).trans (hkeeps db)⟩
  obtain ⟨accounts, sessions, heq⟩ := h.view db
  obtain ⟨accounts', sessions', heq'⟩ := hview db
  exact ⟨accounts', sessions', by rw [heq', heq]⟩

theorem WritesUser.forgejoCredentials {loaded value : User} (h : WritesUser l loaded value)
    (db : Db) : (l.view db).forgejoCredentials = db.forgejoCredentials := by
  obtain ⟨accounts, sessions, heq⟩ := h.view db
  rw [heq]
  rfl

/-! ### What the sessions find -/

theorem FoundActive.stable (userId : Uuid) (found : Option Uuid) (readAt : ℕ) :
    (spec server).Stable t held fun g => FoundActive g.base g.history userId found readAt :=
  (Serial.At.stable_of readAt fun db : Db => db.OnlyActive userId found).congr fun _ =>
    ⟨fun h => ⟨h.readAt_le, h.only⟩, fun h => ⟨h.le, h.holds⟩⟩

/-- The active credential that a query finds is the only one. -/
theorem onlyActive_head? {db : Db} (hu : db.forgejoCredentials.Unique ForgejoCredential.activeUser)
    (userId : Uuid) : db.OnlyActive userId
      ((db.forgejoCredentials.select (·.isActiveOf userId)).head?.map (·.id)) := by
  intro r hr huser hactive
  have hmem : r ∈ db.forgejoCredentials.select (·.isActiveOf userId) :=
    Table.mem_select.2 ⟨hr, by simp [ForgejoCredential.isActiveOf, huser, hactive]⟩
  cases hhead : (db.forgejoCredentials.select (·.isActiveOf userId)).head? with
  | none => rw [List.head?_eq_none_iff.1 hhead] at hmem; cases hmem
  | some s =>
    obtain ⟨hs, hsactive⟩ := Table.mem_select.1 (List.mem_of_mem_head? hhead)
    simp only [ForgejoCredential.isActiveOf, Bool.and_eq_true, decide_eq_true_eq] at hsactive
    rw [hu r hr s hs userId (ForgejoCredential.activeUser_eq_some.2 ⟨hactive, huser⟩)
      (ForgejoCredential.activeUser_eq_some.2 ⟨hsactive.2, hsactive.1⟩), Option.map_some]

section

variable {R : Except Raised β → Shared sorts → Prop} {A : Shared sorts → Prop}
  (hst : (spec server).Stable t l.held A) (hA : A g)

include hst hA

theorem activeForUser_runs (hl : ∀ db, (l.view db).forgejoCredentials = db.forgejoCredentials)
    {userId : Uuid} {k : ℕ × Option ForgejoCredential → P β}
    (h : ∀ g₁ current, (serial server).Inv g₁ → A g₁ →
      FoundActive g₁.base g₁.history userId (current.map (·.id)) g₁.history.length →
      Runs server t R (k (g₁.history.length, current)) (l.touch g₁.history.length) g₁) :
    Runs server t R (activeForUser userId >>= k) l g := by
  refine Spec.Safe.query hst hA fun g₁ answer hi₁ hA₁ hq => ?_
  obtain ⟨n, current⟩ := answer
  obtain ⟨rfl, hcurrent⟩ := Prod.mk.inj hq
  have honly : g₁.current.OnlyActive userId (current.map (·.id)) := by
    rw [← hcurrent, hl]
    exact onlyActive_head? (inv_consistent hi₁).unique userId
  have hat : Serial.At g₁.history.length (fun db : Db => db.OnlyActive userId _) g₁ := .now honly
  exact h g₁ current hi₁ hA₁ ⟨hat.le, hat.holds⟩

theorem flushUser_runs (hi : (serial server).Inv g) {loaded value : User} {k : Bool → P β}
    (h : ∀ l' g₁ ok, (∀ db, l'.view db = (l.view db).updateUser loaded value) →
      (∀ x ∈ l.held, x ∈ l'.held) → (serial server).Inv g₁ → A g₁ →
      Runs server t R (k ok) l' g₁) : Runs server t R (flushUser loaded value >>= k) l g := by
  unfold flushUser
  split
  · next hsame =>
    refine h l g true (fun db => ?_) (fun _ hx => hx) hi hA
    rw [hsame, updateUser_self]
  · refine Spec.Safe.exec hst hA fun g₁ hi₁ hA₁ => ?_
    refine h _ g₁ _ (fun db => ?_) (fun x hx => List.mem_append_right _ hx) hi₁ hA₁
    exact Session.exec_view _ _ _ _ _

theorem flushAccountStatus_runs (hi : (serial server).Inv g) {loaded : Account}
    {status : RecordStatus} {k : Unit → P β}
    (h : ∀ l' g₁, (∀ db, ∃ accounts, l'.view db = { l.view db with accounts := accounts }) →
      (∀ db, (l.view db).KeepsAccounts (l'.view db)) → (∀ x ∈ l.held, x ∈ l'.held) →
      (serial server).Inv g₁ → A g₁ → Runs server t R (k ()) l' g₁) :
    Runs server t R (flushAccountStatus loaded status >>= k) l g := by
  unfold flushAccountStatus
  split
  · exact h l g (fun db => ⟨(l.view db).accounts, rfl⟩) (fun _ => .of_eq rfl) (fun _ hx => hx) hi hA
  · refine Rel.updateKey_safe hst hA fun g₁ hi₁ hA₁ => ?_
    refine h _ g₁ (fun db => ⟨_, Session.exec_view _ _ _ _ _⟩) (fun db id => ?_)
      (fun x hx => List.mem_append_right _ hx) hi₁ hA₁
    rw [Session.exec_view]
    exact Table.map_get_update (fun a : Account => (a.userId, a.mustChangePassword)) _
      (fun _ => rfl) id

end

/-! ### Users -/

/-- The name or the other attributes of a user are written. -/
theorem updateUser_runs (hl : Clean l) (hA : NoToken t g)
    {userId : Uuid} {displayName forgejoUsername : String} {k : Unit → P β}
    (h : ∀ g, (serial server).Inv g → NoToken t g → Runs server t (Plain t) (k ()) {} g) :
    Runs server t (Plain t) (updateUser server userId displayName forgejoUsername >>= k) l g := by
  simp only [updateUser, Prog.bind_eq, Prog.bind_assoc]
  refine getUser_runs Plain.kept NoToken.stable hA (fun _ _ _ h => h) (fun db => by rw [hl])
    (fun _ _ _ hx => by cases hx) fun g₁ user hi₁ hA₁ huser => ?_
  have hid : user.row.id = userId := Table.key_of_get huser.holds
  have hst := (NoToken.stable : (spec server).Stable t l.held (NoToken t)).and
    (LoadedUser.stable userId user)
  refine Spec.Safe.rejectIf (fun _ => Plain.raises hA₁) fun _ => ?_
  refine Spec.Safe.now (l := l.touch _) hst ⟨hA₁, huser⟩ fun g₂ hi₂ hA₂ => ?_
  generalize hvalue : ({ user.row with
    expectedForgejoUsername := strip forgejoUsername
    normalizedForgejoUsername := Users.normalizeUsername server.users (strip forgejoUsername) } :
      User) = value
  have hstatus : value.status = user.row.status := by rw [← hvalue]
  split
  · simp only [Prog.bind_assoc]
    refine activeForUser_runs (l := l.touch _) hst hA₂ (fun db => by rw [Session.touch_view, hl])
      fun g₃ current hi₃ hA₃ hfound => ?_
    have hst₁ := hst.and (FoundActive.stable
      user.row.id (current.map (·.id)) g₃.history.length)
    refine flushUser_runs (l := (l.touch _).touch _) hst₁ ⟨hA₃, hfound⟩ hi₃
      fun l₁ g₄ ok hview hheld hi₄ hA₄ => ?_
    split
    · simp only [Prog.bind_assoc]
      refine flushRevoked_runs hi₄ (hst₁.mono hheld) hA₄ fun l₂ g₅ hl₂ hi₅ hA₅ => ?_
      refine Serial.asking_commit (hst₁.mono fun x hx => hl₂.held x (hheld x hx)) hA₅
        fun g₆ hi₆ hA₆ => ⟨commits_of_step hi₆ rfl rfl ?_ fun x hx => ?_, fun hi' => h _ hi' hA₆.1.1⟩
      · refine ⟨user.row, value, g₂.clock, ?_, hid, hstatus, hid ▸ hA₆.2⟩
        exact (hl₂.view _).trans (congrArg (Db.revokeFound · _ _) ((hview _).trans
          (congrArg (Db.updateUser · _ _) (hl _))))
      · obtain ⟨c, hc, rfl⟩ := List.mem_map.1 hx
        exact hl₂.locked c (by simpa using hc)
    · refine Spec.Safe.rollback (hst₁.mono hheld) hA₄ fun g₅ hi₅ hA₅ => ?_
      exact Plain.raises hA₅.1.1
  · next hsame =>
    simp only [Prog.bind_assoc]
    refine flushUser_runs (l := l.touch _) hst hA₂ hi₂ fun l₁ g₃ ok hview hheld hi₃ hA₃ => ?_
    refine Serial.asking_commit (hst.mono hheld) hA₃ fun g₄ hi₄ hA₄ =>
      ⟨commits_of_step hi₄ rfl rfl ?_ fun c hc => absurd hc List.not_mem_nil,
        fun hi' => h _ hi' hA₄.1⟩
    refine ⟨user.row, value, 0, ?_, hid, hstatus, ?_⟩
    · exact (hview _).trans (congrArg (Db.updateUser · _ _) (hl _))
    · rw [← hvalue]
      exact not_not.1 hsame

/-- The end of `disable_user`: the credential that is active is revoked, and all is committed. -/
theorem disabled_runs {userId : Uuid} {user : Loaded User} {time : Time}
    (hA : NoToken t g ∧ LoadedUser userId user g) (hw : WritesUser l user.row
      { user.row with status := .disabled, disabledAt := some time }) {k : Unit → P β}
    (h : ∀ g, (serial server).Inv g → NoToken t g → Runs server t (Plain t) (k ()) {} g) :
    Runs server t (Plain t) ((activeForUser user.row.id).bind fun found =>
      (flushRevoked found.2 time).bind fun _ =>
        (commit (Label.userDisabled userId (found.2.map (·.id)) found.1)).bind k) l g := by
  have hid : user.row.id = userId := Table.key_of_get hA.2.holds
  have hst := (NoToken.stable : (spec server).Stable t l.held (NoToken t)).and
    (LoadedUser.stable userId user)
  refine activeForUser_runs hst hA hw.forgejoCredentials fun g₁ current hi₁ hA₁ hfound => ?_
  have hst₁ := hst.and (FoundActive.stable
    user.row.id (current.map (·.id)) g₁.history.length)
  refine flushRevoked_runs (l := l.touch _) hi₁ hst₁ ⟨hA₁, hfound⟩ fun l₁ g₂ hl₁ hi₂ hA₂ => ?_
  refine Serial.asking_commit (hst₁.mono hl₁.held) hA₂ fun g₃ hi₃ hA₃ =>
    ⟨commits_of_step hi₃ rfl rfl ?_ fun x hx => ?_, fun hi' => h _ hi' hA₃.1.1⟩
  · obtain ⟨accounts, sessions, hview⟩ := hw.view g₃.current
    have hdb : l₁.view g₃.current = _ := hl₁.view _
    have hkeeps := hw.accounts g₃.current
    rw [Session.touch_view, hview] at hdb
    rw [hview] at hkeeps
    refine ⟨user.row, { user.row with status := .disabled, disabledAt := some time }, time, accounts,
      sessions, ?_, ?_, hid, rfl, rfl, hid ▸ hA₃.2⟩
    · refine hdb.trans ?_
      cases current <;> rfl
    · refine fun id => Eq.trans ?_ (hkeeps id)
      show ((l₁.view g₃.current).accounts.get id).map _ = _
      rw [hdb, accounts_revokeFound]
  · obtain ⟨c, hc, rfl⟩ := List.mem_map.1 hx
    exact hl₁.locked c (by simpa using hc)

theorem disableUser_runs (hl : Clean l) (hA : NoToken t g) {userId : Uuid} {k : Unit → P β}
    (h : ∀ g, (serial server).Inv g → NoToken t g → Runs server t (Plain t) (k ()) {} g) :
    Runs server t (Plain t) (disableUser userId >>= k) l g := by
  simp only [disableUser, accountOf, Prog.bind_eq, Prog.bind_assoc]
  refine getUser_runs Plain.kept NoToken.stable hA (fun _ _ _ h => h) (fun db => by rw [hl])
    (fun _ _ _ hx => by cases hx) fun g₁ user hi₁ hA₁ huser => ?_
  have hst := (NoToken.stable : (spec server).Stable t l.held (NoToken t)).and
    (LoadedUser.stable userId user)
  refine Spec.Safe.query (l := l.touch _) hst ⟨hA₁, huser⟩ fun g₂ answer hi₂ hA₂ _ => ?_
  obtain ⟨n, account⟩ := answer
  refine Spec.Safe.now (l := (l.touch _).touch _) hst hA₂ fun g₃ hi₃ hA₃ => ?_
  refine flushUser_runs (l := (l.touch _).touch _) hst hA₃ hi₃ fun l₁ g₄ ok hview hheld hi₄ hA₄ => ?_
  have hw := WritesUser.of_eq fun db =>
    (hview db).trans (congrArg (Db.updateUser · _ _) (hl db))
  cases account with
  | none =>
    simp only [Prog.bind_assoc]
    exact disabled_runs hA₄ hw h
  | some account =>
    simp only [Prog.bind_assoc]
    refine flushAccountStatus_runs (hst.mono hheld) hA₄ hi₄
      fun l₂ g₅ hview₂ hkeeps₂ hheld₂ hi₅ hA₅ => ?_
    have hw₂ := hw.write (fun db => ?_) hkeeps₂
    · refine Rel.update_safe ((hst.mono hheld).mono hheld₂) hA₅ fun g₆ g₇ ks _ _ _ hi₇ hA₇ _ => ?_
      refine disabled_runs hA₇ (hw₂.write (fun db => ?_) fun db => .of_eq ?_) h
      · exact ⟨_, _, Session.exec_view _ _ _ _ _⟩
      · rw [Session.exec_view]
        rfl
    · obtain ⟨accounts, heq⟩ := hview₂ db
      exact ⟨accounts, _, heq⟩

theorem enableUser_runs (hl : Clean l) (hA : NoToken t g) {userId : Uuid} {k : Unit → P β}
    (h : ∀ g, (serial server).Inv g → NoToken t g → Runs server t (Plain t) (k ()) {} g) :
    Runs server t (Plain t) (enableUser userId >>= k) l g := by
  simp only [enableUser, accountOf, Prog.bind_eq, Prog.bind_assoc]
  refine getUser_runs Plain.kept NoToken.stable hA (fun _ _ _ h => h) (fun db => by rw [hl])
    (fun _ _ _ hx => by cases hx) fun g₁ user hi₁ hA₁ huser => ?_
  have hid : user.row.id = userId := Table.key_of_get huser.holds
  have hst := (NoToken.stable : (spec server).Stable t l.held (NoToken t)).and
    (LoadedUser.stable userId user)
  refine Spec.Safe.query (l := l.touch _) hst ⟨hA₁, huser⟩ fun g₂ answer hi₂ hA₂ hq => ?_
  obtain ⟨n, found⟩ := answer
  obtain ⟨rfl, hfound⟩ := Prod.mk.inj hq
  refine Spec.Safe.require (fun _ => Plain.raises hA₂.1) fun account haccount => ?_
  generalize hnext : (if account.mustChangePassword = true then RecordStatus.pending else .active) =
    nextStatus
  rw [Session.touch_view, hl] at hfound
  have haccount := hfound.trans haccount
  have hread : Serial.At g₂.history.length (fun db : Db => account ∈ db.accounts) g₂ :=
    .now (List.mem_of_find?_eq_some haccount)
  have hst₁ := hst.and (Serial.At.stable_of (P := spec server) (t := t)
    g₂.history.length fun db : Db => account ∈ db.accounts)
  refine flushUser_runs (l := (l.touch _).touch _) hst₁ ⟨hA₂, hread⟩ hi₂
    fun l₁ g₃ ok hview hheld hi₃ hA₃ => ?_
  refine flushAccountStatus_runs (hst₁.mono hheld) hA₃ hi₃
    fun l₂ g₄ hview₂ hkeeps₂ hheld₂ hi₄ hA₄ => ?_
  refine Serial.asking_commit ((hst₁.mono hheld).mono hheld₂) hA₄ fun g₅ hi₅ hA₅ =>
    ⟨commits_of_step hi₅ rfl rfl ?_ fun x hx => absurd hx List.not_mem_nil,
      fun hi' => h _ hi' hA₅.1.1⟩
  have hview₁ : l₁.view g₅.current = g₅.current.updateUser user.row
      { user.row with status := nextStatus, disabledAt := none } :=
    (hview _).trans (congrArg (Db.updateUser · _ _) (hl _))
  obtain ⟨accounts, hdb⟩ := hview₂ g₅.current
  have hkeeps := hkeeps₂ g₅.current
  rw [hview₁] at hdb hkeeps
  exact ⟨user.row, { user.row with status := nextStatus, disabledAt := none }, accounts, hdb, hkeeps,
    hid, rfl, rfl, hA₅.2.le, account, hA₅.2.holds, hid ▸ by simpa using List.find?_some haccount,
    hnext.symm⟩

/-! ### The instance -/

theorem configure_runs (hl : Clean l) (hA : NoToken t g) {displayName baseUrl : String}
    {verifyTls : Bool} {k : Unit → P β}
    (h : ∀ g, (serial server).Inv g → NoToken t g → Runs server t (Plain t) (k ()) {} g) :
    Runs server t (Plain t) (configure server displayName baseUrl verifyTls >>= k) l g := by
  have hst : (spec server).Stable t l.held (NoToken t) := NoToken.stable
  simp only [configure, check, getVersion, primary, Prog.bind_eq, Prog.bind_assoc]
  refine Spec.Safe.rejectIf (fun _ => Plain.raises hA) fun _ => ?_
  cases server.normalizeBaseUrl baseUrl with
  | error message => exact Plain.raises hA
  | ok url =>
    simp only [Prog.pure_eq, Prog.ret_bind, Prog.bind_assoc]
    refine Spec.Safe.rejectIf (fun _ => Plain.raises hA) fun _ => ?_
    refine Spec.Safe.rejectIf (fun _ => Plain.raises hA) fun _ => ?_
    refine Spec.Safe.rejectIf (fun _ => Plain.raises hA) fun _ => ?_
    refine ask_runs (q := ⟨url, verifyTls, .version, .checks⟩) hst hA rfl (fun _ _ hc => by cases hc)
      (fun _ hc => by cases hc) fun g₁ answer hi₁ hA₁ => ?_
    have hA₁ := hA₁.ask (q := ⟨url, verifyTls, .version, .checks⟩) rfl answer
    refine fallible_runs (fun _ _ => Plain.raises hA₁) fun version _ => ?_
    refine Rel.find_safe hst hA₁ fun g₂ found hi₂ hA₂ _ => ?_
    have hdone : ∀ {l' : Session sorts} {g}, NoToken t g →
        (∀ db : Db, l'.view db = { db with forgejoInstances := (l'.view db).forgejoInstances }) →
        ⟨.forgejoInstance, true⟩ ∈ l'.held →
        Runs server t (Plain t) (commit Label.instanceConfigured >>= k) l' g := by
      intro l' g hA hview hlock
      refine Serial.asking_commit NoToken.stable hA fun g₁ hi₁ hA₁ =>
        ⟨commits_of_step hi₁ rfl rfl ⟨_, hview _⟩ fun x hx => ?_, fun hi' => h _ hi' hA₁⟩
      rw [List.mem_singleton.1 hx]
      exact hlock
    cases found with
    | none =>
      refine Spec.Safe.fresh (l := l.touch _) hst hA₂ fun g₃ _ hi₃ hA₃ => ?_
      simp only [Prog.bind_assoc]
      refine Rel.insert_safe (l := l.touch _) hst hA₃ (fun _ _ _ hA => Plain.raises hA)
        fun g₄ hi₄ hA₄ _ => hdone hA₄ (fun db => ?_) (List.mem_append_left _
          (List.mem_singleton_self _))
      rw [Session.exec_view, Session.touch_view, hl]
      rfl
    | some loaded =>
      refine Rel.updateKey_safe (l := l.touch _) hst hA₂ fun g₃ hi₃ hA₃ =>
        hdone hA₃ (fun db => ?_) (List.mem_append_left _ (List.mem_singleton_self _))
      rw [Session.exec_view, Session.touch_view, hl]
      rfl

/-! ### The OAuth configuration -/

/-- The commit of a configuration that was written under the lock of its record. -/
theorem configurationSaved_runs {first : Bool} {base : Db} {h : List (Entry sorts)}
    (saved : Forgejo.ForgejoOAuthConfiguration)
    (hA : NoToken t g ∧ (serial server).Held .configuration base h g)
    (hlock : (⟨.configuration, true⟩ : RowLock Key) ∈ l.held)
    (hfirst : (after base h).forgejoOauthConfigurations.get () = none ↔ first = true)
    (hview : ∀ db : Db, l.view db =
      { db with forgejoOauthConfigurations := (l.view db).forgejoOauthConfigurations })
    (hsaved : ∀ db : Db, (db.forgejoOauthConfigurations.get () = none ↔ first = true) →
      (l.view db).forgejoOauthConfigurations.get () = some saved) {k : Unit → P β}
    (hk : ∀ g, (serial server).Inv g → NoToken t g → Runs server t (Plain t) (k ()) {} g) :
    Runs server t (Plain t) (commit (Label.configurationSaved first) >>= k) l g := by
  have hst := (NoToken.stable : (spec server).Stable t l.held (NoToken t)).and
    (Serial.Stable.asking (Serial.Held.stable (M := serial server) hlock base h))
  refine Serial.asking_commit hst hA fun g₁ hi₁ hA₁ =>
    ⟨commits_of_step hi₁ rfl rfl ⟨_, hview _, ?_, ?_⟩ fun x hx => ?_, fun hi' => hk _ hi' hA₁.1⟩
  · rw [hsaved _ (by rw [configurations_of_held hA₁.2 hi₁]; exact hfirst)]
    exact Option.some_ne_none _
  · show g₁.current.forgejoOauthConfigurations.get () = none ↔ _
    rw [configurations_of_held hA₁.2 hi₁]
    exact hfirst
  · rw [List.mem_singleton.1 hx]
    exact hlock

theorem writeConfiguration_runs (hl : Clean l) {found : Option Forgejo.ForgejoOAuthConfiguration}
    {base : Db} {h : List (Entry sorts)}
    (hlock : found = none ∨ (⟨.configuration, true⟩ : RowLock Key) ∈ l.held)
    (hA : NoToken t g ∧ LookedUp server found base h g) {saved : Forgejo.ForgejoOAuthConfiguration}
    {k : Unit → P β}
    (hk : ∀ g, (serial server).Inv g → NoToken t g → Runs server t (Plain t) (k ()) {} g) :
    Runs server t (Plain t) (writeConfiguration found saved >>= k) l g := by
  have hst : (spec server).Stable t l.held fun g => NoToken t g ∧ LookedUp server found base h g :=
    NoToken.stable.and (LookedUp.stable hlock)
  cases found with
  | none =>
    simp only [writeConfiguration, Prog.bind_eq, Prog.bind_assoc]
    refine Spec.Safe.exec hst hA fun g₁ hi₁ hA₁ => ?_
    split
    · next hadded =>
      have hnone : g₁.current.forgejoOauthConfigurations.get () = none := by
        rw [hl] at hadded
        simpa using hadded
      refine configurationSaved_runs saved ⟨hA₁.1, .refl _ _⟩
        (List.mem_append_left _ (List.mem_singleton_self _)) (iff_of_true hnone rfl)
        (fun db => ?_) (fun db hdb => ?_) hk
      · rw [Session.exec_view, hl]
        rfl
      · rw [Session.exec_view, hl]
        exact Table.get_insert_self (hdb.2 rfl)
    · simp only [Prog.bind_assoc]
      exact Spec.Safe.rollback (hst.append _) hA₁ fun _ _ hA => Plain.raises hA.1
  | some r =>
    simp only [writeConfiguration, Prog.bind_eq, Prog.bind_assoc]
    refine Rel.updateKey_safe hst hA fun g₁ hi₁ hA₁ => ?_
    have hheld := hA₁.2.kept.resolve_left (Option.some_ne_none r)
    refine configurationSaved_runs saved ⟨hA₁.1, hheld⟩
      (List.mem_append_left _ (List.mem_singleton_self _)) ?_ (fun db => ?_) (fun db hdb => ?_) hk
    · rw [hA₁.2.found]
      exact iff_of_false (Option.some_ne_none r) Bool.false_ne_true
    · rw [Session.exec_view, hl]
      rfl
    · rw [Session.exec_view, hl]
      have hsome := mt hdb.1 Bool.false_ne_true
      obtain ⟨r', hr'⟩ := Option.ne_none_iff_exists'.1 hsome
      exact (Table.get_update _ ()).trans (congrArg _ hr')

theorem saveConfiguration_runs (hl : Clean l) (hA : NoToken t g) {request : Forgejo.SaveRequest}
    {k : Unit → P β}
    (h : ∀ g, (serial server).Inv g → NoToken t g → Runs server t (Plain t) (k ()) {} g) :
    Runs server t (Plain t) (saveConfiguration server request >>= k) l g := by
  simp only [saveConfiguration, Prog.bind_eq, Prog.bind_assoc]
  -- what follows the lookup of the record
  have hrest : ∀ {l' : Session sorts} {g₁ : Shared sorts} {found}, Clean l' →
      found = none ∨ (⟨.configuration, true⟩ : RowLock Key) ∈ l'.held → NoToken t g₁ →
      g₁.current.forgejoOauthConfigurations.get () = found → Runs server t (Plain t)
        (fresh >>= fun id => fresh >>= fun revision => fresh >>= fun n =>
          fallible (Forgejo.save server.lib server.settings ⟨id, revision, server.nonce n⟩ found
            request) >>= fun saved => writeConfiguration found saved >>= k) l' g₁ := by
    intro l' g₁ found hl' hlock hA₁ hfound
    have hst : (spec server).Stable t l'.held fun g =>
        NoToken t g ∧ LookedUp server found g₁.base g₁.history g :=
      NoToken.stable.and (LookedUp.stable hlock)
    refine Spec.Safe.fresh hst ⟨hA₁, .refl hfound⟩ fun g₂ _ _ hA₂ => ?_
    refine Spec.Safe.fresh hst hA₂ fun g₃ _ _ hA₃ => ?_
    refine Spec.Safe.fresh hst hA₃ fun g₄ _ _ hA₄ => ?_
    exact fallible_runs (fun _ _ => Plain.raises hA₄.1) fun saved _ =>
      writeConfiguration_runs hl' hlock hA₄ h
  refine Rel.selectForUpdate_safe NoToken.stable hA (fun g₁ hi₁ hA₁ hno => ?_)
    fun g₀ g₁ row _ _ _ hi₁ hA₁ => ?_
  · refine hrest (hl.touch _) (.inl rfl) hA₁ (Table.get_eq_none.2 fun r hr _ => ?_)
    rw [hl] at hno
    cases hno r hr
  · refine hrest (((Reads.refl l).touch _).exec _ _ |>.clean hl) (.inr ?_) hA₁ ?_
    · exact List.mem_append_left _ (List.mem_singleton_self _)
    · rw [hl]
      show _ = (g₁.current.forgejoOauthConfigurations.get ()).filter _
      cases g₁.current.forgejoOauthConfigurations.get () <;> rfl

end ForgejoMcp.Credentials
