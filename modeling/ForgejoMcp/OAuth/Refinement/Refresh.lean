import ForgejoMcp.OAuth.Refinement.Revocation

/-!
# Refinement: refreshing a pair

`exchange_refresh_token` locks the family of the presented token before anything else and keeps the
lock until it commits, so that the token it then reads is the token as it is when the transaction
commits.
-/

namespace ForgejoMcp.OAuth

open Transactions Rows

variable {d : Deployment} {t : ℕ} {l : Session sorts} {g : Shared sorts}
  {A : Shared sorts → Prop}

/-! ### The results of a refresh -/

/-- The token was rotated, and `time` is within the grace period after that. -/
def InGrace (d : Deployment) (r : OAuthRefreshToken) (time : Time) : Prop :=
  ∃ rotatedAt, r.rotatedAt = some rotatedAt ∧ 0 < d.oauthRefreshTokenReuseGraceSeconds ∧
    time - rotatedAt ≤ seconds d.oauthRefreshTokenReuseGraceSeconds

/-- Why a refresh may fail that finds the record `r` at the time `time`. -/
inductive RecordRefusal (d : Deployment) (clientId : Option String) (token : StoredRefreshToken)
    (scopes : List String) (time : Time) (db : Db) (r : OAuthRefreshToken) : Prop
  | family (h : r.familyId ≠ token.familyId)
  | expired (h : r.expiresAt ≤ time)
  | revoked (h : r.revokedAt ≠ none)
  | resource (h : r.resource ≠ d.oauthResourceUrl)
  | scopes (h : ¬ scopes ⊆ r.scopes)
  | noClient (h : db.oauthClients.get r.clientId = none)
  | client (client : OAuthClient) (hc : db.oauthClients.get r.clientId = some client)
      (h : some client.clientId ≠ clientId)
  | unrotated (h : r.rotatedAt = none)
  | inGrace (h : InGrace d r time)

/-- Why a refresh may fail: `db` is a state the call saw, and `time` a time it read. -/
inductive Refusal (d : Deployment) (clientId : Option String) (token : StoredRefreshToken)
    (scopes : List String) (time : Time) (db : Db) : Prop
  | noFamily (h : db.tokenFamilies.get token.familyId = none)
  | revokedFamily (family : OAuthTokenFamily)
      (hf : db.tokenFamilies.get token.familyId = some family) (h : family.revokedAt ≠ none)
  | noRecord (h : db.refreshTokens.get token.recordId = none)
  | record (r : OAuthRefreshToken) (hr : db.refreshTokens.get token.recordId = some r)
      (h : RecordRefusal d clientId token scopes time db r)

/-- A refresh that succeeded: its only commit, at a time before the expiry of the presented token,
either minted the pair or recovered it. -/
def Refreshed (d : Deployment) (tok : StoredRefreshToken) (t n : ℕ) (pair : OAuthToken)
    (g : Shared sorts) : Prop :=
  ∃ base h e r time, Serial.Committed t n base h e g ∧ (t, time) ∈ g.readings ∧
    ((after base h).refreshTokens.get tok.recordId = some r ∧ time < r.expiresAt) ∧
    ((∃ oldToken readAt now i, e.label = .rotated tok.recordId oldToken readAt now i ∧
      i.token d = pair ∧ (t, i.now) ∈ g.readings) ∨
    (e.label = .recovered tok.recordId pair ∧ InGrace d r time))

/-- What a failed refresh of a rotated token committed: within the grace period the audit of a
rejected duplicate, after it the revocation of the family. -/
def Penalized (d : Deployment) (tok : StoredRefreshToken) (t n : ℕ) (g : Shared sorts) : Prop :=
  ∃ base h e r time, Serial.Committed t n base h e g ∧ (t, time) ∈ g.readings ∧
    ((after base h).refreshTokens.get tok.recordId = some r ∧ r.rotatedAt ≠ none) ∧
    ((e.label = .rejected tok.recordId ∧ (∃ event, e.db = (after base h).audited event) ∧
      InGrace d r time) ∨
    (∃ tokens, e.label = .reused tok.recordId tok.familyId tokens) ∧ ¬ InGrace d r time)

/-- A refresh that failed: there was a reason, and it committed nothing, unless it presented a
rotated token. -/
def Refused (d : Deployment) (clientId : Option String) (tok : StoredRefreshToken)
    (scopes : List String) (t n : ℕ) (g : Shared sorts) : Prop :=
  (∃ time, (t, time) ∈ g.readings ∧
    Serial.Sometime n (Refusal d clientId tok scopes time) g) ∧
  (Serial.Idle t n g ∨ Penalized d tok t n g)

/-- The result of a refresh by thread `t`, started after `n` commits. -/
def RefreshPost (d : Deployment) (clientId : Option String) (tok : StoredRefreshToken)
    (scopes : List String) (t n : ℕ) : Except Failure OAuthToken → Shared sorts → Prop
  | .ok pair => Refreshed d tok t n pair
  | .error _ => Refused d clientId tok scopes t n

variable {clientId : Option String} {tok : StoredRefreshToken} {scopes : List String} {n : ℕ}

theorem RefreshPost.kept : Kept d t (RefreshPost d clientId tok scopes t n) := by
  intro r
  cases r with
  | ok pair =>
    refine .exists fun base => .exists fun h => .exists fun e => .exists fun r =>
      .exists fun time => ?_
    refine (Serial.Committed.stable n base h e).and ((Serial.stable_reading time).and
      (.and (.pure _) (.or (.exists fun oldToken => .exists fun readAt => .exists fun now =>
        .exists fun i => ?_) (.pure _))))
    exact .and (.pure _) (.and (.pure _) (Serial.stable_reading i.now))
  | error e =>
    refine .and (.exists fun time => ?_) (.or (Serial.Idle.stable n) ?_)
    · exact (Serial.stable_reading time).and (Serial.Sometime.stable n _)
    · refine .exists fun base => .exists fun h => .exists fun e => .exists fun r =>
        .exists fun time => ?_
      exact (Serial.Committed.stable n base h e).and ((Serial.stable_reading time).and (.pure _))

theorem RefreshPost.mem {r : Except Failure OAuthToken}
    (hr : RefreshPost d clientId tok scopes t n r g) (m : Memory) :
    RefreshPost d clientId tok scopes t n r { g with mem := m } := by
  cases r with
  | ok pair =>
    obtain ⟨base, h, e, r, time, hc, hrest⟩ := hr
    exact ⟨base, h, e, r, time, hc.mem m, hrest⟩
  | error e =>
    obtain ⟨⟨time, hread, hwhy⟩, hown⟩ := hr
    refine ⟨⟨time, hread, hwhy.grow rfl ⟨[], (List.append_nil _).symm⟩⟩, hown.imp ?_ ?_⟩
    · exact fun hi => ⟨hi.started, hi.noCommit⟩
    · rintro ⟨base, h, e, r, time, hc, hrest⟩
      exact ⟨base, h, e, r, time, hc.mem m, hrest⟩

/-! ### What a refresh knows while it runs -/

/-- What a refresh knows once it has locked the family after the history `h`: it has committed
nothing, its recovery entry is one of the presented token, and it read the time `now`. -/
structure Refreshing (d : Deployment) (t n : ℕ) (tok : StoredRefreshToken) (ref : ℕ) (base : Db)
    (h : List (Entry sorts)) (now : Time) (g : Shared sorts) : Prop where
  idle : Serial.Idle t n g
  holds : Holds d tok.familyId base h g
  entry : g.mem.For ref tok.recordId
  reading : (t, now) ∈ g.readings

variable {ref : ℕ} {base : Db} {h : List (Entry sorts)} {now : Time} {held : List (RowLock Key)}

theorem stable_for (ref : ℕ) (id : Uuid) :
    (serial d).spec.Stable t held fun g => g.mem.For ref id where
  interferes := fun _ _ hab ha => hab.rely.side ref id ha
  quiet := fun _ _ hab _ ha => hab.mem ▸ ha

theorem Refreshing.stable (hf : familyLock tok.familyId ∈ held) :
    (serial d).spec.Stable t held (Refreshing d t n tok ref base h now) :=
  (((Serial.Idle.stable n).and (Serial.Held.stable hf base h)).and
    ((stable_for ref tok.recordId).and (Serial.stable_reading now))).congr
      fun _ => ⟨fun hg => ⟨⟨hg.1, hg.2⟩, hg.3, hg.4⟩, fun hg => ⟨hg.1.1, hg.1.2, hg.2.1, hg.2.2⟩⟩

/-- What a refresh has found stays so while it holds the lock of the family. -/
theorem Holds.presents {f k : Uuid} {r : OAuthRefreshToken} (hh : Holds d f base h g)
    (hi : (serial d).Inv g) (hf : r.familyId = f) (hp : Presents base h k r) :
    Presents g.base g.history k r := by
  have hsame := hh.same hi
  have hmem : r ∈ g.current.lineage f := hsame.lineage ▸ hf ▸ Db.mem_lineage_of_get hp.record
  refine ⟨?_, hp.unrevoked, ?_⟩
  · rw [← Table.key_of_get hp.record]
    exact (Db.mem_lineage.1 hmem).1
  · obtain ⟨family, hget, hopen⟩ := hp.family
    exact ⟨family, by rw [← Shared.current, hf, hsame.family, ← hf, hget], hopen⟩

theorem Refreshing.refused (hg : Refreshing d t n tok ref base h now g)
    (hr : Refusal d clientId tok scopes now g.current) (e : Failure) :
    RefreshPost d clientId tok scopes t n (.error e) g :=
  ⟨⟨now, hg.reading, Serial.Sometime.now hg.idle.started hr⟩, .inl hg.idle⟩

/-! ### A rotated token -/

theorem stable_minted (parent : Uuid) (pair : OAuthToken) :
    (serial d).spec.Stable t held fun g => Minted d g.history parent pair where
  interferes := fun _ _ hab ha => by
    obtain ⟨ext, hext, -⟩ := hab.base.history
    rw [hext]
    exact ha.append ext
  quiet := fun _ _ hab _ ha => hab.history ▸ ha

variable {r : OAuthRefreshToken}

theorem graceReplay_runs (hl : ∀ db, l.view db = db) (hf : familyLock tok.familyId ∈ l.held)
    (hA : Refreshing d t n tok ref base h now g) (hp : Presents base h tok.recordId r)
    (hrf : r.familyId = tok.familyId) (hexp : now < r.expiresAt) (hgrace : InGrace d r now) :
    Runs d t (RefreshPost d clientId tok scopes t n) (graceReplay r now ref) l g := by
  have hst : (serial d).spec.Stable t l.held (Refreshing d t n tok ref base h now) :=
    Refreshing.stable hf
  have hid : r.id = tok.recordId := Table.key_of_get hp.record
  have refusal : ∀ g, (serial d).Inv g → Refreshing d t n tok ref base h now g →
      Refusal d clientId tok scopes now g.current := fun g hi hg =>
    .record r (hg.holds.presents hi hrf hp).record (.inGrace hgrace)
  unfold graceReplay
  refine requireAuthorizableUser_runs RefreshPost.kept hst hA
    (fun e g hi hg => hg.refused (refusal g hi hg) e) fun _ g₁ hi₁ hA₁ => ?_
  refine Serial.access hst hA₁ fun g₂ hi₂ hA₂ cached m hm => ?_
  cases hm
  refine ⟨hi₂.side, fun _ _ => .refl _, fun _ => ?_⟩
  have hrot : r.rotatedAt ≠ none := by
    obtain ⟨rotatedAt, hrot, -⟩ := hgrace
    exact hrot ▸ Option.some_ne_none rotatedAt
  cases hcached : g₂.mem.cached ref now with
  | some pair =>
    have hst₂ := hst.and (stable_minted (d := d) (t := t) tok.recordId pair)
    refine Spec.Safe.exec hst₂ ⟨hA₂, hi₂.side.minted hA₂.entry hcached⟩ fun g₃ hi₃ hA₃ => ?_
    refine Serial.commit hst₂ hA₃ fun g₄ hi₄ hA₄ => ?_
    have hp₄ := hA₄.1.holds.presents hi₄ hrf hp
    refine ⟨commits_of_step hi₄ rfl ?_ (fun k hk => absurd hk List.not_mem_nil), ?_⟩
    · unfold Step
      rw [hid]
      exact ⟨r, _, by simp only [Session.exec_view, Session.touch_view, hl]; rfl, hp₄, hrot, hA₄.2⟩
    · exact Runs.ret RefreshPost.kept ⟨_, _, _, r, now, hA₄.1.idle.committed _ _, hA₄.1.reading,
        ⟨hp₄.record, hexp⟩, .inr ⟨congrArg (Label.recovered · pair) hid, hgrace⟩⟩
  | none =>
    refine Spec.Safe.exec hst hA₂ fun g₃ hi₃ hA₃ => ?_
    refine Serial.commit hst hA₃ fun g₄ hi₄ hA₄ => ?_
    have hp₄ := hA₄.holds.presents hi₄ hrf hp
    refine ⟨commits_of_step hi₄ rfl ?_ (fun k hk => absurd hk List.not_mem_nil), ?_⟩
    · unfold Step
      rw [hid]
      exact ⟨r, _, by simp only [Session.exec_view, Session.touch_view, hl]; rfl, hp₄, hrot⟩
    · refine Runs.raise RefreshPost.kept ⟨⟨now, hA₄.reading, ?_⟩, .inr ?_⟩
      · exact (Serial.Sometime.now hA₄.idle.started (refusal g₄ hi₄ hA₄)).commit _ _
      · exact ⟨_, _, _, r, now, hA₄.idle.committed _ _, hA₄.reading, ⟨hp₄.record, hrot⟩,
          .inl ⟨congrArg Label.rejected hid,
            ⟨_, by simp only [Session.exec_view, Session.touch_view, hl]; rfl⟩, hgrace⟩⟩

theorem lateReplay_runs (hl : ∀ db, l.view db = db) (hf : familyLock tok.familyId ∈ l.held)
    (hA : Refreshing d t n tok ref base h now g) (hp : Presents base h tok.recordId r)
    (hrf : r.familyId = tok.familyId) (hrot : r.rotatedAt ≠ none) (hlate : ¬ InGrace d r now) :
    Runs d t (RefreshPost d clientId tok scopes t n) (lateReplay r now) l g := by
  have hst : (serial d).spec.Stable t l.held (Refreshing d t n tok ref base h now) :=
    Refreshing.stable hf
  have hid : r.id = tok.recordId := Table.key_of_get hp.record
  unfold lateReplay
  refine revokeOauthFamily_runs RefreshPost.kept hst hA hl
    (fun e g hi hg hnone => hg.refused (.noFamily (hrf ▸ hnone)) e)
    fun tokens h₁ l' g₁ hi₁ hA₁ hrev => ?_
  have hst₁ := (hst.mono hrev.held).and
    (Serial.Held.stable (M := serial d) (t := t) hrev.family g₁.base h₁)
  refine Serial.commit hst₁ ⟨hA₁, hrev.holds⟩ fun g₂ hi₂ hA₂ => ?_
  obtain ⟨⟨time, hview⟩, htokens, hstored⟩ := hrev.db hA₂.2 hi₂
  have hp₂ := hA₂.1.holds.presents hi₂ hrf hp
  refine ⟨commits_of_step hi₂ rfl ?_ fun k hk => ?_, ?_⟩
  · unfold Step
    rw [hid]
    exact ⟨r, time, _, hview, hp₂, hrot, rfl, htokens⟩
  · exact hrev.exclusive hk
  · refine Runs.raise RefreshPost.kept ⟨⟨now, hA₂.1.reading, ?_⟩, .inr ?_⟩
    · obtain ⟨family, hfamily⟩ := Option.ne_none_iff_exists'.1 hstored
      refine Serial.Sometime.committed hA₂.1.idle.started ?_ _
      rw [hview]
      refine .revokedFamily { family with revokedAt := some time } ?_ (Option.some_ne_none time)
      rw [← hrf]
      exact Db.get_revokeFamily hfamily
    · refine ⟨_, _, _, r, now, hA₂.1.idle.committed _ _, hA₂.1.reading, ⟨hp₂.record, hrot⟩,
        .inr ⟨⟨tokens, ?_⟩, hlate⟩⟩
      rw [hid, hrf]

/-! ### A rotation -/

/-- The updates of a rotation that found the previous access token and its link. -/
theorem revokeToken_eq {db : Db} {k m : Uuid} {time : Time} {ks ks' : List Uuid} (hm : m ∈ ks)
    (hm' : m ∈ ks') :
    accessTokens.updated ks' (fun r => decide (r.mcpTokenId = m))
      ⟨fun r => { r with revokedAt := some time }, fun _ => rfl⟩
      (mcpTokens.updated ks (fun r => decide (r.id = m ∧ r.revokedAt = none))
        ⟨fun r => { r with enabled := false, revokedAt := some time }, fun _ => rfl⟩
        (refreshTokens.updatedKey k ⟨fun r => { r with rotatedAt := some time }, fun _ => rfl⟩
          db)) = (db.markRotated k time).revokeToken m time := by
  rw [Rel.updated_eq fun r _ hr => of_decide_eq_true hr ▸ hm',
    Rel.updated_eq fun r _ hr => (of_decide_eq_true hr).1 ▸ hm]
  rfl

/-- The access token of the only refresh token that is not rotated is alive. -/
theorem Presents.alive {k m : Uuid} (hi : (serial d).Inv g)
    (hp : Presents g.base g.history k r) (hun : r.rotatedAt = none) (hm : r.mcpTokenId = some m) :
    g.current.Alive m := by
  obtain ⟨family, hfam, hopen⟩ := hp.family
  obtain ⟨past, newest, hchain⟩ :=
    (inv_consistent hi).chains r.familyId (hfam ▸ Option.some_ne_none family)
  have hnew := hchain.eq_newest hp.record rfl hun
  exact (hchain.live family hfam hopen).2 m (hnew ▸ hm)

theorem granted_of_mem {db : Db} {m : Uuid} {tool : String}
    (htool : tool ∈ (db.mcpTokenToolGrants.select fun r => decide (r.mcpTokenId = m)).map
      (·.toolName)) : db.Granted m tool := by
  obtain ⟨⟨m', tool'⟩, hgrant, rfl⟩ := List.mem_map.1 htool
  obtain ⟨hmem, hm⟩ := Table.mem_select.1 hgrant
  exact of_decide_eq_true hm ▸ hmem

theorem rotate_runs {client : OAuthClient} {b : ℕ} (hi : (serial d).Inv g)
    (hl : ∀ db, l.view db = db) (hf : familyLock tok.familyId ∈ l.held)
    (hlock : ⟨.refreshToken tok.recordId, true⟩ ∈ l.held) (hb : l.began = some b)
    (hlen : b ≤ g.history.length) (hA : Refreshing d t n tok ref base h now g)
    (hp : Presents base h tok.recordId r) (hrf : r.familyId = tok.familyId)
    (hun : r.rotatedAt = none) (hexp : now < r.expiresAt) (hscopes : scopes ⊆ r.scopes)
    (hclient : client.id = r.clientId)
    (hreg : Serial.Sometime 0 (fun db : Db => db.oauthClients.get client.id = some client) g) :
    Runs d t (RefreshPost d clientId tok scopes t n) (rotate d client r scopes now ref) l g := by
  have hst : (serial d).spec.Stable t l.held fun g =>
      Refreshing d t n tok ref base h now g ∧ b ≤ g.history.length ∧
        Serial.Sometime 0 (fun db : Db => db.oauthClients.get client.id = some client) g :=
    (Refreshing.stable hf).and ((Serial.stable_length b).and (Serial.Sometime.stable 0 _))
  have hid : r.id = tok.recordId := Table.key_of_get hp.record
  have refused : ∀ e g, (serial d).Inv g → Refreshing d t n tok ref base h now g →
      RefreshPost d clientId tok scopes t n (.error e) g := fun e g hi hg =>
    hg.refused (.record r (hg.holds.presents hi hrf hp).record (.unrotated hun)) e
  obtain ⟨m, -, hm, -⟩ :=
    (inv_consistent hi).linked.token _ r (hA.holds.presents hi hrf hp).record
  unfold rotate
  simp only [hm, hid, grantedToolNames, revokePrevious, revokeMcpToken, Prog.bind_eq, Prog.bind_assoc]
  refine Spec.Safe.query hst ⟨hA, hlen, hreg⟩ fun g₁ answer hi₁ hA₁ hq => ?_
  obtain ⟨readAt, selected⟩ := answer
  obtain ⟨rfl, hselected⟩ := Prod.mk.inj hq
  have hst₁ := hst.and (Serial.Held.stable (M := serial d) (t := t) hf g₁.base g₁.history)
  refine Rel.updateKey_safe hst₁ ⟨hA₁, .refl _ _⟩ fun g₂ hi₂ hA₂ => ?_
  refine Rel.update_safe (hst₁.append _) hA₂ fun g₃ g₄ ks hi₃ hA₃ _ hi₄ hA₄ hks => ?_
  refine Rel.update_safe ((hst₁.append _).append _) hA₄ fun g₅ g₆ ks' hi₅ hA₅ _ hi₆ hA₆ hks' => ?_
  -- the previous access token is alive, so both updates find it
  have htoken : m ∈ ks := by
    obtain ⟨⟨token, hget, -, hrev⟩, -⟩ :=
      Presents.alive hi₃ (hA₃.1.1.holds.presents hi₃ hrf hp) hun hm
    rw [← hks, ← Table.key_of_get hget]
    simp only [Session.exec_view, Session.touch_view, hl]
    exact List.mem_map_of_mem (Table.mem_select.2 ⟨Table.mem_of_get hget,
      decide_eq_true ⟨rfl, hrev⟩⟩)
  have hlink : m ∈ ks' := by
    obtain ⟨-, link, hget, -⟩ :=
      Presents.alive hi₅ (hA₅.1.1.holds.presents hi₅ hrf hp) hun hm
    rw [← hks', ← Table.key_of_get hget]
    simp only [Session.exec_view, Session.touch_view, hl]
    exact List.mem_map_of_mem (Table.mem_select.2 ⟨Table.mem_of_get hget, decide_eq_true rfl⟩)
  refine issueTokenPair_runs RefreshPost.kept (((hst₁.append _).append _).append _) hA₆
    (fun e g hi hg => refused e g hi hg.1.1)
    (Session.exec_began _ _ _ (Session.touch_began _ (Session.exec_began _ _ _ (Session.touch_began _
      (Session.exec_began _ _ _ (Session.touch_began _ hb))))))
    (fun db userId => by simp only [Session.exec_view, Session.touch_view, hl]; rfl)
    (fun i h₁ l' g₇ hi₇ hA₇ hbh hb₇ hic hiu hif his hir hie hissued => ?_) (fun _ hg => hg.1.2.1)
  have hst₂ := (((((hst₁.append _).append _).append _).mono hissued.held).and (Draws.stable i)).and
    (Serial.stable_reading i.now)
  refine Serial.commit (hst₂.and (Serial.Continues.stable g₇.base h₁))
    ⟨⟨⟨hA₇, hissued.draws⟩, hissued.reading⟩, hissued.continues⟩ fun g₈ hi₈ hA₈ => ?_
  obtain ⟨⟨⟨⟨⟨hr₈, -, hreg₈⟩, hh₈⟩, hd₈⟩, hread₈⟩, hc₈⟩ := hA₈
  have hp₈ := hr₈.holds.presents hi₈ hrf hp
  have hread : g₈.history.take g₁.history.length = g₁.history :=
    (List.prefix_iff_eq_take.1 hh₈.continues.isPrefix).symm
  have hkeep : ∀ x ∈ l.held, x ∈ l'.held := fun x hx => hissued.held x
    (List.mem_append_right _ (List.mem_append_right _ (List.mem_append_right _ hx)))
  refine ⟨⟨?_, fun k hk => ?_, fun k hk => hd₈.drawn hk, hi₈.side.append _⟩, ?_⟩
  · obtain ⟨log, hview⟩ := hissued.view g₈.current
    refine ⟨r, m, log, rfl, ?_, ?_⟩
    · rw [hview]
      simp only [Session.exec_view, Session.touch_view, hl]
      exact congrArg (fun db => (Db.issue db d i).withLog log) (revokeToken_eq htoken hlink)
    · refine ⟨hp₈, hun, hm, hexp, hif, hiu, hic ▸ hclient, hir, his ▸ hscopes, hie, ?_,
        hh₈.continues.isPrefix.length_le, ?_, ?_⟩
      · rw [hb₇]
        exact hA₁.2.1
      · obtain ⟨ext, hext, hno⟩ := hh₈.unchanged
        rw [hext, List.drop_left, hif, hrf]
        exact hno
      · refine ⟨selected, hissued.issues hd₈ hc₈ hi₈ ?_ (hic ▸ registered_of_sometime hreg₈),
          fun tool htool => ⟨m, rfl, ?_⟩⟩
        · rw [hb₇]
          exact hbh
        · rw [hread, hh₈.base, ← Shared.current]
          rw [← hselected, hl] at htool
          exact granted_of_mem htool
  · simp only [serial, footprint, Option.toList_some, List.map_cons, List.map_nil,
      List.mem_append, List.mem_cons, List.not_mem_nil, or_false] at hk
    rcases hk with (rfl | rfl | rfl) | rfl
    · rw [hif, hrf]
      exact hkeep _ hf
    · exact hkeep _ hlock
    · exact hissued.accessId
    · exact hissued.held _
        (List.mem_append_right _ (List.mem_append_left _ (List.mem_map_of_mem htoken)))
  · -- the pair is stored in the recovery entry after the commit
    refine Serial.access ((((Serial.Committed.stable n _ _ _).and
      ((Serial.stable_reading now).and (Serial.stable_reading i.now))).and
      (stable_minted tok.recordId (i.token d))).and (stable_for ref tok.recordId))
      ⟨⟨⟨hr₈.idle.committed _ _, hr₈.reading, hread₈⟩, ?_⟩, hr₈.entry⟩ fun g₉ hi₉ hA₉ _ mem hmem => ?_
    · exact ⟨_, List.mem_append_right _ (List.mem_singleton_self _), _, _, _, _, rfl, rfl⟩
    · cases hmem
      refine ⟨hi₉.side.store hA₉.2 hA₉.1.2 _, fun _ _ => .modify fun _ => rfl, fun _ => ?_⟩
      obtain ⟨hcom, hreads⟩ := hA₉.1.1
      exact Runs.ret RefreshPost.kept ⟨_, _, _, r, now, hcom.mem _, hreads.1, ⟨hp₈.record, hexp⟩,
        .inl ⟨_, _, _, _, rfl, rfl, hreads.2⟩⟩

/-! ### The whole call -/

theorem exchangeRefreshTokenLocked_runs {time : Time} (hi : (serial d).Inv g)
    (hidle : Serial.Idle t n g) (hentry : g.mem.For ref tok.recordId)
    (hreading : (t, time) ∈ g.readings) :
    Runs d t (RefreshPost d clientId tok scopes t n)
      (exchangeRefreshTokenLocked d clientId tok scopes ref) {} g := by
  have kept : Kept d t (RefreshPost d clientId tok scopes t n) := RefreshPost.kept
  unfold exchangeRefreshTokenLocked
  refine Runs.withSession kept hi ?_
  have hst : (serial d).spec.Stable t [] fun g =>
      (Serial.Idle t n g ∧ g.mem.For ref tok.recordId) ∧ (t, time) ∈ g.readings :=
    ((Serial.Idle.stable n).and (stable_for ref tok.recordId)).and (Serial.stable_reading time)
  refine lockOauthFamily_runs hst ⟨⟨hidle, hentry⟩, hreading⟩ (fun l' g₁ hi₁ hA₁ hnone => ?_)
    fun b g₁ family hi₁ hA₁ hb hfamily => ?_
  · exact Runs.raise kept ⟨⟨time, hA₁.2, Serial.Sometime.now hA₁.1.1.started (.noFamily hnone)⟩,
      .inl hA₁.1.1⟩
  have hA₁' : Refreshing d t n tok ref g₁.base g₁.history time g₁ :=
    ⟨hA₁.1.1, .refl _ _, hA₁.1.2, hA₁.2⟩
  refine Spec.Safe.rejectIf (fun hrev => ?_) fun hopen => ?_
  · exact Runs.raise kept (hA₁'.refused (.revokedFamily family hfamily (by simpa using hrev)) _)
  have hlock : familyLock tok.familyId ∈ [familyLock tok.familyId] ++ [] := List.mem_cons_self
  refine Rel.selectKeyForUpdate_safe (fun _ => decide_eq_true_iff)
    ((Refreshing.stable hlock).and (Serial.stable_length b)) ⟨hA₁', hb⟩
    (fun l' g₂ hi₂ hA₂ hnone => ?_) fun b' g₂ r hi₂ hA₂ _ hr => ?_
  · exact Spec.Safe.now (kept.stable _ (.error _)) (hA₂.1.refused (.noRecord hnone) _)
      fun g₃ _ hA₃ => Runs.raise kept hA₃
  -- from here on the record is read as it will be when the transaction commits
  have hfound : Serial.Sometime n (fun db : Db => db.refreshTokens.get tok.recordId = some r) g₂ :=
    .now hA₂.1.idle.started hr
  have hA₂' : Refreshing d t n tok ref g₂.base g₂.history time g₂ :=
    ⟨hA₂.1.idle, .refl _ _, hA₂.1.entry, hA₂.1.reading⟩
  have hlock₂ : familyLock tok.familyId ∈
      [refreshTokens.exclusive tok.recordId] ++ ([familyLock tok.familyId] ++ []) :=
    List.mem_append_right _ hlock
  refine Spec.Safe.now (((Refreshing.stable hlock₂).and (Serial.stable_length b)).and
    (Serial.Sometime.stable n _)) ⟨⟨hA₂', hA₂.2⟩, hfound⟩ fun g₃ hi₃ hA₃ => ?_
  have hA₃' : Refreshing d t n tok ref g₂.base g₂.history g₃.clock (Spec.readState t g₃) :=
    ⟨hA₃.1.1.idle, hA₃.1.1.holds, hA₃.1.1.entry, Serial.mem_readState t g₃⟩
  have refused : ∀ e, (∀ db, RecordRefusal d clientId tok scopes g₃.clock db r) →
      RefreshPost d clientId tok scopes t n (.error e) (Spec.readState t g₃) := fun e hr =>
    ⟨⟨g₃.clock, Serial.mem_readState t g₃, hA₃.2.mono fun db hdb => .record r hdb (hr db)⟩,
      .inl hA₃.1.1.idle⟩
  refine Spec.Safe.require (fun h => absurd h (Option.some_ne_none r)) fun r' hr' => ?_
  obtain rfl := Option.some.inj hr'
  refine Spec.Safe.rejectIf (fun h => Runs.raise kept (refused _ fun _ => ?_)) fun h₁ => ?_
  · exact h.elim .family .expired
  refine Spec.Safe.rejectIf (fun h => Runs.raise kept (refused _ fun _ => .revoked h)) fun h₂ => ?_
  refine Spec.Safe.rejectIf (fun h => Runs.raise kept (refused _ fun _ => ?_)) fun h₃ => ?_
  · exact h.elim .resource .scopes
  rw [not_or, not_not, not_le] at h₁
  rw [not_not] at h₂
  rw [not_or, not_not, not_not] at h₃
  have hp : Presents g₂.base g₂.history tok.recordId r := by
    refine ⟨hr, h₂, family, ?_, by simpa using hopen⟩
    rw [← Shared.current, h₁.1, (Holds.same hA₂.1.holds hi₂).family]
    exact hfamily
  have hst₃ : (serial d).spec.Stable t
      ([refreshTokens.exclusive tok.recordId] ++ ([familyLock tok.familyId] ++ [])) fun g =>
      Refreshing d t n tok ref g₂.base g₂.history g₃.clock g ∧ b ≤ g.history.length :=
    (Refreshing.stable hlock₂).and (Serial.stable_length b)
  refine Spec.Safe.query hst₃ ⟨hA₃', hA₃.1.2⟩ fun g₄ row hi₄ hA₄ hrow => ?_
  have hp₄ := hA₄.1.holds.presents hi₄ h₁.1 hp
  refine Spec.Safe.require (fun hnone => Runs.raise kept ?_) fun client hclient => ?_
  · exact hA₄.1.refused (.record r hp₄.record (.noClient (hrow.trans hnone))) _
  refine Spec.Safe.rejectIf (fun h => Runs.raise kept ?_) fun h₄ => ?_
  · exact hA₄.1.refused (.record r hp₄.record (.client client (hrow.trans hclient) h)) _
  have hl : ∀ db, (((((({} : Session sorts).touch b).exec g₁.history.length
      [familyLock tok.familyId] []).touch b').exec g₂.history.length
      [refreshTokens.exclusive tok.recordId] []).touch g₄.history.length).view db = db :=
    fun db => rfl
  cases hrot : r.rotatedAt with
  | some rotatedAt =>
    dsimp only
    split
    · rename_i hgrace
      exact graceReplay_runs hl hlock₂ hA₄.1 hp h₁.1 h₁.2 ⟨rotatedAt, hrot, hgrace⟩
    · rename_i hlate
      refine lateReplay_runs hl hlock₂ hA₄.1 hp h₁.1 (hrot ▸ Option.some_ne_none rotatedAt) ?_
      rintro ⟨rotatedAt', hrot', hgrace⟩
      rw [hrot, Option.some.injEq] at hrot'
      exact hlate (hrot' ▸ hgrace)
  | none =>
    have hget := hrow.trans hclient
    have hclientId : client.id = r.clientId := Table.key_of_get hget
    exact rotate_runs hi₄ hl hlock₂ List.mem_cons_self (b := b) rfl hA₄.2 hA₄.1 hp h₁.1 hrot h₁.2
      h₃.2 hclientId (.now (Nat.zero_le _) (hclientId ▸ hget))

theorem exchangeRefreshToken_runs (hidle : Serial.Idle t n g) :
    Runs d t (RefreshPost d clientId tok scopes t n)
      (exchangeRefreshToken d clientId tok scopes) {} g := by
  have kept : Kept d t (RefreshPost d clientId tok scopes t n) := RefreshPost.kept
  unfold exchangeRefreshToken
  have hst : (serial d).spec.Stable t [] (Serial.Idle t n) := Serial.Idle.stable n
  refine Spec.Safe.now hst hidle fun g₁ hi₁ hA₁ => ?_
  have hst₁ := hst.and (Serial.stable_reading (M := serial d) (t := t) g₁.clock)
  refine Serial.access hst₁ ⟨hA₁, Serial.mem_readState t g₁⟩ fun g₂ hi₂ hA₂ ref m hm => ?_
  have hm' : g₂.mem.refreshRecoveryEntry tok.recordId g₁.clock = (ref, m) := Option.some.inj hm
  have hsound := hi₂.side.refreshRecoveryEntry tok.recordId g₁.clock
  have hfor := hi₂.side.for_refreshRecoveryEntry tok.recordId g₁.clock
  have hpersist := Memory.Persist.refreshRecoveryEntry (m := g₂.mem) tok.recordId g₁.clock
  rw [hm'] at hsound hfor hpersist
  refine ⟨hsound, fun _ _ => hpersist, fun hi₃ => ?_⟩
  have hst₂ := hst₁.and (stable_for (d := d) (t := t) ref tok.recordId)
  refine Serial.access hst₂ ⟨⟨⟨hA₂.1.started, hA₂.1.noCommit⟩, hA₂.2⟩, hfor⟩
    fun g₄ hi₄ hA₄ _ m' hm' => ?_
  rw [Memory.acquire_eq hm']
  refine ⟨hi₄.side.modify_of_token (fun _ => rfl) fun _ => rfl, fun _ _ => .modify fun _ => rfl,
    fun hi₅ => Spec.Safe.ensuring hi₅ ?_⟩
  refine Spec.Safe.mono (fun r l g hr => ?_) (exchangeRefreshTokenLocked_runs hi₅
    ⟨hA₄.1.1.started, hA₄.1.1.noCommit⟩
    (Memory.Persist.modify (f := fun e => { e with holder := some t }) (fun _ => rfl) _ _ hA₄.2)
    hA₄.1.2)
  -- the lock of the recovery entry is released in either case
  cases r with
  | ok pair =>
    refine Serial.access (kept.stable _ (.ok pair)) hr fun g₆ hi₆ hA₆ _ m hm => ?_
    cases hm
    exact ⟨hi₆.side.release _, fun _ _ => .release _, fun _ => Runs.ret kept (hA₆.mem _)⟩
  | error e =>
    refine Serial.access (kept.stable _ (.error e)) hr fun g₆ hi₆ hA₆ _ m hm => ?_
    cases hm
    exact ⟨hi₆.side.release _, fun _ _ => .release _, fun _ => Runs.raise kept (hA₆.mem _)⟩

end ForgejoMcp.OAuth
