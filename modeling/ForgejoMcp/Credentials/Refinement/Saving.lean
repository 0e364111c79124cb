import ForgejoMcp.Credentials.Refinement.Rules

/-!
# Saving and revoking a credential

A credential is saved for a user who was active under the name that Forgejo reported; and when it is
inserted, no other credential of the user is active but the one that is revoked.
-/

namespace ForgejoMcp.Credentials

open Transactions Rows
open Forgejo (strip)

-- a rule is applied by the form of its program, which is not run
attribute [local irreducible] Spec.Safe

variable {server : Server} {t : ℕ} {l : Session sorts} {g : Shared sorts} {α : Type}
  {held : List (RowLock Key)} {R : Except Raised α → Shared sorts → Prop} {A : Shared sorts → Prop}

/-! ### Verification -/

/-- The principal has the name that the user had, who was active. -/
def IsUser (server : Server) (userId : Uuid) (principal : VerifiedForgejoPrincipal)
    (g : Shared sorts) : Prop :=
  ∃ row, LoadedUser userId ⟨principal.readAt, row⟩ g ∧ row.status = .active ∧
    row.normalizedForgejoUsername = Users.normalizeUsername server.users principal.username

theorem IsUser.stable (userId : Uuid) (principal : VerifiedForgejoPrincipal) :
    (spec server).Stable t held (IsUser server userId principal) :=
  .exists fun row => (LoadedUser.stable userId ⟨principal.readAt, row⟩).and (.pure _)

/-- A fact that survives the requests that are not token requests, and recorded failures. -/
structure Survives (server : Server) (t : ℕ) (R : Except Raised α → Shared sorts → Prop)
    (A : Shared sorts → Prop) : Prop where
  raises : ∀ e g, (serial server).Inv g → A g → R (.error e) g
  ask : ∀ g q answer, Query.isToken q = false → A g → A (Spec.askState t q answer g)
  failed : ∀ e g l userId, A g → R (.error e) (Spec.commitState t (.verificationFailed userId) l g)

theorem Survives.and (hE : Survives server t R A) {B : Shared sorts → Prop}
    (hB : ∀ g q answer, B g → B (Spec.askState t q answer g)) :
    Survives server t R fun g => A g ∧ B g where
  raises := fun e g hi h => hE.raises e g hi h.1
  ask := fun g q answer hq h => ⟨hE.ask g q answer hq h.1, hB g q answer h.2⟩
  failed := fun e g l userId h => hE.failed e g l userId h.1

section

variable (hR : Kept server t R) (hst : (spec server).Stable t l.held A) (hA : A g)
  (hE : Survives server t R A)

include hR hst hA hE

theorem verificationFailure_runs (hl : Clean l) {β : Type} {userId : Uuid} {failure : Raised}
    {k : β → P α} : Runs server t R (verificationFailure userId failure >>= k) l g := by
  simp only [verificationFailure, Prog.bind_eq, Prog.bind_assoc]
  refine Serial.asking_commit hst hA fun g₁ hi₁ hA₁ => ⟨commits_of_step hi₁ rfl rfl ?_ ?_,
    fun _ => Runs.raise hR (hE.failed _ _ _ _ hA₁)⟩
  · exact hl _
  · exact fun _ hk => absurd hk List.not_mem_nil

/-- The user that Forgejo reports for a token. -/
theorem verifiedUser_runs (hl : Clean l) {baseUrl : String} {verifyTls : Bool}
    {token : AccessToken} {userId : Uuid} {k : ForgejoUser → P α}
    (h : ∀ g₁ user, (serial server).Inv g₁ → A g₁ → Runs server t R (k user) l g₁) :
    Runs server t R (verifiedUser baseUrl verifyTls token userId >>= k) l g := by
  refine ask_runs (q := ⟨baseUrl, verifyTls, .currentUser token, .verifies userId⟩) hst hA rfl
    (fun _ _ hc => by cases hc) (fun _ hc => by cases hc) fun g₁ answer hi₁ hA₁ => ?_
  have hA₂ := hE.ask g₁ ⟨baseUrl, verifyTls, .currentUser token, .verifies userId⟩ answer rfl hA₁
  cases hout : userOutcome answer with
  | ok user =>
    simp only [Prog.ret_bind, hout, fallible, Prog.pure_eq, Prog.ret_handle]
    exact h _ user hi₁ hA₂
  | error failure =>
    simp only [Prog.ret_bind, hout, fallible, Prog.throw_eq, Prog.raise_handle]
    cases failure with
    | validationFailed message => exact verificationFailure_runs hR hst hA₂ hE hl
    | _ => exact Runs.raise hR (hE.raises _ _ hi₁ hA₂)

theorem verify_runs (hi : (serial server).Inv g) (hl : Clean l) {loadedUser : Option (Loaded User)}
    {loadedInstance : Option ForgejoInstance} {userId : Uuid} {token : String} {oauth : Bool}
    (hloaded : ∀ g, A g → ∀ x, loadedUser = some x → LoadedUser userId x g)
    {k : VerifiedForgejoPrincipal → P α}
    (h : ∀ l' g₁ principal, Reads l l' → (serial server).Inv g₁ → A g₁ →
      IsUser server userId principal g₁ → Runs server t R (k principal) l' g₁) :
    Runs server t R (verify server loadedUser loadedInstance userId token oauth >>= k) l g := by
  simp only [verify, primary, Prog.bind_eq, Prog.bind_assoc]
  refine Spec.Safe.rejectIf (fun _ => Runs.raise hR (hE.raises _ _ hi hA)) fun _ => ?_
  refine getUser_runs hR hst hA hE.raises (fun db => by rw [hl]) hloaded
    fun g₁ user hi₁ hA₁ huser => ?_
  refine Spec.Safe.rejectIf (fun _ => Runs.raise hR (hE.raises _ _ hi₁ hA₁)) fun hactive => ?_
  have hid : user.row.id = userId := Table.key_of_get huser.holds
  have hst₁ := hst.and (LoadedUser.stable userId user)
  have hE₁ := hE.and (B := LoadedUser userId user) fun _ q answer h => h.ask q answer
  refine Rel.find_safe hst₁ ⟨hA₁, huser⟩ fun g₂ found hi₂ hA₂ _ => ?_
  refine Spec.Safe.require (fun _ => Runs.raise hR (hE.raises _ _ hi₂ hA₂.1)) fun inst _ => ?_
  refine Spec.Safe.rejectIf (fun _ => Runs.raise hR (hE.raises _ _ hi₂ hA₂.1)) fun _ => ?_
  refine Spec.Safe.rejectIf (fun _ => Runs.raise hR (hE.raises _ _ hi₂ hA₂.1)) fun _ => ?_
  refine verifiedUser_runs (l := (l.touch _).touch _) hR hst₁ hA₂ hE₁ hl
    fun g₃ principal hi₃ hA₃ => ?_
  split
  · exact verificationFailure_runs (l := (l.touch _).touch _) hR hst₁ hA₃ hE₁ hl
  · next hname =>
    refine Spec.Safe.query hst₁ hA₃ fun g₄ answer hi₄ hA₄ _ => ?_
    obtain ⟨n, current⟩ := answer
    simp only [Prog.ret_bind]
    split
    · exact verificationFailure_runs (l := ((l.touch _).touch _).touch _) hR hst₁ hA₄ hE₁ hl
    · refine h _ g₄ _ ((((Reads.refl l).touch _).touch _).touch _) hi₄ hA₄.1 ⟨user.row, hA₄.2, ?_, ?_⟩
      · simpa using hactive
      · simpa using Eq.symm (not_not.1 hname)

end

/-! ### Storing -/

/-- The session after the credential that was found active is revoked. -/
structure Revokes (l l' : Session sorts) (found : Option Uuid) (now : Time) : Prop where
  view : ∀ db, l'.view db = (l.view db).revokeFound found now
  held : ∀ x ∈ l.held, x ∈ l'.held
  locked : ∀ c, found = some c → ⟨.credential c, true⟩ ∈ l'.held

theorem Revokes.touch {l' : Session sorts} {found : Option Uuid} {now : Time}
    (h : Revokes l l' found now) (n : ℕ) : Revokes l (l'.touch n) found now :=
  ⟨h.view, h.held, h.locked⟩

theorem flushRevoked_runs (hi : (serial server).Inv g) (hst : (spec server).Stable t l.held A)
    (hA : A g) {current : Option ForgejoCredential} {now : Time} {k : Unit → P α}
    (h : ∀ l' g₁, Revokes l l' (current.map (·.id)) now → (serial server).Inv g₁ → A g₁ →
      Runs server t R (k ()) l' g₁) : Runs server t R (flushRevoked current now >>= k) l g := by
  cases current with
  | none => exact h l g ⟨fun _ => rfl, fun _ hx => hx, fun _ hc => by cases hc⟩ hi hA
  | some row =>
    refine Rel.updateKey_safe hst hA fun g₁ hi₁ hA₁ => h _ g₁ ⟨fun db => ?_, fun x hx => ?_,
      fun c hc => ?_⟩ hi₁ hA₁
    · rw [Session.exec_view]
      rfl
    · exact List.mem_append_right _ hx
    · rw [← Option.some.inj hc]
      exact List.mem_append_left _ (List.mem_singleton_self _)

/-- When a credential is inserted, no other one of the user is active but the revoked one. -/
theorem onlyActive_of_isEmpty {db : Db} {userId : Uuid} {replaced : Option Uuid} {now : Time}
    (h : ((db.revokeFound replaced now).forgejoCredentials.select
      (·.isActiveOf userId)).isEmpty = true) : db.OnlyActive userId replaced := by
  intro r hr huser hactive
  by_contra hne
  have hrev : r.revokeIf replaced now = r := if_neg hne
  have hmem := Table.mem_select.2 ⟨mem_revokeFound.2 ⟨r, hr, hrev⟩, show r.isActiveOf userId = true by
    simp [ForgejoCredential.isActiveOf, huser, hactive]⟩
  rw [List.isEmpty_iff.1 h] at hmem
  cases hmem

theorem store_runs (hR : Kept server t R) (hst : (spec server).Stable t l.held A) (hA : A g)
    (hE : ∀ e g, (serial server).Inv g → A g → R (.error e) g) {row : ForgejoCredential}
    {replaced : Option Uuid} {pair : Option ForgejoOAuthTokens} {readAt : ℕ} {now : Time}
    (hrevokes : Revokes {} l replaced now)
    (hunused : ∀ g, A g → (serial server).Unused t row.id g)
    (hsaves : ∀ g, (serial server).Inv g → A g → g.current.OnlyActive row.userId replaced →
      Saves server g.base g.history row replaced pair readAt)
    (hside : ∀ l g, (serial server).Inv g → A g →
      Side (g.history ++ [committed t (.credentialSaved row replaced pair readAt) l g]) g.asks)
    {k : ForgejoCredential → P α}
    (h : ∀ l g, let g' := Spec.commitState t (Label.credentialSaved row replaced pair readAt) l g
      A g → (serial server).Inv g' → Runs server t R (k row) {} g') :
    Runs server t R (store row replaced pair readAt >>= k) l g := by
  simp only [store, insertCredential, Prog.bind_eq, Prog.bind_assoc]
  refine Spec.Safe.exec hst hA fun g₁ hi₁ hA₁ => ?_
  split
  · next hfree =>
    obtain ⟨-, hempty⟩ := Bool.and_eq_true_iff.1 hfree
    rw [hrevokes.view] at hempty
    have honly : g₁.current.OnlyActive row.userId replaced := onlyActive_of_isEmpty hempty
    have hlock : (⟨.activeCredential row.userId, true⟩ : RowLock Key) ∈
        [forgejoCredentials.exclusive row.id, ⟨.activeCredential row.userId, true⟩] ++ l.held :=
      List.mem_append_left _ (List.mem_cons_of_mem _ (List.mem_singleton_self _))
    have hst₁ := (hst.append _).and (Serial.Stable.asking (W := requests server)
      (Serial.Held.stable (M := serial server) hlock g₁.base g₁.history))
    refine Serial.asking_commit hst₁ ⟨hA₁, .refl _ _⟩ fun g₂ hi₂ hA₂ =>
      ⟨⟨⟨now, ?_, hsaves g₂ hi₂ hA₂.1 ?_⟩, fun k hk => ?_, fun i hmem => ?_, ?_⟩,
        h _ g₂ hA₂.1⟩
    · refine Eq.trans (Session.exec_view _ _ _ _ _) ?_
      show (l.view g₂.current).addCredential row = _
      rw [hrevokes.view]
      rfl
    · exact honly.of_activeFrom (hA₂.2.related hi₂ (ActiveFrom row.userId) (.refl _)
        (fun _ _ _ => .trans) fun _ _ _ hs hno => hs.activeFrom_of_unlocked hno)
    · rcases List.mem_append.1 hk with hk | hk
      · refine List.mem_append_left _ ?_
        rcases List.mem_cons.1 hk with rfl | hk
        · exact List.mem_cons_self
        · rw [List.mem_singleton.1 hk]
          exact List.mem_cons_of_mem _ (List.mem_singleton_self _)
      · obtain ⟨c, hc, rfl⟩ := List.mem_map.1 hk
        exact List.mem_append_right _ (hrevokes.locked c (by simpa using hc))
    · rw [List.mem_singleton.1 hmem]
      exact (hunused g₂ hA₂.1).drawn
    · exact hside _ g₂ hi₂ hA₂.1
  · refine Spec.Safe.rollback (hst.append _) hA₁ fun g₂ hi₂ hA₂ => ?_
    exact Runs.raise hR (hE _ _ hi₂ hA₂)

/-! ### Saving -/

theorem Clean.revokes {l' : Session sorts} {found : Option Uuid} {now : Time} (hl : Clean l)
    (h : Revokes l l' found now) : Revokes {} l' found now :=
  ⟨fun db => by rw [h.view, hl]; rfl, fun _ hx => absurd hx List.not_mem_nil, h.locked⟩

theorem Seals.of_eq {ciphertext nonce : Option Forgejo.Bytes} {text text' : String}
    (h : Seals server ciphertext nonce text) (heq : text = text') :
    Seals server ciphertext nonce text' :=
  heq ▸ h

theorem seals_encrypt (c : Forgejo.CredentialCipher) (nonce : Forgejo.Bytes) (text : String)
    (userId : Uuid) (purpose : String) :
    Seals server (some (c.encrypt server.lib.aead nonce text userId purpose).ciphertext)
      (some (c.encrypt server.lib.aead nonce text userId purpose).nonce) text :=
  ⟨c.key, nonce, _, rfl, rfl⟩

/-- The thread has exchanged a code for the pair, and has stored no pair yet. -/
structure Granted (t : ℕ) (oauth : OAuthSave) (g : Shared sorts) : Prop where
  asked : ∃ (o : ℕ) (q : Query) (answer : Answer), g.asks[o]? = some (t, q, answer) ∧
    (answer.pair? = some oauth.tokens ∧ q.baseUrl = oauth.instanceUrl ∧
      (∃ r s, q.purpose = .links r s) ∧ ∃ code uri verifier,
        q.request = .token (.authorizationCode code uri verifier) oauth.configuration)
  unstored : ∀ e ∈ g.history, e.tid = some t → e.label.pair? = none

theorem Granted.stable (oauth : OAuthSave) : (spec server).Stable t held (Granted t oauth) := by
  have hasked : (spec server).Stable t held fun g => ∃ (o : ℕ) (q : Query) (answer : Answer),
      g.asks[o]? = some (t, q, answer) ∧ (answer.pair? = some oauth.tokens ∧
        q.baseUrl = oauth.instanceUrl ∧ (∃ r s, q.purpose = .links r s) ∧ ∃ code uri verifier,
          q.request = .token (.authorizationCode code uri verifier) oauth.configuration) :=
    .exists fun o => .exists fun q => .exists fun answer => (Serial.stable_asks o _).and (.pure _)
  have hown : (spec server).Stable t held fun g => ∀ e ∈ g.history, e.tid = some t →
      e.label.pair? = none :=
    Serial.Stable.asking (Serial.stable_own (M := serial server) fun e => e.label.pair? = none)
  exact (hasked.and hown).congr fun g => ⟨fun h => ⟨h.asked, h.unstored⟩, fun h => ⟨h.1, h.2⟩⟩

theorem Granted.ask {oauth : OAuthSave} (h : Granted t oauth g) (q : Query) (answer : Answer) :
    Granted t oauth (Spec.askState t q answer g) := by
  obtain ⟨o, q', answer', ho, hq'⟩ := h.asked
  refine ⟨⟨o, q', answer', ?_, hq'⟩, h.unstored⟩
  exact (List.getElem?_append_left (List.getElem?_eq_some_iff.1 ho).1).trans ho

/-- The pair is stored with the base URL and the client of the exchange. -/
theorem Granted.store {oauth : OAuthSave} (h : Granted t oauth g) (hi : (serial server).Inv g)
    {row : ForgejoCredential} {replaced : Option Uuid} {readAt : ℕ} {l : Session sorts}
    (hfresh : ∀ e ∈ g.history, row.id ∉ ids e.label)
    (hurl : row.oauthBaseUrl = some oauth.instanceUrl)
    (hclient : row.oauthClientId = some oauth.configuration.clientId) :
    Side (g.history ++ [committed t (.credentialSaved row replaced oauth.tokens readAt) l g])
      g.asks := by
  obtain ⟨o, q, answer, ho, hpair, hbase, ⟨r, s, hpurpose⟩, code, uri, verifier, hrequest⟩ := h.asked
  refine hi.side.store (c := row.id) rfl ho rfl hpair ?_ ?_ (fun e he ht => h.unstored e he ht) ?_
  · rw [Query.isToken, hrequest]
  · exact ⟨r, s, code, uri, verifier, oauth.configuration, hpurpose, hrequest,
      hbase ▸ hurl, hclient⟩
  · intro j q' hj hc
    obtain ⟨k, hk⟩ := hi.side.ordered j q' hj row.id hc
    obtain ⟨pair, cfg, hstored, -⟩ := hk.sends
    obtain ⟨e, he, hid⟩ := (hi.start.consistent_of_valid (hi.valid.take k)).stored row.id
      (hstored ▸ Option.some_ne_none pair)
    exact absurd hid (hfresh e (List.mem_of_mem_take he))

/-- What is known of a credential that is saved for a verified user. -/
theorem IsUser.saves {id userId : Uuid} {principal : VerifiedForgejoPrincipal}
    (hu : IsUser server userId principal g) (hid : (serial server).Unused t id g)
    {replaced : Option Uuid} (honly : g.current.OnlyActive userId replaced)
    {encrypted : Forgejo.EncryptedCredential} {oauth : Option OAuthColumns}
    {pair : Option ForgejoOAuthTokens} (hkind : oauth.isSome = pair.isSome)
    (hholds : ∀ p, pair = some p → HoldsPair server (newCredential id userId encrypted principal
      (Users.normalizeUsername server.users principal.username) oauth) p) :
    Saves server g.base g.history (newCredential id userId encrypted principal
      (Users.normalizeUsername server.users principal.username) oauth) replaced pair
      principal.readAt := by
  obtain ⟨row, hrow, hactive, hname⟩ := hu
  refine ⟨hid.unused, rfl, hrow.le, ⟨row, hrow.holds, hactive, hname⟩, honly, ?_, hholds⟩
  rw [← hkind]
  cases oauth with
  | none => exact iff_of_false (fun h => by cases h) (fun h => by cases h)
  | some _ => exact iff_of_true rfl rfl

theorem isSpace_eq_false {c : Char} (h : 32 < c.toNat ∧ c.toNat < 127) : Forgejo.isSpace c = false := by
  simp only [Forgejo.isSpace, Bool.or_eq_false_iff, Bool.and_eq_false_iff, decide_eq_false_iff_not,
    List.mem_cons, List.not_mem_nil, or_false, not_or]
  omega

/-- A token that can be stored has no blanks to strip. -/
theorem strip_token {token : String} (h : TokenField token) : strip token = token := by
  have hall : ∀ c ∈ token.toList, Forgejo.isSpace c = false := fun c hc =>
    isSpace_eq_false (by simpa using List.all_eq_true.1 h.2.2 c hc)
  have hdrop : ∀ cs : List Char, (∀ c ∈ cs, Forgejo.isSpace c = false) →
      cs.dropWhile Forgejo.isSpace = cs := by
    intro cs hcs
    cases cs with
    | nil => rfl
    | cons c cs => rw [List.dropWhile_cons, hcs c List.mem_cons_self]; rfl
  rw [strip, hdrop _ hall, hdrop _ fun c hc => hall c (List.mem_reverse.1 hc), List.reverse_reverse,
    String.ofList_toList]

section

variable (hR : Kept server t R) (hst : (spec server).Stable t l.held A) (hA : A g)
  (hE : ∀ e g, (serial server).Inv g → A g → R (.error e) g)

include hR hst hA hE

theorem recheck_runs (hl : Clean l) {oauth : OAuthSave} {loadedInstance : Option ForgejoInstance}
    {k : ForgejoInstance × Forgejo.ForgejoOAuthClientConfiguration → P α}
    (h : ∀ l' g₁ inst, Reads l l' → (serial server).Inv g₁ → A g₁ →
      inst.baseUrl = oauth.instanceUrl → Runs server t R (k (inst, oauth.configuration)) l' g₁) :
    Runs server t R (recheck server oauth loadedInstance >>= k) l g := by
  simp only [recheck, primary, Prog.bind_eq, Prog.bind_assoc]
  refine record_runs hst hA hl fun l' g₁ found hl' hi₁ hA₁ _ _ => ?_
  refine fallible_runs (fun _ _ => Runs.raise hR (hE _ _ hi₁ hA₁)) fun resolved _ => ?_
  refine Rel.find_safe (hl'.stable hst) hA₁ fun g₂ found hi₂ hA₂ _ => ?_
  refine refreshInstance_runs (l := l'.touch _) (hl'.stable hst) hA₂ hi₂ (hl'.clean hl)
    fun l'' g₃ inst hl'' hi₃ hA₃ _ => ?_
  refine Spec.Safe.require (fun _ => Runs.raise hR (hE _ _ hi₃ hA₃)) fun effective _ => ?_
  refine Spec.Safe.require (fun _ => Runs.raise hR (hE _ _ hi₃ hA₃)) fun inst _ => ?_
  refine Spec.Safe.rejectIf (fun _ => Runs.raise hR (hE _ _ hi₃ hA₃)) fun hsame => ?_
  obtain ⟨heffective, hurl⟩ := not_or.1 hsame
  rw [not_not.1 heffective]
  exact h l'' g₃ inst ((hl'.touch _).trans hl'') hi₃ hA₃ (not_not.1 hurl)

end

section

variable (hR : Kept server t R) (hst : (spec server).Stable t l.held A) (hA : A g)
  (hE : Survives server t R A) (hi : (serial server).Inv g) (hl : Clean l)
  {loadedUser : Option (Loaded User)} {userId : Uuid}
  (hloaded : ∀ g, A g → ∀ x, loadedUser = some x → LoadedUser userId x g)

include hR hst hA hE hi hl hloaded

/-- A personal access token is saved. -/
theorem savePat_runs {loadedInstance : Option ForgejoInstance} {token : String}
    {k : ForgejoCredential → P α}
    (h : ∀ l g row replaced readAt,
      let g' := Spec.commitState t (Label.credentialSaved row replaced none readAt) l g
      A g → (serial server).Inv g' → Runs server t R (k row) {} g') :
    Runs server t R (save server loadedUser loadedInstance userId token none >>= k) l g := by
  simp only [save, activeForUser, Prog.bind_eq, Prog.bind_assoc]
  refine verify_runs hR hst hA hE hi hl hloaded fun l₁ g₁ principal hl₁ hi₁ hA₁ huser => ?_
  have hst₁ := (hl₁.stable hst).and (IsUser.stable userId principal)
  refine fallible_runs (fun _ _ => Runs.raise hR (hE.raises _ _ hi₁ hA₁)) fun c _ => ?_
  refine encrypt_runs hst₁ ⟨hA₁, huser⟩ fun g₂ n hi₂ hA₂ => ?_
  refine Spec.Safe.now hst₁ hA₂ fun g₃ hi₃ hA₃ => ?_
  refine Spec.Safe.query hst₁ hA₃ fun g₄ answer hi₄ hA₄ _ => ?_
  obtain ⟨n', current⟩ := answer
  refine flushRevoked_runs (l := l₁.touch _) hi₄ hst₁ hA₄ fun l₂ g₅ hl₂ hi₅ hA₅ => ?_
  have hst₂ := hst₁.mono hl₂.held
  refine Spec.Safe.fresh hst₂ hA₅ fun g₆ hi₆ hi₆' hA₆ => ?_
  have hst₃ := hst₂.and (Serial.Stable.asking (W := requests server)
    (Serial.Unused.stable (M := serial server) (t := t) g₆.drawn.length))
  refine store_runs hR hst₃ ⟨hA₆, .draw hi₆⟩ (fun e g hi hA => hE.raises e g hi hA.1.1)
    (((hl₁.clean hl).touch _).revokes hl₂) (fun g hA => hA.2) (fun g hi hA honly => ?_)
    (fun l g hi _ => hi.side.commit rfl) fun l g hA hi' => h l g _ _ _ hA.1.1 hi'
  exact hA.1.2.saves hA.2 honly rfl fun p hp => by cases hp

/-- The pair of an exchanged code is saved. -/
theorem saveOauth_runs {loadedInstance : Option ForgejoInstance} {oauth : OAuthSave}
    (hgranted : ∀ g, A g → Granted t oauth g) {k : ForgejoCredential → P α}
    (h : ∀ l g row replaced readAt,
      let g' := Spec.commitState t (Label.credentialSaved row replaced oauth.tokens readAt) l g
      A g → (serial server).Inv g' → Runs server t R (k row) {} g') :
    Runs server t R (save server loadedUser loadedInstance userId oauth.tokens.accessToken oauth >>= k)
      l g := by
  simp only [save, activeForUser, oauthColumns, primary, Prog.bind_eq, Prog.bind_assoc]
  refine verify_runs hR hst hA hE hi hl hloaded fun l₁ g₁ principal hl₁ hi₁ hA₁ huser => ?_
  have hst₁ := (hl₁.stable hst).and (IsUser.stable userId principal)
  refine recheck_runs hR hst₁ ⟨hA₁, huser⟩ (fun e g hi hA => hE.raises e g hi hA.1) (hl₁.clean hl)
    fun l₂ g₂ inst hl₂ hi₂ hA₂ hurl => ?_
  have hst₂ := hl₂.stable hst₁
  refine fallible_runs (fun _ _ => Runs.raise hR (hE.raises _ _ hi₂ hA₂.1)) fun c _ => ?_
  refine encrypt_runs hst₂ hA₂ fun g₃ n hi₃ hA₃ => ?_
  refine Spec.Safe.now hst₂ hA₃ fun g₄ hi₄ hA₄ => ?_
  refine Spec.Safe.query hst₂ hA₄ fun g₅ answer hi₅ hA₅ _ => ?_
  obtain ⟨n', current⟩ := answer
  refine flushRevoked_runs (l := l₂.touch _) hi₅ hst₂ hA₅ fun l₃ g₆ hl₃ hi₆ hA₆ => ?_
  have hst₃ := hst₂.mono hl₃.held
  refine Rel.find_safe hst₃ hA₆ fun g₇ found hi₇ hA₇ _ => ?_
  refine Spec.Safe.require (fun _ => Runs.raise hR (hE.raises _ _ hi₇ hA₇.1)) fun inst' hinst => ?_
  obtain ⟨-, -, rfl⟩ := Option.map_eq_some_iff.1 hinst
  refine encrypt_runs (l := l₃.touch _) hst₃ hA₇ fun g₈ n₂ hi₈ hA₈ => ?_
  simp only [Prog.pure_eq, Prog.ret_bind]
  refine Spec.Safe.fresh (l := l₃.touch _) hst₃ hA₈ fun g₉ hi₉ hi₉' hA₉ => ?_
  have hst₄ := hst₃.and (Serial.Stable.asking (W := requests server)
    (Serial.Unused.stable (M := serial server) (t := t) g₉.drawn.length))
  have hrev := (((hl₂.clean (hl₁.clean hl)).touch _).revokes hl₃).touch g₇.history.length
  refine store_runs (l := l₃.touch _) hR hst₄ ⟨hA₉, .draw hi₉⟩
    (fun e g hi hA => hE.raises e g hi hA.1.1) hrev (fun g hA => hA.2) (fun g hi hA honly => ?_)
    (fun l g hi hA => ?_) fun l g hA hi' => h l g _ _ _ hA.1.1 hi'
  · refine hA.1.2.saves hA.2 honly rfl fun p hp => ?_
    obtain rfl := Option.some.inj hp
    exact ⟨(seals_encrypt c _ _ _ _).of_eq (strip_token oauth.tokens.access),
      seals_encrypt c _ _ _ _⟩
  · exact (hgranted g hA.1.1).store hi hA.2.unused (congrArg some hurl) rfl

end

/-! ### Revoking -/

/-- A program that sends no token request. -/
theorem NoToken.survives : Survives server t (Plain t : Except Raised α → Shared sorts → Prop)
    (NoToken t) :=
  ⟨fun _ _ _ h => h, fun _ _ answer hq h => h.ask hq answer, fun _ _ _ _ h => h⟩

/-- The users that a session has loaded. -/
def LoadedBy (userId : Uuid) (loaded : Option (Loaded User)) (g : Shared sorts) : Prop :=
  ∀ x, loaded = some x → LoadedUser userId x g

theorem LoadedBy.stable (userId : Uuid) (loaded : Option (Loaded User)) :
    (spec server).Stable t held (LoadedBy userId loaded) :=
  .forall fun x => .imp (LoadedUser.stable userId x)

theorem LoadedBy.ask {userId : Uuid} {loaded : Option (Loaded User)} (h : LoadedBy userId loaded g)
    (q : Query) (answer : Answer) : LoadedBy userId loaded (Spec.askState t q answer g) :=
  fun x hx => (h x hx).ask q answer

theorem revoke_runs (hl : Clean l) {loaded : Option (Loaded User)} {userId : Uuid}
    (hA : NoToken t g ∧ LoadedBy userId loaded g) {β : Type} {k : Unit → P β}
    (h : ∀ g, (serial server).Inv g → NoToken t g → Runs server t (Plain t) (k ()) {} g) :
    Runs server t (Plain t) (revoke loaded userId >>= k) l g := by
  simp only [revoke, activeForUser, Prog.bind_eq, Prog.bind_assoc]
  have hst := (NoToken.stable : (spec server).Stable t l.held (NoToken t)).and
    (LoadedBy.stable userId loaded)
  refine getUser_runs Plain.kept hst hA (fun _ _ _ h => h.1) (fun db => by rw [hl])
    (fun g h => h.2) fun g₁ user hi₁ hA₁ _ => ?_
  refine Spec.Safe.query hst hA₁ fun g₂ answer hi₂ hA₂ _ => ?_
  obtain ⟨n, current⟩ := answer
  refine Spec.Safe.require (fun _ => Plain.raises hA₂.1) fun current hcurrent => ?_
  refine Spec.Safe.now (l := (l.touch _).touch _) hst hA₂ fun g₃ hi₃ hA₃ => ?_
  refine flushRevoked_runs (l := (l.touch _).touch _) hi₃ hst hA₃ fun l₁ g₄ hl₁ hi₄ hA₄ => ?_
  refine Serial.asking_commit (hst.mono hl₁.held) hA₄ fun g₅ hi₅ hA₅ =>
    ⟨commits_of_step hi₅ rfl rfl ⟨g₃.clock, ?_⟩ fun k hk => ?_, fun hi' => h _ hi' hA₅.1⟩
  · exact (hl₁.view _).trans (congrArg (Db.revokeCredential · current.id g₃.clock) (hl _))
  · rw [List.mem_singleton.1 hk]
    exact hl₁.locked _ rfl

end ForgejoMcp.Credentials
