import ForgejoMcp.Credentials.Refinement.Administration
import ForgejoMcp.Credentials.Refinement.Tokens

/-!
# The credential system refines its serial model

Every call is safe for the rely–guarantee specification of the serial model with its requests.
Hence the commits of every run of the system form a valid history, every request was sent as it may
be, and the postcondition of every finished call holds.
-/

namespace ForgejoMcp.Credentials

open Transactions

-- a rule is applied by the form of its program, which is not run
attribute [local irreducible] Spec.Safe

variable {server : Server} {t : ℕ} {l : Session sorts} {g : Shared sorts}

/-! ### Postconditions -/

/-- The outcome of a callback, as a result, satisfies `Linked`. -/
def Completed (t : ℕ) (r : Except Raised Result) (g : Shared sorts) : Prop :=
  ∃ r', r = r'.map Result.outcome ∧ Linked t r' g

theorem Completed.kept : Kept server t (Completed t) :=
  fun _ => .exists fun r' => (Spec.Stable.pure _).and (Linked.kept r')

theorem Completed.runs {p : P Outcome} (hi : (serial server).Inv g)
    (h : Runs server t (Linked t) p l g) :
    Runs server t (Completed t) (p >>= fun outcome => pure (.outcome outcome)) l g := by
  refine Spec.Safe.bind hi (Spec.Safe.mono (fun r l g hr => ?_) h)
  cases r with
  | ok outcome => exact Spec.Safe.ret (Linked.kept.stable _ _) hr fun _ _ hA => ⟨.ok outcome, rfl, hA⟩
  | error e => exact Spec.Safe.raise (Linked.kept.stable _ _) hr fun _ _ hA => ⟨.error e, rfl, hA⟩

theorem Plain.ret {a : Result} (h : NoToken t g) : Runs server t (Plain t) (.ret a) l g :=
  Runs.ret Plain.kept h

variable (server)

/-- What holds of the result of a call that thread `t` started after `n` commits. -/
def post : Call → ℕ → ℕ → Except Raised Result → Shared sorts → Prop
  | .completeOauth .., _, t => Completed t
  | .accessToken userId, n, t | .connection userId, n, t => Handed server userId n t
  | _, _, t => Plain t

variable {server}

/-! ### The proof obligations -/

theorem Init.inv (h : Init g) : (serial server).Inv g where
  start := h.start
  valid := h.history ▸ .nil
  drawnBase := fun _ hi => hi.elim
  drawnIds := fun e he => by rw [h.history] at he; cases he
  side := by
    show Side g.history g.asks
    rw [h.history, h.asks]
    exact Side.empty

theorem Init.untouched (h : Init g) (t : ℕ) : Spec.Untouched t g where
  history := by rw [h.history]; exact fun _ he => absurd he List.not_mem_nil
  drawn := by rw [h.drawn]; exact List.not_mem_nil
  readings := by rw [h.readings]; exact fun _ hr => absurd hr List.not_mem_nil
  asks := by rw [h.asks]; exact fun _ hq => absurd hq List.not_mem_nil

/-- A program in the session of a user, who is loaded with it. -/
theorem userProgram_runs (hno : NoToken t g) {sessionToken : String}
    {k : CurrentSession × Uuid → P Result}
    (h : ∀ l g b current userId, Clean l → l.began = some b → (serial server).Inv g →
      b ≤ g.history.length → NoToken t g ∧ LoadedBy userId current.user g →
      Runs server t (Plain t) (k (current, userId)) l g) :
    Runs server t (Plain t) (userSession server sessionToken >>= k) {} g :=
  userSession_runs Plain.kept NoToken.stable hno (fun _ _ _ h => h)
    fun l' g₁ b current userId hl' hbegan hi₁ hno₁ hb hloaded =>
      h l' g₁ b current userId (hl'.clean .empty) hbegan hi₁ hb ⟨hno₁, hloaded⟩

theorem body_runs (call : Call) (hi : (serial server).Inv g) (hu : Spec.Untouched t g) :
    Runs server t (post server call g.history.length t) (body server call) {} g := by
  have hno : NoToken t g := fun q answer hmem => absurd rfl (hu.asks _ hmem)
  have hunsaved : Unsaved t g := fun e he ht => absurd ht (hu.history e he)
  have hsurvives : ∀ {userId loaded}, Survives server t (Plain t : Except Raised Result →
      Shared sorts → Prop) fun g => NoToken t g ∧ LoadedBy userId loaded g :=
    NoToken.survives.and fun _ q answer h => h.ask q answer
  have hstable : ∀ {held userId loaded}, (spec server).Stable t held fun g =>
      NoToken t g ∧ LoadedBy userId loaded g := NoToken.stable.and (LoadedBy.stable _ _)
  cases call with
  | startOauth =>
    refine Runs.withSession Plain.kept hi (userProgram_runs hno ?_)
    intro l g b current userId hl hbegan hi hb hA
    exact start_runs hl hbegan ⟨hA.1, hb⟩ fun _ _ _ h => Plain.ret h
  | completeOauth =>
    refine Runs.withSession Completed.kept hi (Completed.runs hi ?_)
    exact completeForgejoOauth_runs hi ⟨hno, hunsaved⟩
  | accessToken =>
    refine Runs.withSession Handed.kept hi (accessToken_runs .empty ⟨hno, Nat.le_refl _⟩ ?_)
    intro g inst token _ hsettled hholds
    exact Runs.ret Handed.kept ⟨hsettled, fun _ _ h => by cases h; exact hholds⟩
  | connection =>
    refine Runs.withSession Handed.kept hi (connection_runs .empty ⟨hno, Nat.le_refl _⟩ ?_ ?_)
    · intro l g inst token _ hsettled
      exact Runs.ret Handed.kept ⟨hsettled, fun _ _ h => by cases h⟩
    · intro g inst token _ hsettled hholds
      exact Runs.ret Handed.kept ⟨hsettled, fun _ _ h => by cases h; exact hholds⟩
  | saveCredential =>
    refine Runs.withSession Plain.kept hi (userProgram_runs hno ?_)
    intro l g b current userId hl _ hi _ hA
    refine savePat_runs Plain.kept hstable hA hsurvives hi hl (fun _ h => h.2) ?_
    intro l g row replaced readAt _ hA _
    exact Plain.ret hA.1
  | testCredential =>
    refine Runs.withSession Plain.kept hi (userProgram_runs hno ?_)
    intro l g b current userId hl _ hi _ hA
    refine verify_runs Plain.kept hstable hA hsurvives hi hl (fun _ h => h.2) ?_
    intro l g principal _ _ hA _
    exact Plain.ret hA.1
  | revokeCredential =>
    refine Runs.withSession Plain.kept hi (userProgram_runs hno ?_)
    intro l g b current userId hl _ _ _ hA
    exact revoke_runs hl hA fun _ _ h => Plain.ret h
  | adminRevoke =>
    refine Runs.withSession Plain.kept hi (revoke_runs .empty ⟨hno, ?_⟩ fun _ _ h => Plain.ret h)
    exact fun _ hx => by cases hx
  | updateUser =>
    exact Runs.withSession Plain.kept hi (updateUser_runs .empty hno fun _ _ h => Plain.ret h)
  | disableUser =>
    exact Runs.withSession Plain.kept hi (disableUser_runs .empty hno fun _ _ h => Plain.ret h)
  | enableUser =>
    exact Runs.withSession Plain.kept hi (enableUser_runs .empty hno fun _ _ h => Plain.ret h)
  | configureInstance =>
    exact Runs.withSession Plain.kept hi (configure_runs .empty hno fun _ _ h => Plain.ret h)
  | saveConfiguration =>
    exact Runs.withSession Plain.kept hi (saveConfiguration_runs .empty hno fun _ _ h => Plain.ret h)

/-- The credential system refines its serial model. -/
theorem verified (server : Server) :
    (spec server).Verified (system server) Init (post server) where
  init := fun _ h => ⟨h.inv, h.untouched⟩
  body := fun call _ _ hi hu => body_runs call hi hu
  kill := fun _ g hi => ⟨hi, fun _ _ _ => ⟨Serial.Rely.of_history _ rfl trivial, .of_asks rfl⟩⟩
  envDb := fun e g hi => by
    refine ⟨⟨hi.start, hi.valid.snoc ⟨e, rfl⟩, hi.drawnBase, fun e' he' i hmem => ?_,
      hi.side.commit rfl⟩, fun u held => ⟨⟨fun e' he' x _ hmem => ?_, trivial⟩, .of_asks rfl⟩⟩
    · rcases List.mem_append.1 he' with he' | he'
      · exact hi.drawnIds e' he' i hmem
      · rw [List.mem_singleton.1 he'] at hmem
        cases hmem
    · simp only [System.envState, List.drop_left, List.mem_singleton] at he'
      rw [he'] at hmem
      cases hmem
  envMem := fun _ g hi => ⟨hi, fun _ _ => ⟨Serial.Rely.of_history _ rfl trivial, .of_asks rfl⟩⟩

/-! ### Reachable states -/

section

variable {c c' : Config sorts Call Raised Result}

theorem reachable_inv (hc : Reachable server c) : (serial server).Inv c.shared :=
  (verified server).inv hc

/-- In every committed state of a run a user has at most one active credential, a credential that is
not active has no secrets, and an active OAuth credential holds the pair that was stored last. -/
theorem reachable_consistent (hc : Reachable server c) (n : ℕ) :
    Consistent server (c.shared.history.take n) (c.shared.stateAt n) :=
  let hi := reachable_inv hc
  hi.start.consistent_of_valid (hi.valid.take n)

/-- A refresh token is sent to the base URL of the active credential that it is stored with. -/
theorem refresh_sent (hc : Reachable server c) (hs : (system server).Step c c') {t : ℕ} {q : Query}
    {answer : Answer} (hq : (t, q, answer) ∈ c'.shared.asks.drop c.shared.asks.length)
    {credential : Uuid} (hpurpose : q.purpose = .refreshes credential) :
    SendsRefresh server q credential c.shared :=
  (Serial.sends_of_step (verified server) hc hs hq).1 credential hpurpose

/-- A call that has ended has committed every pair that Forgejo returned to its refresh, unless
Forgejo has not confirmed the identity of the user; an access token that it returned is one of the
user for the instance. -/
theorem connection_handed (hc : Reachable server c) {t : ℕ} {th : Thread sorts Call Raised Result}
    (ht : c.threads[t]? = some th) {userId : Uuid}
    (hcall : th.call = .accessToken userId ∨ th.call = .connection userId)
    {r : Except Raised Result} (hend : (∃ a, r = .ok a ∧ th.prog = some (.ret a)) ∨
      ∃ e, r = .error e ∧ th.prog = some (.raise e)) :
    Handed server userId th.started t r c.shared := by
  have hpost : ∀ r, post server th.call th.started t r c.shared →
      Handed server userId th.started t r c.shared := by
    intro r hr
    rcases hcall with hcall | hcall <;> rw [hcall] at hr <;> exact hr
  rcases hend with ⟨a, rfl, hend⟩ | ⟨e, rfl, hend⟩
  · exact hpost _ ((verified server).returned hc ht hend)
  · exact hpost _ ((verified server).raised hc ht hend)

end

end ForgejoMcp.Credentials
