import ForgejoMcp.OAuth.Refinement.Bearer
import ForgejoMcp.OAuth.Refinement.Consent
import ForgejoMcp.OAuth.Refinement.Permissions
import ForgejoMcp.OAuth.Refinement.Refresh
import ForgejoMcp.OAuth.Refinement.Tokens

/-!
# The OAuth system refines its serial model

Every service call is safe for the rely–guarantee specification of the serial model.  Hence the
commits of every run of the system form a valid history, and the postcondition of every finished
call holds.
-/

namespace ForgejoMcp.OAuth

open Transactions

variable {d : Deployment} {t : ℕ} {l : Session sorts} {g : Shared sorts}

/-! ### Postconditions -/

section

variable {α β : Type} {R : Except Failure α → Shared sorts → Prop}

/-- The result of a program, wrapped by `f`, satisfies `R`. -/
def Wrapped (f : α → β) (R : Except Failure α → Shared sorts → Prop) (r : Except Failure β)
    (g : Shared sorts) : Prop :=
  ∃ r', r = r'.map f ∧ R r' g

theorem Wrapped.kept {f : α → β} (hR : Kept d t R) : Kept d t (Wrapped f R) :=
  fun _ => .exists fun r' => (Spec.Stable.pure _).and (hR r')

theorem Runs.wrapped {p : P α} {f : α → β} (hi : (serial d).Inv g) (hR : Kept d t R)
    (h : Runs d t R p l g) : Runs d t (Wrapped f R) (p >>= fun a => pure (f a)) l g := by
  refine Spec.Safe.bind hi (Spec.Safe.mono (fun r l g hr => ?_) h)
  cases r with
  | ok a =>
    exact Spec.Safe.ret (hR.stable _ _) hr fun _ _ hA => ⟨.ok a, rfl, hA⟩
  | error e =>
    exact Spec.Safe.raise (hR.stable _ _) hr fun _ _ hA => ⟨.error e, rfl, hA⟩

theorem Runs.done {p : P α} {f : α → P β} (hf : ∀ a, ∃ b, f a = .ret b) (hi : (serial d).Inv g)
    (h : Runs d t Done p l g) : Runs d t Done (p >>= f) l g := by
  refine Spec.Safe.bind hi (Spec.Safe.mono (fun r l g _ => ?_) h)
  cases r with
  | ok a =>
    obtain ⟨b, hb⟩ := hf a
    dsimp only
    rw [hb]
    exact Done.ret
  | error e => exact Done.raise

end

variable (d)

/-- What holds of the result of a call that thread `t` started after `n` commits. -/
def post : Call → ℕ → ℕ → Except Failure Result → Shared sorts → Prop
  | .resolveConsent interaction _ approve grantTtlDays toolNames, n, t =>
      Wrapped Result.redirect (Answered d interaction approve grantTtlDays toolNames t n)
  | .exchangeAuthorizationCode _ code, n, t => Wrapped Result.token (Exchanged d code t n)
  | .exchangeRefreshToken clientId token scopes, n, t =>
      Wrapped Result.token (RefreshPost d clientId token scopes t n)
  | .loadRefreshToken _ plaintext, n, _ => Wrapped Result.refreshToken (Found n (Loads d plaintext))
  | .loadAccessToken plaintext, n, t => Wrapped Result.accessToken (LoadedToken d plaintext t n)
  | .authenticate plaintext resource issuer, n, t =>
      Wrapped Result.authenticated (Authenticated d plaintext resource issuer t n)
  | _, _, _ => Done

variable {d}

/-! ### The proof obligations -/

theorem Init.inv (h : Init d g) : (serial d).Inv g where
  start := h.start
  valid := h.history ▸ .nil
  drawnBase := by
    intro i hi
    rw [List.getElem?_eq_getElem (h.uses i hi), h.drawn _ (List.getElem_mem _)]
  drawnIds := fun e he => by rw [h.history] at he; cases he
  side := by
    rw [h.mem]
    exact Memory.sound_empty

theorem Init.untouched (h : Init d g) (t : ℕ) : Spec.Untouched t g where
  history := by rw [h.history]; exact fun _ he => absurd he List.not_mem_nil
  drawn := fun ht => by cases h.drawn _ ht
  readings := by rw [h.readings]; exact fun _ hr => absurd hr List.not_mem_nil
  asks := by rw [h.asks]; exact fun _ hq => absurd hq List.not_mem_nil

theorem body_runs (call : Call) (hi : (serial d).Inv g) (hu : Spec.Untouched t g) :
    Runs d t (post d call g.history.length t) (body d call) {} g := by
  have hidle : Serial.Idle t g.history.length g := ⟨Nat.le_refl _, fun e he ht => hu.history e he ht⟩
  have ends : ∀ {α : Type} {f : α → Result} (a : α), ∃ b, (pure (f a) : P Result) = .ret b :=
    fun a => ⟨_, rfl⟩
  cases call with
  | resolveConsent => exact Runs.wrapped hi Answered.kept (resolveConsent_runs hidle)
  | loadAuthorizationCode => exact Runs.done ends hi (loadAuthorizationCode_runs hi)
  | exchangeAuthorizationCode =>
    exact Runs.wrapped hi Exchanged.kept (exchangeAuthorizationCode_runs hi hidle)
  | loadRefreshToken =>
    exact Runs.wrapped hi Found.kept (loadRefreshToken_runs hi (Nat.le_refl _))
  | exchangeRefreshToken =>
    exact Runs.wrapped hi RefreshPost.kept (exchangeRefreshToken_runs hidle)
  | loadAccessToken =>
    exact Runs.wrapped hi LoadedToken.kept (loadAccessToken_runs hi (Nat.le_refl _))
  | revokeToken => exact Runs.done (fun _ => ⟨_, rfl⟩) hi revokeToken_runs
  | authenticate => exact Runs.wrapped hi Authenticated.kept (authenticate_runs hi hidle)
  | createMcpToken => exact Runs.done (fun _ => ⟨_, rfl⟩) hi (createMcpToken_runs hi)
  | revokeForUser => exact Runs.done (fun _ => ⟨_, rfl⟩) hi (revokeForUser_runs hi)
  | revokeAsAdmin => exact Runs.done (fun _ => ⟨_, rfl⟩) hi (revokeAsAdmin_runs hi)
  | setGlobalEnabled => exact Runs.done (fun _ => ⟨_, rfl⟩) hi (setGlobalEnabled_runs hi)
  | replaceUserAllowances => exact Runs.done ends hi (replaceUserAllowances_runs hi)
  | replaceTokenGrants => exact Runs.done ends hi (replaceTokenGrants_runs hi)

/-- The OAuth system refines its serial model. -/
theorem verified (d : Deployment) :
    (serial d).spec.Verified (system d) (Init d) (post d) where
  init := fun _ h => ⟨h.inv, h.untouched⟩
  body := fun call _ _ hi hu => body_runs call hi hu
  kill := fun t g hi => by
    refine ⟨⟨hi.start, hi.valid, hi.drawnBase, hi.drawnIds, hi.side.releaseAll t⟩, fun u _ held => ?_⟩
    exact Serial.Rely.of_history _ rfl (Memory.Persist.releaseAll t)
  envDb := fun e g hi => by
    refine ⟨⟨hi.start, hi.valid.snoc ⟨e, rfl⟩, hi.drawnBase, fun e' he' i hmem => ?_,
      hi.side.append _⟩, fun u held => ⟨fun e' he' x _ hmem => ?_, .refl _⟩⟩
    · rcases List.mem_append.1 he' with he' | he'
      · exact hi.drawnIds e' he' i hmem
      · rw [List.mem_singleton.1 he'] at hmem
        cases hmem
    · simp only [System.envState, List.drop_left, List.mem_singleton] at he'
      rw [he'] at hmem
      cases hmem
  envMem := fun id g hi => by
    refine ⟨⟨hi.start, hi.valid, hi.drawnBase, hi.drawnIds, hi.side.evict id⟩, fun u held => ?_⟩
    exact Serial.Rely.of_history _ rfl fun _ _ h => h

end ForgejoMcp.OAuth
