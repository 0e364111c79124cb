import ForgejoMcp.Transactions.Serial
import ForgejoMcp.Transactions.Soundness

/-!
# Requests to the outside service

`Requests` says of every request what holds of the shared state when a thread sends it, and which
rows the thread has locked meanwhile.  `Serial.asking` is the specification of a serial model in
which a thread also relies on the others sending no request about a row it has locked.  What holds
of a request when it is sent is a fact about every step of a verified system.
-/

namespace Transactions

variable {S : Sorts} {ε α β Call : Type}

/-- What is known of the requests of a system when they are sent. -/
structure Requests (S : Sorts) where
  Sends : ℕ → S.Query → Shared S → Prop
  rows : S.Query → List S.Key

/-- What the other threads may do to the requests: send one that is known, about rows that are not
locked. -/
structure Requests.Rely (W : Requests S) (held : List (RowLock S.Key)) (a b : Shared S) : Prop where
  sends : ∀ q ∈ b.asks.drop a.asks.length, W.Sends q.1 q.2.1 a
  unlocked : ∀ q ∈ b.asks.drop a.asks.length, ∀ x ∈ held, x.key ∉ W.rows q.2.1

theorem Requests.Rely.of_asks {W : Requests S} {held : List (RowLock S.Key)} {a b : Shared S}
    (h : b.asks = a.asks) : W.Rely held a b := by
  constructor <;> intro q hq <;> rw [h, List.drop_length] at hq <;> cases hq

namespace Serial

variable (M : Serial S) (W : Requests S)

/-- The specification of a serial model whose threads send known requests. -/
def asking : Spec S where
  Inv := M.Inv
  Rely := fun t held a b => M.Rely t held a b ∧ W.Rely held a b
  quiet_inv := fun h ha => Inv.quiet M h ha
  quiet_rely := fun h ha t held => ⟨M.spec.quiet_rely h ha t held, .of_asks h.asks⟩
  mono := fun hsub h => ⟨M.spec.mono hsub h.1, h.2.sends, fun q hq x hx => h.2.unlocked q hq x (hsub x hx)⟩

variable {M W} {t : ℕ} {held : List (RowLock S.Key)} {l : Session S} {g : Shared S}
  {Q : Except ε α → Session S → Shared S → Prop} {A : Shared S → Prop}

/-- What is stable for the serial model is stable. -/
theorem Stable.asking (h : M.spec.Stable t held A) : (M.asking W).Stable t held A :=
  Spec.Stable.refines h (fun _ hi => hi) fun _ _ _ _ hr => hr.1

/-! ### Facts about requests -/

/-- The request number `i`. -/
theorem stable_asks {P : Spec S} (i : ℕ) (q : ℕ × S.Query × S.Answer) :
    P.Stable t held fun g => g.asks[i]? = some q where
  interferes := fun a b hab ha => by
    obtain ⟨ext, hext, -⟩ := hab.base.asks
    rw [hext, List.getElem?_append_left (List.getElem?_eq_some_iff.1 ha).1, ha]
  quiet := fun a b hab _ ha => hab.asks ▸ ha

/-- What holds of every request of a thread stays true of them. -/
theorem stable_ownAsks {P : Spec S} (C : S.Query → S.Answer → Prop) :
    P.Stable t held fun g => ∀ q answer, (t, q, answer) ∈ g.asks → C q answer where
  interferes := fun a b hab ha q answer hq => by
    obtain ⟨ext, hext, hno⟩ := hab.base.asks
    rw [hext, List.mem_append] at hq
    exact hq.elim (ha q answer) fun hq => absurd rfl (hno _ hq)
  quiet := fun a b hab _ ha => hab.asks ▸ ha

/-- No request but the first `n` is about the row `k`. -/
structure Silent (W : Requests S) (k : S.Key) (n : ℕ) (g : Shared S) : Prop where
  le : n ≤ g.asks.length
  silent : ∀ q ∈ g.asks.drop n, k ∉ W.rows q.2.1

theorem Silent.stable {k : S.Key} {b : Bool} (hk : ⟨k, b⟩ ∈ held) (n : ℕ) :
    (M.asking W).Stable t held (Silent W k n) where
  interferes := fun a b hab ha => by
    obtain ⟨ext, hext, -⟩ := hab.base.asks
    refine ⟨?_, fun q hq => ?_⟩
    · rw [hext, List.length_append]
      exact Nat.le_trans ha.le (Nat.le_add_right _ _)
    · rw [hext, List.drop_append_of_le_length ha.le, List.mem_append] at hq
      refine hq.elim (ha.silent q) fun hq => hab.rely.2.unlocked q ?_ _ hk
      rwa [hext, List.drop_left]
  quiet := fun a b hab _ ha => ⟨hab.asks ▸ ha.le, hab.asks ▸ ha.silent⟩

theorem Silent.of_asks {k : S.Key} {g : Shared S} : Silent W k g.asks.length g :=
  ⟨Nat.le_refl _, fun q hq => by rw [List.drop_length] at hq; cases hq⟩

/-! ### Rules -/

/-- The rule for a request. -/
theorem asking_ask {q : S.Query} {k : S.Answer → Prog (Act S) ε α}
    (hst : (M.asking W).Stable t l.held A) (hA : A g)
    (h : ∀ g₁, M.Inv g₁ → A g₁ → W.Sends t q g₁ ∧ (∀ x ∈ W.rows q, ⟨x, true⟩ ∈ l.held) ∧
      ∀ answer, M.Side g₁.history (g₁.asks ++ [(t, q, answer)]) g₁.mem ∧
        (M.Inv (Spec.askState t q answer g₁) →
          (M.asking W).Safe t Q (k answer) l (Spec.askState t q answer g₁))) :
    (M.asking W).Safe t Q (Transactions.ask q >>= k) l g := by
  refine Spec.Safe.ask hst hA fun g₁ hi hA₁ answer => ?_
  obtain ⟨hsends, hrows, hanswer⟩ := h g₁ hi hA₁
  obtain ⟨hside, hsafe⟩ := hanswer answer
  have hinv : M.Inv (Spec.askState t q answer g₁) :=
    ⟨hi.start, hi.valid, hi.drawnBase, hi.drawnIds, hside⟩
  refine ⟨hinv, fun u _ held' hcompat => ⟨Rely.of_history M rfl (M.sideRely_refl u held' _), ?_, ?_⟩,
    hsafe hinv⟩
  · intro q' hq'
    rw [Spec.askState, List.drop_left, List.mem_singleton] at hq'
    rw [hq']
    exact hsends
  · intro q' hq' x hx hmem
    rw [Spec.askState, List.drop_left, List.mem_singleton] at hq'
    rw [hq'] at hmem
    exact hcompat x hx ⟨x.key, true⟩ (hrows _ hmem) ⟨rfl, .inr rfl⟩

/-- The rule for a commit. -/
theorem asking_commit {label : S.Label} {k : Unit → Prog (Act S) ε α}
    (hst : (M.asking W).Stable t l.held A) (hA : A g)
    (h : ∀ g₁, M.Inv g₁ → A g₁ → M.Commits t label l g₁ ∧
      (M.Inv (Spec.commitState t label l g₁) →
        (M.asking W).Safe t Q (k ()) {} (Spec.commitState t label l g₁))) :
    (M.asking W).Safe t Q (Transactions.commit label >>= k) l g := by
  refine Spec.Safe.commit hst hA fun g₁ hi hA₁ => ?_
  obtain ⟨hcommits, hsafe⟩ := h g₁ hi hA₁
  have hinv := hcommits.inv hi
  exact ⟨hinv, fun u hu held' hcompat => ⟨hcommits.guar u hu held' hcompat, .of_asks rfl⟩,
    hsafe hinv⟩

/-! ### Requests of a verified system -/

variable [DecidableEq S.Key] {sys : System S Call ε α} {Init : Shared S → Prop}
  {post : Call → ℕ → ℕ → Except ε α → Shared S → Prop} {c c' : Config S Call ε α}

/-- What is known of a request holds when it is sent. -/
theorem sends_of_step (hv : Spec.Verified (M.asking W) sys Init post) (hc : sys.Reachable Init c)
    (hs : sys.Step c c') {q : ℕ × S.Query × S.Answer}
    (hq : q ∈ c'.shared.asks.drop c.shared.asks.length) : W.Sends q.1 q.2.1 c.shared := by
  have hgood := hv.good hc
  have none_new : c'.shared.asks = c.shared.asks → False := fun h => by
    rw [h, List.drop_length] at hq
    cases hq
  obtain ⟨a, ha⟩ := hs
  cases a with
  | step t answer =>
    simp only [System.next] at ha
    split at ha
    · next call started β o k l ht =>
      split at ha
      · obtain ⟨⟨b, l', g'⟩, hrun, rfl⟩ := Option.map_eq_some_iff.1 ha
        obtain ⟨-, hguar, -⟩ :=
          hgood.safe t _ _ ht rfl c.shared .refl hgood.inv answer b l' g' hrun
        exact (hguar (t + 1) (Nat.succ_ne_self t) [] (Compatible.nil_left _)).2.sends q hq
      · cases ha
    · cases ha
  | kill t =>
    simp only [System.next] at ha
    split at ha
    · cases ha
      exact (none_new rfl).elim
    · cases ha
  | _ => cases ha; exact (none_new rfl).elim

end Serial

end Transactions
