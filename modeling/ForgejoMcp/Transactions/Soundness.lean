import ForgejoMcp.Transactions.RelyGuarantee
import Mathlib.Data.List.Basic

/-!
# Soundness of rely–guarantee proofs

`Verified` collects what has to be proved about a system: that the initial states satisfy the
invariant, that each call is safe when it starts, and that killing a thread and the writes of the
environment are tolerated.  `Verified.reachable` concludes that the invariant holds in every
reachable state and that the postcondition of every finished call holds from then on.
-/

namespace Transactions

variable {S : Sorts} {Call ε α : Type}

/-- The shared state after a write of the environment to the database. -/
def System.envState (sys : System S Call ε α) (e : sys.EnvDb) (g : Shared S) : Shared S :=
  { g with history := g.history ++
    [⟨none, sys.envLabel e, g.history.length, sys.envDb e g.current⟩] }

theorem Compatible.nil_left {K : Type} (bs : List (RowLock K)) : Compatible [] bs :=
  fun _ h => absurd h List.not_mem_nil

theorem Compatible.symm {K : Type} {as bs : List (RowLock K)} (h : Compatible as bs) :
    Compatible bs as :=
  fun b hb a ha hc => h a ha b hb ⟨hc.1.symm, hc.2.symm⟩

namespace Spec

/-- The proof obligations of a system. `post call n t r g` is what holds of the result `r` of a
call that thread `t` started after `n` commits. -/
structure Verified (P : Spec S) (sys : System S Call ε α) (Init : Shared S → Prop)
    (post : Call → ℕ → ℕ → Except ε α → Shared S → Prop) : Prop where
  init : ∀ g, Init g → P.Inv g ∧ ∀ t, Untouched t g
  body : ∀ call t g, P.Inv g → Untouched t g →
    P.Safe t (fun r _ g' => post call g.history.length t r g') (sys.body call) {} g
  kill : ∀ t g, P.Inv g → P.Inv { g with mem := sys.release t g.mem } ∧
    ∀ u, u ≠ t → ∀ held, P.Rely u held g { g with mem := sys.release t g.mem }
  envDb : ∀ e g, P.Inv g → P.Inv (sys.envState e g) ∧
    ∀ u held, P.Rely u held g (sys.envState e g)
  envMem : ∀ e g, P.Inv g → P.Inv { g with mem := sys.envMem e g.mem } ∧
    ∀ u held, P.Rely u held g { g with mem := sys.envMem e g.mem }

/-- The invariant of the whole system: every thread is safe from where it stands, and the locks
held by different threads are compatible. -/
structure Good (P : Spec S) (post : Call → ℕ → ℕ → Except ε α → Shared S → Prop)
    (c : Config S Call ε α) : Prop where
  inv : P.Inv c.shared
  untouched : ∀ t, c.threads.length ≤ t → Untouched t c.shared
  exclusive : ∀ (t u : ℕ) th th', c.threads[t]? = some th → c.threads[u]? = some th' → t ≠ u →
    Compatible th.session.held th'.session.held
  safe : ∀ (t : ℕ) th p, c.threads[t]? = some th → th.prog = some p →
    P.Safe t (fun r _ g => post th.call th.started t r g) p th.session c.shared

variable {P : Spec S} {sys : System S Call ε α} {Init : Shared S → Prop}
  {post : Call → ℕ → ℕ → Except ε α → Shared S → Prop} {c c' : Config S Call ε α}

/-- The system invariant survives a step that changes only the shared state. -/
theorem Good.share (hc : Good P post c) {g : Shared S} (hinv : P.Inv g)
    (hbase : ∀ t, Base t c.shared g) (hrely : ∀ t held, P.Rely t held c.shared g) :
    Good P post ⟨g, c.threads⟩ where
  inv := hinv
  untouched := fun t ht => (hc.untouched t ht).base (hbase t)
  exclusive := hc.exclusive
  safe := fun t th p ht hp => (hc.safe t th p ht hp).relies
    (.single ⟨hc.inv, hinv, hbase t, hrely t _⟩)

/-- The system invariant survives a step of one thread. -/
theorem Good.set (hc : Good P post c) {t : ℕ} {th th' : Thread S Call ε α} {g : Shared S}
    (ht : c.threads[t]? = some th) (hinv : P.Inv g) (hbase : ∀ u, u ≠ t → Base u c.shared g)
    (hguar : P.Guar t th.session.held c.shared g)
    (hexcl : ∀ (u : ℕ) thu, c.threads[u]? = some thu → u ≠ t →
      Compatible thu.session.held th'.session.held)
    (hsafe : ∀ p, th'.prog = some p →
      P.Safe t (fun r _ g => post th'.call th'.started t r g) p th'.session g) :
    Good P post ⟨g, c.threads.set t th'⟩ := by
  have hlt : t < c.threads.length := (List.getElem?_eq_some_iff.1 ht).1
  have hself : ∀ thu, (c.threads.set t th')[t]? = some thu → thu = th' := by
    intro thu hu
    rw [List.getElem?_set_self hlt, Option.some.injEq] at hu
    exact hu.symm
  have hother : ∀ (u : ℕ) thu, u ≠ t → (c.threads.set t th')[u]? = some thu →
      c.threads[u]? = some thu := by
    intro u thu hne hu
    rwa [List.getElem?_set_ne (Ne.symm hne)] at hu
  constructor
  · exact hinv
  · intro u hu
    rw [List.length_set] at hu
    exact (hc.untouched u hu).base (hbase u (by omega))
  · intro u v thu thv hu hv huv
    by_cases hut : u = t
    · subst hut
      rw [hself thu hu]
      exact (hexcl v thv (hother v thv huv.symm hv) huv.symm).symm
    · by_cases hvt : v = t
      · subst hvt
        rw [hself thv hv]
        exact hexcl u thu (hother u thu hut hu) hut
      · exact hc.exclusive u v thu thv (hother u thu hut hu) (hother v thv hvt hv) huv
  · intro u thu p hu hp
    by_cases hut : u = t
    · subst hut
      rw [hself thu hu] at hp ⊢
      exact hsafe p hp
    · have hu' := hother u thu hut hu
      exact (hc.safe u thu p hu' hp).relies (.single ⟨hc.inv, hinv, hbase u hut,
        hguar u hut _ (hc.exclusive u t thu th hu' ht hut)⟩)

theorem Good.start (hv : Verified P sys Init post) (hc : Good P post c) (call : Call) :
    Good P post ⟨c.shared, c.threads ++
      [⟨call, c.shared.history.length, some (sys.body call), {}⟩]⟩ := by
  have hnew : ∀ (t : ℕ) th, (c.threads ++ [⟨call, c.shared.history.length, some (sys.body call),
      {}⟩])[t]? = some th → c.threads[t]? = some th ∨ (t = c.threads.length ∧
        th = ⟨call, c.shared.history.length, some (sys.body call), {}⟩) := by
    intro t th ht
    by_cases hlt : t < c.threads.length
    · rw [List.getElem?_append_left hlt] at ht
      exact .inl ht
    · have hlen := (List.getElem?_eq_some_iff.1 ht).1
      rw [List.length_append, List.length_singleton] at hlen
      have htl : t = c.threads.length := by omega
      subst htl
      rw [List.getElem?_concat_length, Option.some.injEq] at ht
      exact .inr ⟨rfl, ht.symm⟩
  constructor
  · exact hc.inv
  · intro t ht
    rw [List.length_append, List.length_singleton] at ht
    exact hc.untouched t (by omega)
  · intro t u th th' ht hu htu
    rcases hnew t th ht with ht | ⟨rfl, rfl⟩
    · rcases hnew u th' hu with hu | ⟨rfl, rfl⟩
      · exact hc.exclusive t u th th' ht hu htu
      · exact (Compatible.nil_left _).symm
    · exact Compatible.nil_left _
  · intro t th p ht hp
    rcases hnew t th ht with ht | ⟨rfl, rfl⟩
    · exact hc.safe t th p ht hp
    · cases hp
      exact hv.body call _ _ hc.inv (hc.untouched _ (Nat.le_refl _))

variable [DecidableEq S.Key]

theorem Good.step (hv : Verified P sys Init post) (hc : Good P post c) (h : sys.Step c c') :
    Good P post c' := by
  obtain ⟨a, ha⟩ := h
  cases a with
  | start call => cases ha; exact hc.start hv call
  | step t answer =>
    simp only [System.next] at ha
    split at ha
    · rename_i call started β o k l ht
      split at ha
      · rename_i hgr
        obtain ⟨⟨b, l', g'⟩, hrun, rfl⟩ := Option.map_eq_some_iff.1 ha
        obtain ⟨hinv, hguar, hsafe⟩ :=
          hc.safe t _ _ ht rfl c.shared .refl hc.inv answer b l' g' hrun
        refine hc.set ht hinv (fun u hu => base_of_run hrun hu) hguar ?_ ?_
        · intro u thu hu hut x hx y hy
          rcases held_of_run hrun y hy with hy | hy
          · exact hc.exclusive u t thu _ hu ht hut x hx y hy
          · obtain ⟨hlt, rfl⟩ := List.getElem?_eq_some_iff.1 hu
            exact hgr u hlt hut x hx y hy
        · intro p hp
          cases hp
          exact hsafe
      · cases ha
    · cases ha
  | kill t =>
    simp only [System.next] at ha
    split at ha
    · rename_i call started β o k l ht
      cases ha
      obtain ⟨hinv, hrely⟩ := hv.kill t c.shared hc.inv
      exact hc.set ht hinv
        (fun u _ => ⟨rfl, ⟨[], by simp⟩, ⟨[], by simp⟩, ⟨[], by simp⟩, ⟨[], by simp⟩⟩)
        (fun u hu held' _ => hrely u hu held') (fun u thu _ _ => (Compatible.nil_left _).symm)
        (fun p hp => by cases hp)
    · cases ha
  | tick time =>
    cases ha
    have hq : Quiet c.shared { c.shared with clock := time } :=
      ⟨rfl, rfl, rfl, rfl, ⟨[], by simp⟩, ⟨[], by simp⟩⟩
    exact hc.share (P.quiet_inv hq hc.inv)
      (fun t => ⟨rfl, ⟨[], by simp⟩, ⟨[], by simp⟩, ⟨[], by simp⟩, ⟨[], by simp⟩⟩)
      (P.quiet_rely hq hc.inv)
  | envDb e =>
    cases ha
    obtain ⟨hinv, hrely⟩ := hv.envDb e c.shared hc.inv
    exact hc.share hinv
      (fun t => ⟨rfl, ⟨[_], rfl, by simp⟩, ⟨[], by simp⟩, ⟨[], by simp⟩, ⟨[], by simp⟩⟩) hrely
  | envMem e =>
    cases ha
    obtain ⟨hinv, hrely⟩ := hv.envMem e c.shared hc.inv
    exact hc.share hinv
      (fun t => ⟨rfl, ⟨[], by simp⟩, ⟨[], by simp⟩, ⟨[], by simp⟩, ⟨[], by simp⟩⟩) hrely

theorem Good.steps (hv : Verified P sys Init post) (hc : Good P post c) (h : sys.Steps c c') :
    Good P post c' := by
  induction h with
  | refl => exact hc
  | tail _ hs ih => exact ih.step hv hs

theorem Verified.good (hv : Verified P sys Init post) (h : sys.Reachable Init c) :
    Good P post c := by
  obtain ⟨g, hg, hs⟩ := h
  obtain ⟨hinv, hun⟩ := hv.init g hg
  exact Good.steps hv ⟨hinv, fun t _ => hun t, by simp, by simp⟩ hs

/-- The invariant holds in every reachable state. -/
theorem Verified.inv (hv : Verified P sys Init post) (h : sys.Reachable Init c) :
    P.Inv c.shared :=
  (hv.good h).inv

/-- The postcondition of a call that has returned holds in every state from then on. -/
theorem Verified.returned (hv : Verified P sys Init post) (h : sys.Reachable Init c) {t : ℕ}
    {th : Thread S Call ε α} {a : α} (ht : c.threads[t]? = some th)
    (hp : th.prog = some (.ret a)) : post th.call th.started t (.ok a) c.shared :=
  (hv.good h).safe t th _ ht hp _ .refl (hv.inv h)

/-- The postcondition of a call that has raised an error holds in every state from then on. -/
theorem Verified.raised (hv : Verified P sys Init post) (h : sys.Reachable Init c) {t : ℕ}
    {th : Thread S Call ε α} {e : ε} (ht : c.threads[t]? = some th)
    (hp : th.prog = some (.raise e)) : post th.call th.started t (.error e) c.shared :=
  (hv.good h).safe t th _ ht hp _ .refl (hv.inv h)

end Spec

end Transactions
