import ForgejoMcp.Transactions.Soundness
import ForgejoMcp.Transactions.Sql

/-!
# Completing a run

A program that does not wait for the memory can be run to its end, with any answers of the outside
service, when no other thread is in its way; and the other threads can be killed.  So what would go
wrong at the end of a call goes wrong in some run, whatever the call is waiting for now.
-/

namespace Transactions

variable {S : Sorts} {κ ρ : Type} {key : ρ → κ} {ε α β Call : Type}

/-! ### Programs that do not wait -/

/-- No action of the program waits for the memory. -/
def Prog.NeverWaits : Prog (Act S) ε α → Prop
  | .ret _ => True
  | .raise _ => True
  | .act o k => (∀ t answer l g, o.run t answer l g ≠ none) ∧ ∀ b, (k b).NeverWaits

namespace Prog.NeverWaits

theorem bind {p : Prog (Act S) ε β} {f : β → Prog (Act S) ε α} (hp : p.NeverWaits)
    (hf : ∀ b, (f b).NeverWaits) : (p.bind f).NeverWaits := by
  induction p with
  | ret b => exact hf b
  | raise e => trivial
  | act o k ih => exact ⟨hp.1, fun b => ih b (hp.2 b)⟩

theorem handle {p : Prog (Act S) ε α} {f : ε → Prog (Act S) ε α} (hp : p.NeverWaits)
    (hf : ∀ e, (f e).NeverWaits) : (p.handle f).NeverWaits := by
  induction p with
  | ret b => trivial
  | raise e => exact hf e
  | act o k ih => exact ⟨hp.1, fun b => ih b (hp.2 b)⟩

theorem ensuring {p : Prog (Act S) ε α} {last : Prog (Act S) ε Unit} (hp : p.NeverWaits)
    (hlast : last.NeverWaits) : (p.ensuring last).NeverWaits := by
  induction p with
  | ret b => exact hlast.bind fun _ => trivial
  | raise e => exact hlast.bind fun _ => trivial
  | act o k ih => exact ⟨hp.1, fun b => ih b (hp.2 b)⟩

end Prog.NeverWaits

/-- `Prog.NeverWaits`, found by instance search. -/
class Prompt (p : Prog (Act S) ε α) : Prop where
  neverWaits : p.NeverWaits

namespace Prompt

instance ret (a : α) : Prompt (.ret a : Prog (Act S) ε α) := ⟨trivial⟩

instance pure (a : α) : Prompt (pure a : Prog (Act S) ε α) := ⟨trivial⟩

instance raise (e : ε) : Prompt (.raise e : Prog (Act S) ε α) := ⟨trivial⟩

instance throw (e : ε) : Prompt (throw e : Prog (Act S) ε α) := ⟨trivial⟩

instance query (f : ℕ → S.DB → β) : Prompt (Transactions.query f : Prog (Act S) ε β) :=
  ⟨fun _ _ _ _ h => (nomatch h), fun _ => trivial⟩

instance exec (locks : List (RowLock S.Key)) (f : S.DB → β × List (S.DB → S.DB)) :
    Prompt (Transactions.exec locks f : Prog (Act S) ε β) :=
  ⟨fun _ _ _ _ h => (nomatch h), fun _ => trivial⟩

instance commit (label : S.Label) : Prompt (Transactions.commit label : Prog (Act S) ε Unit) :=
  ⟨fun _ _ _ _ h => (nomatch h), fun _ => trivial⟩

instance rollback : Prompt (Transactions.rollback : Prog (Act S) ε Unit) :=
  ⟨fun _ _ _ _ h => (nomatch h), fun _ => trivial⟩

instance now : Prompt (Transactions.now : Prog (Act S) ε ℤ) :=
  ⟨fun _ _ _ _ h => (nomatch h), fun _ => trivial⟩

instance fresh : Prompt (Transactions.fresh : Prog (Act S) ε ℕ) :=
  ⟨fun _ _ _ _ h => (nomatch h), fun _ => trivial⟩

instance ask (q : S.Query) : Prompt (Transactions.ask q : Prog (Act S) ε S.Answer) :=
  ⟨fun _ _ _ _ h => (nomatch h), fun _ => trivial⟩

instance bind (p : Prog (Act S) ε β) (f : β → Prog (Act S) ε α) [hp : Prompt p]
    [hf : ∀ b, Prompt (f b)] : Prompt (p >>= f) :=
  ⟨hp.neverWaits.bind fun b => (hf b).neverWaits⟩

instance handle (p : Prog (Act S) ε α) (f : ε → Prog (Act S) ε α) [hp : Prompt p]
    [hf : ∀ e, Prompt (f e)] : Prompt (tryCatch p f) :=
  ⟨hp.neverWaits.handle fun e => (hf e).neverWaits⟩

instance ensuring (p : Prog (Act S) ε α) (last : Prog (Act S) ε Unit) [hp : Prompt p]
    [hlast : Prompt last] : Prompt (p.ensuring last) :=
  ⟨hp.neverWaits.ensuring hlast.neverWaits⟩

instance withSession (p : Prog (Act S) ε α) [Prompt p] : Prompt (withSession p) :=
  inferInstanceAs (Prompt (p.ensuring Transactions.rollback))

instance ite (c : Prop) [Decidable c] (p q : Prog (Act S) ε α) [Prompt p] [Prompt q] :
    Prompt (if c then p else q) := by
  split <;> assumption

instance rejectIf (c : Prop) [Decidable c] (e : ε) :
    Prompt (Prog.rejectIf c e : Prog (Act S) ε Unit) :=
  inferInstanceAs (Prompt (if c then .raise e else .ret ()))

instance require (x : Option β) (e : ε) : Prompt (Prog.require x e : Prog (Act S) ε β) := by
  cases x
  · exact raise e
  · exact ret _

section

variable [DecidableEq κ] (R : Rel S κ ρ key) (p : ρ → Bool)

instance select : Prompt (R.select p : Prog (Act S) ε (List ρ)) := query _

instance find (k : κ) : Prompt (R.find k : Prog (Act S) ε (Option ρ)) := query _

instance selectForUpdate : Prompt (R.selectForUpdate p : Prog (Act S) ε (Option ρ)) := by
  have hrow : ∀ row : Option ρ, Prompt (match row with
      | none => Pure.pure none
      | some row => Transactions.exec [R.exclusive (key row)] fun db =>
          (((R.get db).get (key row)).filter p, []) : Prog (Act S) ε (Option ρ)) := by
    rintro (_ | row)
    · exact pure none
    · exact exec _ _
  exact bind _ _

instance selectForShare : Prompt (R.selectForShare p : Prog (Act S) ε (Option ρ)) := by
  have hrow : ∀ row : Option ρ, Prompt (match row with
      | none => Pure.pure none
      | some row => Transactions.exec [R.shared (key row)] fun db =>
          (((R.get db).get (key row)).filter p, []) : Prog (Act S) ε (Option ρ)) := by
    rintro (_ | row)
    · exact pure none
    · exact exec _ _
  exact bind _ _

instance update (f : Assign key) : Prompt (R.update p f : Prog (Act S) ε (List κ)) :=
  bind _ _

instance updateKey (k : κ) (f : Assign key) :
    Prompt (R.updateKey k f : Prog (Act S) ε Unit) := exec _ _

instance deleteReturning : Prompt (R.deleteReturning p : Prog (Act S) ε (List κ)) :=
  bind _ _

instance insert (rows : List ρ) (e : ε) : Prompt (R.insert rows e : Prog (Act S) ε Unit) :=
  bind _ _

end

end Prompt

/-! ### Sessions that end -/

/-- The program has returned or raised. -/
def Prog.Ended : Prog (Act S) ε α → Prop
  | .act _ _ => False
  | _ => True

/-- The thread runs inside a session, and its session is empty once it has ended. -/
def Thread.InSession (th : Thread S Call ε α) : Prop :=
  (∃ p, th.prog = some (withSession p)) ∨ th.session = {} ∧ ∀ p, th.prog = some p → p.Ended

/-- An action of a thread inside a session. -/
theorem Thread.InSession.step {call : Call} {started : ℕ} {o : Act S β}
    {k : β → Prog (Act S) ε α} {l l' : Session S}
    (h : InSession ⟨call, started, some (.act o k), l⟩) {t : ℕ} {answer : S.Answer} {b : β}
    {g g' : Shared S} (hrun : o.run t answer l g = some (b, l', g')) :
    InSession ⟨call, started, some (k b), l'⟩ := by
  rcases h with ⟨p, hp⟩ | ⟨-, hend⟩
  · cases p with
    | ret a =>
      cases hp
      cases hrun
      exact .inr ⟨rfl, fun p hp => by cases hp; trivial⟩
    | raise e =>
      cases hp
      cases hrun
      exact .inr ⟨rfl, fun p hp => by cases hp; trivial⟩
    | act o k => cases hp; exact .inl ⟨k b, rfl⟩
  · exact (hend _ rfl).elim

theorem Thread.InSession.killed (call : Call) (started : ℕ) :
    InSession (⟨call, started, none, {}⟩ : Thread S Call ε α) :=
  .inr ⟨rfl, fun _ h => (nomatch h)⟩

section

variable [DecidableEq S.Key] {sys : System S Call ε α} {Init : Shared S → Prop}
  {c c' : Config S Call ε α}

/-- A thread after a step: one from before, a new call, one that has acted, or one that was killed. -/
theorem System.Step.mem_threads (hs : sys.Step c c') {th : Thread S Call ε α}
    (hth : th ∈ c'.threads) : th ∈ c.threads ∨ (∃ call n, th = ⟨call, n, some (sys.body call), {}⟩) ∨
      (∃ call started, ∃ (γ : Type) (o : Act S γ) (k : γ → Prog (Act S) ε α), ∃ l t answer b l' g',
        ⟨call, started, some (.act o k), l⟩ ∈ c.threads ∧
          o.run t answer l c.shared = some (b, l', g') ∧ th = ⟨call, started, some (k b), l'⟩) ∨
      ∃ call started, th = ⟨call, started, none, {}⟩ := by
  obtain ⟨a, ha⟩ := hs
  cases a with
  | start call =>
    cases ha
    rcases List.mem_append.1 hth with hth | hth
    · exact .inl hth
    · exact .inr (.inl ⟨call, _, List.mem_singleton.1 hth⟩)
  | step t answer =>
    simp only [System.next] at ha
    split at ha
    · next call started β o k l ht =>
      split at ha
      · obtain ⟨⟨b, l', g'⟩, hrun, rfl⟩ := Option.map_eq_some_iff.1 ha
        rcases List.mem_or_eq_of_mem_set hth with hth | rfl
        · exact .inl hth
        · exact .inr (.inr (.inl ⟨call, started, β, o, k, l, t, answer, b, l', g',
            List.mem_of_getElem? ht, hrun, rfl⟩))
      · cases ha
    · cases ha
  | kill t =>
    simp only [System.next] at ha
    split at ha
    · cases ha
      rcases List.mem_or_eq_of_mem_set hth with hth | rfl
      · exact .inl hth
      · exact .inr (.inr (.inr ⟨_, _, rfl⟩))
    · cases ha
  | _ => cases ha; exact .inl hth

/-- Every thread of a system in which each call opens a session is inside one. -/
theorem System.Reachable.inSession (hsys : ∀ call, ∃ p, sys.body call = withSession p)
    (hc : sys.Reachable Init c) : ∀ th ∈ c.threads, th.InSession := by
  obtain ⟨g, -, hs⟩ := hc
  induction hs with
  | refl => exact fun _ h => absurd h List.not_mem_nil
  | tail _ hstep ih =>
    intro th hth
    rcases hstep.mem_threads hth with hth | ⟨call, n, rfl⟩ |
      ⟨call, started, γ, o, k, l, t, answer, b, l', g', hmem, hrun, rfl⟩ | ⟨call, started, rfl⟩
    · exact ih th hth
    · obtain ⟨p, hp⟩ := hsys call
      exact .inl ⟨p, congrArg some hp⟩
    · exact (ih _ hmem).step hrun
    · exact .killed call started

/-- What is left of the programs of a system whose calls do not wait does not wait. -/
theorem System.Reachable.neverWaits (hsys : ∀ call, (sys.body call).NeverWaits)
    (hc : sys.Reachable Init c) :
    ∀ th ∈ c.threads, ∀ p, th.prog = some p → p.NeverWaits := by
  obtain ⟨g, -, hs⟩ := hc
  induction hs with
  | refl => exact fun _ h => absurd h List.not_mem_nil
  | tail _ hstep ih =>
    intro th hth p hp
    rcases hstep.mem_threads hth with hth | ⟨call, n, rfl⟩ |
      ⟨call, started, γ, o, k, l, t, answer, b, l', g', hmem, -, rfl⟩ | ⟨call, started, rfl⟩
    · exact ih th hth p hp
    · exact Option.some.inj hp ▸ hsys call
    · exact Option.some.inj hp ▸ (ih _ hmem _ rfl).2 b
    · cases hp

/-! ### Killing the other threads -/

/-- The threads of a configuration, but for `t`, hold no locks. -/
def Config.Alone (c : Config S Call ε α) (t : ℕ) : Prop :=
  ∀ (u : ℕ) th, u ≠ t → c.threads[u]? = some th → th.session.held = []

/-- A thread in a session is made to hold no locks. -/
theorem System.exists_freed (sys : System S Call ε α) {u : ℕ}
    (hin : ∀ th ∈ c.threads, th.InSession) :
    ∃ c', sys.Steps c c' ∧ (∀ th ∈ c'.threads, th.InSession) ∧
      c'.shared.asks = c.shared.asks ∧ (∀ v, v ≠ u → c'.threads[v]? = c.threads[v]?) ∧
      ∀ th, c'.threads[u]? = some th → th.session.held = [] := by
  have stays : (∀ th, c.threads[u]? = some th → th.session.held = []) → ∃ c', sys.Steps c c' ∧
      (∀ th ∈ c'.threads, th.InSession) ∧ c'.shared.asks = c.shared.asks ∧
      (∀ v, v ≠ u → c'.threads[v]? = c.threads[v]?) ∧
      ∀ th, c'.threads[u]? = some th → th.session.held = [] :=
    fun h => ⟨c, .refl, hin, rfl, fun _ _ => rfl, h⟩
  cases hu : c.threads[u]? with
  | none => exact stays fun th hth => (nomatch hu.symm.trans hth)
  | some th =>
    have hth := hin th (List.mem_of_getElem? hu)
    rcases hin th (List.mem_of_getElem? hu) with ⟨p, hp⟩ | ⟨hempty, -⟩
    · obtain ⟨γ, o, k, hact⟩ : ∃ (γ : Type) (o : Act S γ) (k : γ → Prog (Act S) ε α),
          withSession p = .act o k := by
        cases p with
        | act o k => exact ⟨_, _, _, rfl⟩
        | _ => exact ⟨_, _, _, rfl⟩
      obtain ⟨call, started, prog, l⟩ := th
      cases hp
      rw [hact] at hu
      have hnext : sys.next (.kill u) c = some ⟨{ c.shared with mem := sys.release u c.shared.mem },
          c.threads.set u ⟨call, started, none, {}⟩⟩ := by
        simp only [System.next, hu]
      have hlt : u < c.threads.length := (List.getElem?_eq_some_iff.1 hu).1
      refine ⟨_, .single ⟨_, hnext⟩, fun th' hth' => ?_, rfl, fun v hv => ?_, fun th' hth' => ?_⟩
      · rcases List.mem_or_eq_of_mem_set hth' with hth' | rfl
        · exact hin th' hth'
        · exact .killed _ _
      · exact List.getElem?_set_ne (Ne.symm hv)
      · rw [List.getElem?_set_self hlt] at hth'
        rw [← Option.some.inj hth']
    · exact stays fun th' hth' => by rw [← Option.some.inj (hu.symm.trans hth'), hempty]

/-- The other threads can be killed. -/
theorem System.exists_alone (sys : System S Call ε α) (t : ℕ)
    (hin : ∀ th ∈ c.threads, th.InSession) :
    ∃ c', sys.Steps c c' ∧ c'.shared.asks = c.shared.asks ∧ c'.threads[t]? = c.threads[t]? ∧
      c'.Alone t := by
  -- free the threads before `n`, and then all of them
  have upto : ∀ n, ∃ c', sys.Steps c c' ∧ (∀ th ∈ c'.threads, th.InSession) ∧
      c'.shared.asks = c.shared.asks ∧ c'.threads[t]? = c.threads[t]? ∧
      (∀ u, n ≤ u → c'.threads[u]? = c.threads[u]?) ∧
      ∀ (u : ℕ) th, u < n → u ≠ t → c'.threads[u]? = some th → th.session.held = [] := by
    intro n
    induction n with
    | zero => exact ⟨c, .refl, hin, rfl, rfl, fun _ _ => rfl, fun _ _ h => absurd h (Nat.not_lt_zero _)⟩
    | succ n ih =>
      obtain ⟨c₁, hs₁, hin₁, hasks₁, ht₁, hrest₁, hfree₁⟩ := ih
      by_cases hnt : n = t
      · refine ⟨c₁, hs₁, hin₁, hasks₁, ht₁, fun u hu => hrest₁ u (by omega), fun u th hu hut => ?_⟩
        exact hfree₁ u th (by omega) hut
      · obtain ⟨c₂, hs₂, hin₂, hasks₂, hother, hfreed⟩ := sys.exists_freed (u := n) hin₁
        refine ⟨c₂, hs₁.trans hs₂, hin₂, hasks₂.trans hasks₁, (hother t (Ne.symm hnt)).trans ht₁,
          fun u hu => (hother u (by omega)).trans (hrest₁ u (by omega)), fun u th hu hut hth => ?_⟩
        by_cases hun : u = n
        · exact hfreed th (hun ▸ hth)
        · exact hfree₁ u th (by omega) hut ((hother u hun).symm.trans hth)
  obtain ⟨c', hs, -, hasks, ht, hrest, hfree⟩ := upto c.threads.length
  refine ⟨c', hs, hasks, ht, fun u th hut hth => ?_⟩
  by_cases hu : u < c.threads.length
  · exact hfree u th hu hut hth
  · rw [hrest u (by omega), List.getElem?_eq_none (by omega)] at hth
    cases hth

/-! ### Running a thread to its end -/

/-- What a thread has asked, of a service that answers with `answers`. -/
def AskedBy (t : ℕ) (answers : S.Query → S.Answer) (ext : List (ℕ × S.Query × S.Answer)) : Prop :=
  ∀ q ∈ ext, q.1 = t ∧ q.2.2 = answers q.2.1

/-- A thread that is alone can be run to its end. -/
theorem Config.Alone.exists_ended [Inhabited S.Answer] (sys : System S Call ε α) (answers : S.Query → S.Answer)
    {t : ℕ} {call : Call} {started : ℕ} {p : Prog (Act S) ε α} {l : Session S} (halone : c.Alone t)
    (hp : p.NeverWaits) (ht : c.threads[t]? = some ⟨call, started, some p, l⟩) :
    ∃ c' p' l' ext, sys.Steps c c' ∧ c'.threads[t]? = some ⟨call, started, some p', l'⟩ ∧
      p'.Ended ∧ c'.shared.asks = c.shared.asks ++ ext ∧ AskedBy t answers ext := by
  induction p generalizing l c with
  | ret a =>
    exact ⟨c, .ret a, l, [], .refl, ht, trivial, (List.append_nil _).symm,
      fun _ h => absurd h List.not_mem_nil⟩
  | raise e =>
    exact ⟨c, .raise e, l, [], .refl, ht, trivial, (List.append_nil _).symm,
      fun _ h => absurd h List.not_mem_nil⟩
  | @act γ o k ih =>
    obtain ⟨hrun, hk⟩ := hp
    -- the service gives its answer to the question, if there is one
    obtain ⟨answer, b, l₁, g₁, hstep, ext₁, hasks₁, hext₁⟩ : ∃ answer b l₁ g₁,
        o.run t answer l c.shared = some (b, l₁, g₁) ∧ ∃ ext₁, g₁.asks = c.shared.asks ++ ext₁ ∧
          AskedBy t answers ext₁ := by
      have quiet : ∀ {g₁ : Shared S}, g₁.asks = c.shared.asks → ∃ ext₁,
          g₁.asks = c.shared.asks ++ ext₁ ∧ AskedBy t answers ext₁ :=
        fun h => ⟨[], by rw [h, List.append_nil], fun _ h => absurd h List.not_mem_nil⟩
      cases o with
      | ask q =>
        refine ⟨answers q, _, _, _, rfl, [(t, q, answers q)], rfl, fun q' hq' => ?_⟩
        rw [List.mem_singleton.1 hq']
        exact ⟨rfl, rfl⟩
      | mem f =>
        cases hf : (Act.mem f).run t default l c.shared with
        | none => exact absurd hf (hrun t default l c.shared)
        | some out =>
          obtain ⟨value, -, hout⟩ := Option.map_eq_some_iff.1 hf
          exact ⟨default, _, _, _, hf, quiet (hout ▸ rfl)⟩
      | _ => exact ⟨default, _, _, _, rfl, quiet rfl⟩
    have hlt : t < c.threads.length := (List.getElem?_eq_some_iff.1 ht).1
    have hgrants : c.Grants t o.locks := by
      intro u hu hut
      rw [halone u _ hut (List.getElem?_eq_getElem hu)]
      exact fun _ hx => absurd hx List.not_mem_nil
    have hnext : sys.next (.step t answer) c =
        some ⟨g₁, c.threads.set t ⟨call, started, some (k b), l₁⟩⟩ := by
      simp only [System.next, ht, if_pos hgrants, hstep, Option.map_some]
    have halone₁ : Config.Alone ⟨g₁, c.threads.set t ⟨call, started, some (k b), l₁⟩⟩ t :=
      fun u th hut hth => halone u th hut (by rwa [List.getElem?_set_ne (Ne.symm hut)] at hth)
    obtain ⟨c', p', l', ext, hsteps, ht', hended, hasks, hext⟩ :=
      ih b halone₁ (hk b) (List.getElem?_set_self hlt)
    refine ⟨c', p', l', ext₁ ++ ext, .head ⟨_, hnext⟩ hsteps, ht', hended, ?_, fun q hq => ?_⟩
    · rw [hasks, hasks₁, List.append_assoc]
    · exact (List.mem_append.1 hq).elim (hext₁ q) (hext q)

/-- Every thread that has not been killed can be run to its end, whatever the service answers. -/
theorem System.exists_ended [Inhabited S.Answer] (sys : System S Call ε α) (answers : S.Query → S.Answer)
    (hin : ∀ th ∈ c.threads, th.InSession) {t : ℕ} {th : Thread S Call ε α}
    (ht : c.threads[t]? = some th) {p : Prog (Act S) ε α} (hprog : th.prog = some p)
    (hp : p.NeverWaits) :
    ∃ c' th' p' ext, sys.Steps c c' ∧ c'.threads[t]? = some th' ∧ th'.call = th.call ∧
      th'.prog = some p' ∧ p'.Ended ∧ c'.shared.asks = c.shared.asks ++ ext ∧
      AskedBy t answers ext := by
  obtain ⟨c₁, hs₁, hasks₁, ht₁, halone⟩ := sys.exists_alone t hin
  obtain ⟨call, started, prog, l⟩ := th
  obtain rfl : prog = some p := hprog
  obtain ⟨c', p', l', ext, hs, ht', hended, hasks, hext⟩ :=
    halone.exists_ended sys answers hp (ht₁.trans ht)
  exact ⟨c', _, p', ext, hs₁.trans hs, ht', rfl, rfl, hended, hasks₁ ▸ hasks, hext⟩

end

end Transactions
