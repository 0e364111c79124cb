import ForgejoMcp.Transactions.System

/-!
# Rely–guarantee reasoning

A specification `P` gives an invariant of the shared state and, for a thread that holds certain row
locks, the changes it tolerates from the others (`Rely`).  `P.Safe t Q p l g` says that thread `t`
with session `l` can run `p` from the shared state `g`, under any interference it tolerates, so
that each of its actions keeps the invariant and is tolerated by every thread whose locks do not
conflict with its own, and so that `Q` holds of the result and stays true.  The rules for the
actions carry a `Stable` fact, one that neither interference nor the thread's own quiet actions
change.
-/

namespace Transactions

variable {S : Sorts} {Call ε α β : Type}

/-- What every thread may take for granted about the actions of the others: they only add to the
history and to the logs, and what they add is not attributed to the thread. -/
structure Base (t : ℕ) (a b : Shared S) : Prop where
  base : b.base = a.base
  history : ∃ ext, b.history = a.history ++ ext ∧ ∀ e ∈ ext, e.tid ≠ some t
  drawn : ∃ ext, b.drawn = a.drawn ++ ext ∧ some t ∉ ext
  readings : ∃ ext, b.readings = a.readings ++ ext ∧ ∀ r ∈ ext, r.1 ≠ t
  asks : ∃ ext, b.asks = a.asks ++ ext ∧ ∀ q ∈ ext, q.1 ≠ t

theorem Base.refl (t : ℕ) (a : Shared S) : Base t a a :=
  ⟨rfl, ⟨[], by simp⟩, ⟨[], by simp⟩, ⟨[], by simp⟩, ⟨[], by simp⟩⟩

/-- The history, the memory and the questions asked are unchanged, and the logs only grow. -/
structure Quiet (a b : Shared S) : Prop where
  base : b.base = a.base
  history : b.history = a.history
  mem : b.mem = a.mem
  asks : b.asks = a.asks
  drawn : ∃ ext, b.drawn = a.drawn ++ ext
  readings : ∃ ext, b.readings = a.readings ++ ext

theorem Quiet.refl (a : Shared S) : Quiet a a :=
  ⟨rfl, rfl, rfl, rfl, ⟨[], by simp⟩, ⟨[], by simp⟩⟩

theorem Quiet.current {a b : Shared S} (h : Quiet a b) : b.current = a.current := by
  simp only [Shared.current, h.base, h.history]

/-- An invariant of the shared state and the interference a thread with given locks tolerates. -/
structure Spec (S : Sorts) where
  Inv : Shared S → Prop
  Rely : ℕ → List (RowLock S.Key) → Shared S → Shared S → Prop
  quiet_inv : ∀ {a b}, Quiet a b → Inv a → Inv b
  quiet_rely : ∀ {a b}, Quiet a b → Inv a → ∀ t held, Rely t held a b
  mono : ∀ {t held held' a b}, (∀ k ∈ held, k ∈ held') → Rely t held' a b → Rely t held a b

namespace Spec

variable (P : Spec S)

/-- One step of another thread, as tolerated by `t`. -/
structure Interferes (t : ℕ) (held : List (RowLock S.Key)) (a b : Shared S) : Prop where
  inv : P.Inv a
  inv' : P.Inv b
  base : Base t a b
  rely : P.Rely t held a b

/-- Any number of steps of other threads. -/
def Relies (t : ℕ) (held : List (RowLock S.Key)) : Shared S → Shared S → Prop :=
  Relation.ReflTransGen (P.Interferes t held)

/-- What an action of `t` must respect: every thread with compatible locks tolerates it. -/
def Guar (t : ℕ) (held : List (RowLock S.Key)) (a b : Shared S) : Prop :=
  ∀ u, u ≠ t → ∀ held', Compatible held' held → P.Rely u held' a b

/-- A fact that neither the other threads nor quiet actions of the thread change. -/
structure Stable (t : ℕ) (held : List (RowLock S.Key)) (A : Shared S → Prop) : Prop where
  interferes : ∀ a b, P.Interferes t held a b → A a → A b
  quiet : ∀ a b, Quiet a b → P.Inv a → A a → A b

/-- Thread `t` can run the program under interference, with a postcondition that stays true. -/
def Safe (t : ℕ) (Q : Except ε α → Session S → Shared S → Prop) :
    Prog (Act S) ε α → Session S → Shared S → Prop
  | .ret a, l, g => ∀ g₁, P.Relies t l.held g g₁ → P.Inv g₁ → Q (.ok a) l g₁
  | .raise e, l, g => ∀ g₁, P.Relies t l.held g g₁ → P.Inv g₁ → Q (.error e) l g₁
  | .act o k, l, g => ∀ g₁, P.Relies t l.held g g₁ → P.Inv g₁ →
      ∀ answer b l' g₂, o.run t answer l g₁ = some (b, l', g₂) →
        P.Inv g₂ ∧ P.Guar t l.held g₁ g₂ ∧ Safe t Q (k b) l' g₂

variable {P} {t : ℕ} {held : List (RowLock S.Key)} {l : Session S} {g : Shared S}
  {Q : Except ε α → Session S → Shared S → Prop} {A B : Shared S → Prop}

/-! ### Stable facts -/

theorem Stable.relies (hA : P.Stable t held A) {a b : Shared S} (h : P.Relies t held a b)
    (ha : A a) : A b := by
  induction h with
  | refl => exact ha
  | tail _ hbc ih => exact hA.interferes _ _ hbc ih

theorem Stable.mono {held' : List (RowLock S.Key)} (hA : P.Stable t held A)
    (h : ∀ k ∈ held, k ∈ held') : P.Stable t held' A where
  interferes := fun a b hab => hA.interferes a b ⟨hab.inv, hab.inv', hab.base, P.mono h hab.rely⟩
  quiet := hA.quiet

theorem Stable.append (hA : P.Stable t held A) (locks : List (RowLock S.Key)) :
    P.Stable t (locks ++ held) A :=
  hA.mono fun _ h => List.mem_append_right _ h

theorem Stable.and (hA : P.Stable t held A) (hB : P.Stable t held B) :
    P.Stable t held fun g => A g ∧ B g where
  interferes := fun a b h hab => ⟨hA.interferes a b h hab.1, hB.interferes a b h hab.2⟩
  quiet := fun a b h hi hab => ⟨hA.quiet a b h hi hab.1, hB.quiet a b h hi hab.2⟩

theorem Stable.congr (hA : P.Stable t held A) (h : ∀ g, B g ↔ A g) : P.Stable t held B where
  interferes := fun a b hab hB => (h b).2 (hA.interferes a b hab ((h a).1 hB))
  quiet := fun a b hab hi hB => (h b).2 (hA.quiet a b hab hi ((h a).1 hB))

theorem Stable.or (hA : P.Stable t held A) (hB : P.Stable t held B) :
    P.Stable t held fun g => A g ∨ B g where
  interferes := fun a b h => Or.imp (hA.interferes a b h) (hB.interferes a b h)
  quiet := fun a b h hi => Or.imp (hA.quiet a b h hi) (hB.quiet a b h hi)

theorem Stable.exists {γ : Type} {C : γ → Shared S → Prop} (hC : ∀ x, P.Stable t held (C x)) :
    P.Stable t held fun g => ∃ x, C x g where
  interferes := fun a b h ⟨x, hx⟩ => ⟨x, (hC x).interferes a b h hx⟩
  quiet := fun a b h hi ⟨x, hx⟩ => ⟨x, (hC x).quiet a b h hi hx⟩

theorem Stable.forall {γ : Type} {C : γ → Shared S → Prop} (hC : ∀ x, P.Stable t held (C x)) :
    P.Stable t held fun g => ∀ x, C x g where
  interferes := fun a b h ha x => (hC x).interferes a b h (ha x)
  quiet := fun a b h hi ha x => (hC x).quiet a b h hi (ha x)

theorem Stable.imp {p : Prop} (hA : P.Stable t held A) : P.Stable t held fun g => p → A g where
  interferes := fun a b h ha hp => hA.interferes a b h (ha hp)
  quiet := fun a b h hi ha hp => hA.quiet a b h hi (ha hp)

theorem Stable.pure (p : Prop) : P.Stable t held fun _ => p :=
  ⟨fun _ _ _ h => h, fun _ _ _ _ h => h⟩

/-- What is stable under more interference is stable under less. -/
theorem Stable.refines {P' : Spec S} (hA : P.Stable t held A) (hinv : ∀ g, P'.Inv g → P.Inv g)
    (hrely : ∀ t held a b, P'.Rely t held a b → P.Rely t held a b) : P'.Stable t held A where
  interferes := fun a b hab =>
    hA.interferes a b ⟨hinv a hab.inv, hinv b hab.inv', hab.base, hrely t held a b hab.rely⟩
  quiet := fun a b hq hi => hA.quiet a b hq (hinv a hi)

/-! ### Rules for the program constructors -/

theorem Safe.relies {p : Prog (Act S) ε α} {g' : Shared S} (hp : P.Safe t Q p l g)
    (h : P.Relies t l.held g g') : P.Safe t Q p l g' := by
  cases p with
  | ret a => exact fun g₁ hr => hp g₁ (h.trans hr)
  | raise e => exact fun g₁ hr => hp g₁ (h.trans hr)
  | act o k => exact fun g₁ hr => hp g₁ (h.trans hr)

theorem Safe.ret {a : α} (hst : P.Stable t l.held A) (hA : A g)
    (h : ∀ g, P.Inv g → A g → Q (.ok a) l g) : P.Safe t Q (.ret a) l g :=
  fun _ hr hi => h _ hi (hst.relies hr hA)

theorem Safe.raise {e : ε} (hst : P.Stable t l.held A) (hA : A g)
    (h : ∀ g, P.Inv g → A g → Q (.error e) l g) : P.Safe t Q (.raise e) l g :=
  fun _ hr hi => h _ hi (hst.relies hr hA)

/-- A program followed by `last`: the postcondition of the program is that `last` is safe. -/
theorem Safe.ensuring {p : Prog (Act S) ε α} {last : Prog (Act S) ε Unit} (hinv : P.Inv g)
    (h : P.Safe t (fun r l g => match r with
      | .ok a => P.Safe t Q (last.bind fun _ => .ret a) l g
      | .error e => P.Safe t Q (last.bind fun _ => .raise e) l g) p l g) :
    P.Safe t Q (p.ensuring last) l g := by
  induction p generalizing l g with
  | ret a => exact h g .refl hinv
  | raise e => exact h g .refl hinv
  | act o k ih =>
    intro g₁ hr hi answer b l' g₂ hrun
    obtain ⟨hi₂, hg, hs⟩ := h g₁ hr hi answer b l' g₂ hrun
    exact ⟨hi₂, hg, ih b hi₂ hs⟩

/-- A program followed by `f`: the postcondition of the program is that `f` is safe. -/
theorem Safe.bind {p : Prog (Act S) ε β} {f : β → Prog (Act S) ε α} (hinv : P.Inv g)
    (h : P.Safe t (fun r l g => match r with
      | .ok b => P.Safe t Q (f b) l g
      | .error e => P.Safe t Q (.raise e) l g) p l g) : P.Safe t Q (p.bind f) l g := by
  induction p generalizing l g with
  | ret a => exact h g .refl hinv
  | raise e => exact h g .refl hinv
  | act o k ih =>
    intro g₁ hr hi answer b l' g₂ hrun
    obtain ⟨hi₂, hg, hs⟩ := h g₁ hr hi answer b l' g₂ hrun
    exact ⟨hi₂, hg, ih b hi₂ hs⟩

/-- A program with a handler: the postcondition of the program is that the handler is safe. -/
theorem Safe.handle {p : Prog (Act S) ε α} {f : ε → Prog (Act S) ε α} (hinv : P.Inv g)
    (h : P.Safe t (fun r l g => match r with
      | .ok a => P.Safe t Q (.ret a) l g
      | .error e => P.Safe t Q (f e) l g) p l g) : P.Safe t Q (p.handle f) l g := by
  induction p generalizing l g with
  | ret a => exact h g .refl hinv
  | raise e => exact h g .refl hinv
  | act o k ih =>
    intro g₁ hr hi answer b l' g₂ hrun
    obtain ⟨hi₂, hg, hs⟩ := h g₁ hr hi answer b l' g₂ hrun
    exact ⟨hi₂, hg, ih b hi₂ hs⟩

theorem Safe.mono {p : Prog (Act S) ε α} {Q' : Except ε α → Session S → Shared S → Prop}
    (hQ : ∀ r l g, Q r l g → Q' r l g) (h : P.Safe t Q p l g) : P.Safe t Q' p l g := by
  induction p generalizing l g with
  | ret a => exact fun g₁ hr hi => hQ _ _ _ (h g₁ hr hi)
  | raise e => exact fun g₁ hr hi => hQ _ _ _ (h g₁ hr hi)
  | act o k ih =>
    intro g₁ hr hi answer b l' g₂ hrun
    obtain ⟨hi₂, hg, hs⟩ := h g₁ hr hi answer b l' g₂ hrun
    exact ⟨hi₂, hg, ih b hs⟩

theorem Safe.rejectIf {c : Prop} [Decidable c] {e : ε} {k : Unit → Prog (Act S) ε α}
    (hr : c → P.Safe t Q (.raise e) l g) (hk : ¬ c → P.Safe t Q (k ()) l g) :
    P.Safe t Q (Prog.rejectIf c e >>= k) l g := by
  unfold Prog.rejectIf
  split
  · rename_i h; exact hr h
  · rename_i h; exact hk h

theorem Safe.require {x : Option β} {e : ε} {k : β → Prog (Act S) ε α}
    (hr : x = none → P.Safe t Q (.raise e) l g) (hk : ∀ b, x = some b → P.Safe t Q (k b) l g) :
    P.Safe t Q (Prog.require x e >>= k) l g := by
  cases x with
  | none => exact hr rfl
  | some b => exact hk b rfl

/-! ### Rules for the actions -/

theorem guar_quiet {a b : Shared S} (h : Quiet a b) (ha : P.Inv a) : P.Guar t held a b :=
  fun u _ held' _ => P.quiet_rely h ha u held'

theorem Safe.query {f : ℕ → S.DB → β} {k : β → Prog (Act S) ε α} (hst : P.Stable t l.held A)
    (hA : A g) (h : ∀ g₁ x, P.Inv g₁ → A g₁ → f g₁.history.length (l.view g₁.current) = x →
      P.Safe t Q (k x) (l.touch g₁.history.length) g₁) :
    P.Safe t Q (Transactions.query f >>= k) l g := by
  intro g₁ hr hi answer b l' g₂ hrun
  cases hrun
  exact ⟨hi, guar_quiet (.refl _) hi, h g₁ _ hi (hst.relies hr hA) rfl⟩

theorem Safe.exec {locks : List (RowLock S.Key)} {f : S.DB → β × List (S.DB → S.DB)}
    {k : β → Prog (Act S) ε α} (hst : P.Stable t l.held A) (hA : A g)
    (h : ∀ g₁, P.Inv g₁ → A g₁ → P.Safe t Q (k (f (l.view g₁.current)).1)
      (l.exec g₁.history.length locks (f (l.view g₁.current)).2) g₁) :
    P.Safe t Q (Transactions.exec locks f >>= k) l g := by
  intro g₁ hr hi answer b l' g₂ hrun
  cases hrun
  exact ⟨hi, guar_quiet (.refl _) hi, h g₁ hi (hst.relies hr hA)⟩

/-- The shared state after a commit by thread `t`. -/
def commitState (t : ℕ) (label : S.Label) (l : Session S) (g : Shared S) : Shared S :=
  { g with history := g.history ++
    [⟨some t, label, l.began.getD g.history.length, l.view g.current⟩] }

theorem Safe.commit {label : S.Label} {k : Unit → Prog (Act S) ε α} (hst : P.Stable t l.held A)
    (hA : A g) (h : ∀ g₁, P.Inv g₁ → A g₁ →
      P.Inv (commitState t label l g₁) ∧ P.Guar t l.held g₁ (commitState t label l g₁) ∧
        P.Safe t Q (k ()) {} (commitState t label l g₁)) :
    P.Safe t Q (Transactions.commit label >>= k) l g := by
  intro g₁ hr hi answer b l' g₂ hrun
  cases hrun
  exact h g₁ hi (hst.relies hr hA)

theorem Safe.rollback {k : Unit → Prog (Act S) ε α} (hst : P.Stable t l.held A)
    (hA : A g) (h : ∀ g₁, P.Inv g₁ → A g₁ → P.Safe t Q (k ()) {} g₁) :
    P.Safe t Q (Transactions.rollback >>= k) l g := by
  intro g₁ hr hi answer b l' g₂ hrun
  cases hrun
  exact ⟨hi, guar_quiet (.refl _) hi, h g₁ hi (hst.relies hr hA)⟩

/-- The shared state after thread `t` reads the clock. -/
def readState (t : ℕ) (g : Shared S) : Shared S :=
  { g with readings := g.readings ++ [(t, g.clock)] }

theorem quiet_readState (t : ℕ) (g : Shared S) : Quiet g (readState t g) :=
  ⟨rfl, rfl, rfl, rfl, ⟨[], by simp [readState]⟩, ⟨[(t, g.clock)], rfl⟩⟩

theorem Safe.now {k : ℤ → Prog (Act S) ε α} (hst : P.Stable t l.held A) (hA : A g)
    (h : ∀ g₁, P.Inv (readState t g₁) → A (readState t g₁) →
      P.Safe t Q (k g₁.clock) l (readState t g₁)) :
    P.Safe t Q (Transactions.now >>= k) l g := by
  intro g₁ hr hi answer b l' g₂ hrun
  cases hrun
  have hq : Quiet g₁ (readState t g₁) := quiet_readState t g₁
  exact ⟨P.quiet_inv hq hi, guar_quiet hq hi,
    h g₁ (P.quiet_inv hq hi) (hst.quiet _ _ hq hi (hst.relies hr hA))⟩

/-- The shared state after thread `t` draws a number. -/
def drawState (t : ℕ) (g : Shared S) : Shared S := { g with drawn := g.drawn ++ [some t] }

theorem quiet_drawState (t : ℕ) (g : Shared S) : Quiet g (drawState t g) :=
  ⟨rfl, rfl, rfl, rfl, ⟨[some t], rfl⟩, ⟨[], by simp [drawState]⟩⟩

theorem Safe.fresh {k : ℕ → Prog (Act S) ε α} (hst : P.Stable t l.held A) (hA : A g)
    (h : ∀ g₁, P.Inv g₁ → P.Inv (drawState t g₁) → A (drawState t g₁) →
      P.Safe t Q (k g₁.drawn.length) l (drawState t g₁)) :
    P.Safe t Q (Transactions.fresh >>= k) l g := by
  intro g₁ hr hi answer b l' g₂ hrun
  cases hrun
  have hq : Quiet g₁ (drawState t g₁) := quiet_drawState t g₁
  exact ⟨P.quiet_inv hq hi, guar_quiet hq hi,
    h g₁ hi (P.quiet_inv hq hi) (hst.quiet _ _ hq hi (hst.relies hr hA))⟩

/-- The shared state after thread `t` asks the outside service. -/
def askState (t : ℕ) (q : S.Query) (answer : S.Answer) (g : Shared S) : Shared S :=
  { g with asks := g.asks ++ [(t, q, answer)] }

theorem Safe.ask {q : S.Query} {k : S.Answer → Prog (Act S) ε α} (hst : P.Stable t l.held A)
    (hA : A g) (h : ∀ g₁, P.Inv g₁ → A g₁ → ∀ answer,
      P.Inv (askState t q answer g₁) ∧ P.Guar t l.held g₁ (askState t q answer g₁) ∧
        P.Safe t Q (k answer) l (askState t q answer g₁)) :
    P.Safe t Q (Transactions.ask q >>= k) l g := by
  intro g₁ hr hi answer b l' g₂ hrun
  cases hrun
  exact h g₁ hi (hst.relies hr hA) answer

theorem Safe.access {f : ℕ → S.Mem → Option (β × S.Mem)} {k : β → Prog (Act S) ε α}
    (hst : P.Stable t l.held A) (hA : A g)
    (h : ∀ g₁, P.Inv g₁ → A g₁ → ∀ b m, f t g₁.mem = some (b, m) →
      P.Inv { g₁ with mem := m } ∧ P.Guar t l.held g₁ { g₁ with mem := m } ∧
        P.Safe t Q (k b) l { g₁ with mem := m }) :
    P.Safe t Q (Transactions.access f >>= k) l g := by
  intro g₁ hr hi answer b l' g₂ hrun
  obtain ⟨⟨b', m⟩, hf, hb⟩ := Option.map_eq_some_iff.1 hrun
  cases hb
  exact h g₁ hi (hst.relies hr hA) b' m hf

/-! ### What an action does to the other threads -/

/-- Nothing in the shared state is attributed to thread `t`. -/
structure Untouched (t : ℕ) (g : Shared S) : Prop where
  history : ∀ e ∈ g.history, e.tid ≠ some t
  drawn : some t ∉ g.drawn
  readings : ∀ r ∈ g.readings, r.1 ≠ t
  asks : ∀ q ∈ g.asks, q.1 ≠ t

theorem Untouched.base {u : ℕ} {a b : Shared S} (h : Base u a b) (hu : Untouched u a) :
    Untouched u b := by
  obtain ⟨hist, hhist, nhist⟩ := h.history
  obtain ⟨dr, hdr, ndr⟩ := h.drawn
  obtain ⟨rd, hrd, nrd⟩ := h.readings
  obtain ⟨ak, hak, nak⟩ := h.asks
  constructor
  · intro e he
    rw [hhist, List.mem_append] at he
    exact he.elim (hu.history e) (nhist e)
  · rw [hdr, List.mem_append]
    exact fun hd => hd.elim hu.drawn ndr
  · intro r hr
    rw [hrd, List.mem_append] at hr
    exact hr.elim (hu.readings r) (nrd r)
  · intro q hq
    rw [hak, List.mem_append] at hq
    exact hq.elim (hu.asks q) (nak q)

/-- An action of another thread is an action `Base` allows. -/
theorem base_of_run {o : Act S β} {u : ℕ} {answer : S.Answer} {b : β} {l' : Session S}
    {g' : Shared S} (h : o.run t answer l g = some (b, l', g')) (hu : u ≠ t) : Base u g g' := by
  have hne : t ≠ u := fun h => hu h.symm
  cases o with
  | query f => cases h; exact .refl u g
  | exec locks f => cases h; exact .refl u g
  | commit label =>
    cases h
    exact ⟨rfl, ⟨[_], rfl, by simpa using hne⟩, ⟨[], by simp⟩, ⟨[], by simp⟩, ⟨[], by simp⟩⟩
  | rollback => cases h; exact .refl u g
  | now =>
    cases h
    exact ⟨rfl, ⟨[], by simp⟩, ⟨[], by simp⟩, ⟨[_], rfl, by simpa using hne⟩, ⟨[], by simp⟩⟩
  | fresh =>
    cases h
    exact ⟨rfl, ⟨[], by simp⟩, ⟨[_], rfl, by simpa using hu⟩, ⟨[], by simp⟩, ⟨[], by simp⟩⟩
  | ask q =>
    cases h
    exact ⟨rfl, ⟨[], by simp⟩, ⟨[], by simp⟩, ⟨[], by simp⟩, ⟨[_], rfl, by simpa using hne⟩⟩
  | mem f =>
    obtain ⟨out, -, hout⟩ := Option.map_eq_some_iff.1 h
    cases hout
    exact ⟨rfl, ⟨[], by simp⟩, ⟨[], by simp⟩, ⟨[], by simp⟩, ⟨[], by simp⟩⟩

/-- After an action the thread holds only locks it held before or was just granted. -/
theorem held_of_run {o : Act S β} {answer : S.Answer} {b : β} {l' : Session S}
    {g' : Shared S} (h : o.run t answer l g = some (b, l', g')) :
    ∀ k ∈ l'.held, k ∈ l.held ∨ k ∈ o.locks := by
  cases o with
  | exec locks f =>
    cases h
    intro k hk
    exact (List.mem_append.1 hk).symm
  | commit label => cases h; intro k hk; cases hk
  | rollback => cases h; intro k hk; cases hk
  | mem f =>
    obtain ⟨out, -, hout⟩ := Option.map_eq_some_iff.1 h
    cases hout
    exact fun k hk => .inl hk
  | _ => cases h; exact fun k hk => .inl hk

end Spec

end Transactions
