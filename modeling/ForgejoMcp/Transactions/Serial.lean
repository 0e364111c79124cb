import ForgejoMcp.Transactions.History
import ForgejoMcp.Transactions.RelyGuarantee

/-!
# Serial models

A serial model says, for every label, from which history a transaction may commit and which state
it leaves (`Step`), which rows its commit may change (`footprint`), and which drawn numbers it puts
into the database (`ids`).  `Serial.spec` is the rely–guarantee specification in which a thread
relies on no other thread committing a change of a row it has locked: a program is safe for it when
each of its commits is a step of the serial model and only changes rows it holds exclusively.
-/

namespace Transactions

variable {S : Sorts} {ε α β : Type}

/-- A serial model of the commits of a system, with an invariant `Side` that ties the memory and
the questions asked to the history. -/
structure Serial (S : Sorts) where
  Start : S.DB → Prop
  Uses : S.DB → ℕ → Prop
  Step : S.DB → List (Entry S) → Entry S → Prop
  footprint : S.Label → List S.Key
  ids : S.Label → List ℕ
  Side : List (Entry S) → List (ℕ × S.Query × S.Answer) → S.Mem → Prop
  SideRely : ℕ → List (RowLock S.Key) → S.Mem → S.Mem → Prop
  sideRely_refl : ∀ t held m, SideRely t held m m
  sideRely_mono : ∀ {t held held' m m'}, (∀ k ∈ held, k ∈ held') → SideRely t held' m m' →
    SideRely t held m m'

namespace Serial

variable (M : Serial S)

/-- The invariant: the history is a run of the serial model, and every number in the database was
drawn by the thread that put it there. -/
structure Inv (g : Shared S) : Prop where
  start : M.Start g.base
  valid : Valid M.Step g.base g.history
  drawnBase : ∀ i, M.Uses g.base i → g.drawn[i]? = some none
  drawnIds : ∀ e ∈ g.history, ∀ i ∈ M.ids e.label, g.drawn[i]? = some e.tid
  side : M.Side g.history g.asks g.mem

/-- No commit of another thread changes a row the thread has locked. -/
structure Rely (t : ℕ) (held : List (RowLock S.Key)) (a b : Shared S) : Prop where
  frame : ∀ e ∈ b.history.drop a.history.length, ∀ x ∈ held, x.key ∉ M.footprint e.label
  side : M.SideRely t held a.mem b.mem

theorem Rely.of_history {t : ℕ} {held : List (RowLock S.Key)} {a b : Shared S}
    (h : b.history = a.history) (hm : M.SideRely t held a.mem b.mem) : M.Rely t held a b :=
  ⟨fun e he => by rw [h, List.drop_length] at he; exact absurd he List.not_mem_nil, hm⟩

theorem drawn_of_append {a b : Shared S} (h : ∃ ext, b.drawn = a.drawn ++ ext) {i : ℕ}
    {o : Option ℕ} (hi : a.drawn[i]? = some o) : b.drawn[i]? = some o := by
  obtain ⟨ext, hext⟩ := h
  rw [hext, List.getElem?_append_left (List.getElem?_eq_some_iff.1 hi).1, hi]

theorem Inv.quiet {a b : Shared S} (h : Quiet a b) (ha : M.Inv a) : M.Inv b where
  start := h.base ▸ ha.start
  valid := h.base ▸ h.history ▸ ha.valid
  drawnBase := fun i hi => drawn_of_append h.drawn (ha.drawnBase i (h.base ▸ hi))
  drawnIds := fun e he i hi => drawn_of_append h.drawn (ha.drawnIds e (h.history ▸ he) i hi)
  side := by rw [h.history, h.asks, h.mem]; exact ha.side

/-- The rely–guarantee specification of a serial model. -/
def spec : Spec S where
  Inv := M.Inv
  Rely := M.Rely
  quiet_inv := fun h ha => Inv.quiet M h ha
  quiet_rely := fun h _ t held => Rely.of_history M h.history (h.mem ▸ M.sideRely_refl t held _)
  mono := fun hsub h => ⟨fun e he x hx => h.frame e he x (hsub x hx), M.sideRely_mono hsub h.side⟩

variable {M} {t : ℕ} {held : List (RowLock S.Key)} {l : Session S} {g : Shared S}
  {Q : Except ε α → Session S → Shared S → Prop} {A : Shared S → Prop}

/-! ### Stable facts of a serial model -/

/-- The history continues the history `h` on the initial state `base`. -/
structure Continues (base : S.DB) (h : List (Entry S)) (g : Shared S) : Prop where
  base : g.base = base
  isPrefix : h <+: g.history

theorem Continues.refl (g : Shared S) : Continues g.base g.history g := ⟨rfl, List.prefix_rfl⟩

/-- What has been committed stays committed. -/
theorem Continues.stable_of {P : Spec S} (base : S.DB) (h : List (Entry S)) :
    P.Stable t held (Continues base h) where
  interferes := fun a b hab ha => by
    obtain ⟨ext, hext, -⟩ := hab.base.history
    exact ⟨hab.base.base.trans ha.base, hext ▸ ha.isPrefix.trans (List.prefix_append _ _)⟩
  quiet := fun a b hab _ ha => ⟨hab.base.trans ha.base, hab.history ▸ ha.isPrefix⟩

theorem Continues.stable (base : S.DB) (h : List (Entry S)) :
    M.spec.Stable t held (Continues base h) :=
  Continues.stable_of base h

/-- The history continues `h`, and no commit since then changed the row `k`. -/
structure Held (M : Serial S) (k : S.Key) (base : S.DB) (h : List (Entry S)) (g : Shared S) :
    Prop where
  base : g.base = base
  unchanged : ∃ ext, g.history = h ++ ext ∧ ∀ e ∈ ext, k ∉ M.footprint e.label

theorem Held.refl (k : S.Key) (g : Shared S) : M.Held k g.base g.history g := ⟨rfl, [], by simp⟩

theorem Held.stable {k : S.Key} {b : Bool} (hk : ⟨k, b⟩ ∈ held) (base : S.DB)
    (h : List (Entry S)) : M.spec.Stable t held (M.Held k base h) where
  interferes := fun a b hab ⟨hbase, ext, hext, hno⟩ => by
    obtain ⟨ext', hext', -⟩ := hab.base.history
    refine ⟨hab.base.base.trans hbase, ext ++ ext', by rw [hext', hext, List.append_assoc],
      fun e he => ?_⟩
    rcases List.mem_append.1 he with he | he
    · exact hno e he
    · refine hab.rely.frame e ?_ _ hk
      rw [hext', List.drop_left]
      exact he
  quiet := fun a b hab _ ⟨hbase, ext, hext, hno⟩ =>
    ⟨hab.base.trans hbase, ext, hab.history ▸ hext, hno⟩

theorem Held.continues {k : S.Key} {base : S.DB} {h : List (Entry S)} (hh : M.Held k base h g) :
    Continues base h g := by
  obtain ⟨hbase, ext, hext, -⟩ := hh
  exact ⟨hbase, ext, hext.symm⟩

theorem Held.not_mem_footprint {k : S.Key} {base : S.DB} {h : List (Entry S)}
    (hh : M.Held k base h g) {n : ℕ} (hn : h.length ≤ n) {e : Entry S}
    (he : e ∈ g.history.drop n) : k ∉ M.footprint e.label := by
  obtain ⟨ext, hext, hno⟩ := hh.unchanged
  rw [hext, List.drop_append, List.drop_eq_nil_of_le hn, List.nil_append] at he
  exact hno e (List.mem_of_mem_drop he)

/-- What steps that leave a row alone preserve holds between the moment the row was locked and
now. -/
theorem Held.related {k : S.Key} {base : S.DB} {h : List (Entry S)} (hh : M.Held k base h g)
    (hi : M.Inv g) (R : S.DB → S.DB → Prop) (hrefl : ∀ a, R a a)
    (htrans : ∀ a b c, R a b → R b c → R a c)
    (hstep : ∀ h e, Valid M.Step g.base h → M.Step g.base h e → k ∉ M.footprint e.label →
      R (after g.base h) e.db) : R (after base h) g.current := by
  obtain ⟨rfl, ext, hext, hno⟩ := hh
  have hv := hi.valid
  rw [hext] at hv
  rw [Shared.current, hext]
  exact hv.frame R hrefl htrans (fun e => k ∉ M.footprint e.label) hstep hno

/-- A property of a committed state since the first `n` commits. -/
def Sometime (n : ℕ) (P : S.DB → Prop) (g : Shared S) : Prop :=
  ∃ m, n ≤ m ∧ m ≤ g.history.length ∧ P (g.stateAt m)

theorem Sometime.now {n : ℕ} {P : S.DB → Prop} (hn : n ≤ g.history.length) (h : P g.current) :
    Sometime n P g :=
  ⟨g.history.length, hn, Nat.le_refl _, by rwa [Shared.stateAt, List.take_length]⟩

theorem Sometime.mono {n : ℕ} {P P' : S.DB → Prop} (hP : ∀ db, P db → P' db)
    (h : Sometime n P g) : Sometime n P' g := by
  obtain ⟨m, hn, hm, h⟩ := h
  exact ⟨m, hn, hm, hP _ h⟩

theorem Sometime.grow {n : ℕ} {P : S.DB → Prop} {g' : Shared S} (h : Sometime n P g)
    (hb : g'.base = g.base) (hh : ∃ ext, g'.history = g.history ++ ext) : Sometime n P g' := by
  obtain ⟨m, hn, hm, h⟩ := h
  obtain ⟨ext, hext⟩ := hh
  refine ⟨m, hn, ?_, ?_⟩
  · rw [hext, List.length_append]
    exact Nat.le_trans hm (Nat.le_add_right _ _)
  · rwa [Shared.stateAt, hb, hext, List.take_append_of_le_length hm]

theorem Sometime.commit {n : ℕ} {P : S.DB → Prop} (h : Sometime n P g) (label : S.Label)
    (l : Session S) : Sometime n P (Spec.commitState t label l g) :=
  h.grow rfl ⟨_, rfl⟩

/-- What a commit leaves holds of a committed state from then on. -/
theorem Sometime.committed {n : ℕ} {P : S.DB → Prop} {l : Session S} (hn : n ≤ g.history.length)
    (h : P (l.view g.current)) (label : S.Label) :
    Sometime n P (Spec.commitState t label l g) := by
  refine .now ?_ ?_
  · rw [Spec.commitState, List.length_append]
    exact Nat.le_trans hn (Nat.le_add_right _ _)
  · rwa [Shared.current, Spec.commitState, after_concat]

theorem Sometime.stable (n : ℕ) (P : S.DB → Prop) : M.spec.Stable t held (Sometime n P) where
  interferes := fun a b hab ha => by
    obtain ⟨ext, hext, -⟩ := hab.base.history
    exact ha.grow hab.base.base ⟨ext, hext⟩
  quiet := fun a b hab _ ha => ha.grow hab.base ⟨[], by rw [hab.history, List.append_nil]⟩

/-- A property of the committed state after the first `n` commits. -/
structure At (n : ℕ) (P : S.DB → Prop) (g : Shared S) : Prop where
  le : n ≤ g.history.length
  holds : P (g.stateAt n)

theorem At.now {P : S.DB → Prop} (h : P g.current) : At g.history.length P g :=
  ⟨Nat.le_refl _, by rwa [Shared.stateAt, List.take_length]⟩

theorem At.grow {n : ℕ} {P : S.DB → Prop} {g' : Shared S} (h : At n P g) (hb : g'.base = g.base)
    (hh : ∃ ext, g'.history = g.history ++ ext) : At n P g' := by
  obtain ⟨ext, hext⟩ := hh
  refine ⟨?_, ?_⟩
  · rw [hext, List.length_append]
    exact Nat.le_trans h.le (Nat.le_add_right _ _)
  · rw [Shared.stateAt, hb, hext, List.take_append_of_le_length h.le]
    exact h.holds

theorem At.stable_of {P : Spec S} (n : ℕ) (C : S.DB → Prop) : P.Stable t held (At n C) where
  interferes := fun a b hab ha => by
    obtain ⟨ext, hext, -⟩ := hab.base.history
    exact ha.grow hab.base.base ⟨ext, hext⟩
  quiet := fun a b hab _ ha => ha.grow hab.base ⟨[], by rw [hab.history, List.append_nil]⟩

theorem At.ask {n : ℕ} {P : S.DB → Prop} (h : At n P g) (q : S.Query) (answer : S.Answer) :
    At n P (Spec.askState t q answer g) :=
  h.grow rfl ⟨[], (List.append_nil _).symm⟩

/-- A property of a committed state since the first `n` commits, and at most `k` of them. -/
def Between (n k : ℕ) (P : S.DB → Prop) (g : Shared S) : Prop :=
  ∃ m, n ≤ m ∧ m ≤ k ∧ k ≤ g.history.length ∧ P (g.stateAt m)

theorem Between.grow {n k : ℕ} {P : S.DB → Prop} {g' : Shared S} (h : Between n k P g)
    (hb : g'.base = g.base) (hh : ∃ ext, g'.history = g.history ++ ext) : Between n k P g' := by
  obtain ⟨m, hn, hm, hk, h⟩ := h
  obtain ⟨ext, hext⟩ := hh
  refine ⟨m, hn, hm, ?_, ?_⟩
  · rw [hext, List.length_append]
    exact Nat.le_trans hk (Nat.le_add_right _ _)
  · rwa [Shared.stateAt, hb, hext, List.take_append_of_le_length (Nat.le_trans hm hk)]

/-- What held before a commit, seen from after it. -/
theorem Sometime.between {n : ℕ} {P : S.DB → Prop} (h : Sometime n P g) (label : S.Label)
    (l : Session S) : Between n g.history.length P (Spec.commitState t label l g) := by
  obtain ⟨m, hn, hm, h⟩ := h
  exact Between.grow ⟨m, hn, hm, Nat.le_refl _, h⟩ rfl ⟨_, rfl⟩

theorem Between.sometime {n k : ℕ} {P : S.DB → Prop} (h : Between n k P g) : Sometime n P g := by
  obtain ⟨m, hn, hm, hk, h⟩ := h
  exact ⟨m, hn, hm.trans hk, h⟩

theorem Between.stable (n k : ℕ) (P : S.DB → Prop) : M.spec.Stable t held (Between n k P) where
  interferes := fun a b hab ha => by
    obtain ⟨ext, hext, -⟩ := hab.base.history
    exact ha.grow hab.base.base ⟨ext, hext⟩
  quiet := fun a b hab _ ha => ha.grow hab.base ⟨[], by rw [hab.history, List.append_nil]⟩

/-- The number `i` was drawn by thread `t` and is not in the database. -/
structure Unused (M : Serial S) (t i : ℕ) (g : Shared S) : Prop where
  drawn : g.drawn[i]? = some (some t)
  unused : ∀ e ∈ g.history, i ∉ M.ids e.label

theorem Unused.stable (i : ℕ) : M.spec.Stable t held (M.Unused t i) where
  interferes := fun a b hab ha => by
    obtain ⟨ext, hext, hno⟩ := hab.base.history
    obtain ⟨dr, hdr, -⟩ := hab.base.drawn
    have hi : b.drawn[i]? = some (some t) := drawn_of_append ⟨dr, hdr⟩ ha.drawn
    refine ⟨hi, fun e he hmem => ?_⟩
    rw [hext, List.mem_append] at he
    rcases he with he | he
    · exact ha.unused e he hmem
    · have hb := hab.inv'.drawnIds e (hext ▸ List.mem_append_right _ he) i hmem
      rw [hi, Option.some.injEq] at hb
      exact hno e he hb.symm
  quiet := fun a b hab _ ha =>
    ⟨drawn_of_append hab.drawn ha.drawn, fun e he => ha.unused e (hab.history ▸ he)⟩

theorem Unused.draw (hi : M.Inv g) : M.Unused t g.drawn.length (Spec.drawState t g) where
  drawn := List.getElem?_concat_length
  unused := fun e he hmem => by
    have hd := hi.drawnIds e he _ hmem
    rw [List.getElem?_eq_none (Nat.le_refl _)] at hd
    cases hd

theorem Unused.not_uses {i : ℕ} (hi : M.Unused t i g) (hinv : M.Inv g) : ¬ M.Uses g.base i := by
  intro hu
  have hd := hinv.drawnBase i hu
  rw [hi.drawn] at hd
  cases hd

/-- What holds of every commit of a thread stays true of them. -/
theorem stable_own (P : Entry S → Prop) :
    M.spec.Stable t held fun g => ∀ e ∈ g.history, e.tid = some t → P e where
  interferes := fun a b hab ha e he ht => by
    obtain ⟨ext, hext, hno⟩ := hab.base.history
    rw [hext, List.mem_append] at he
    exact he.elim (fun he => ha e he ht) (fun he => absurd ht (hno e he))
  quiet := fun a b hab _ ha e he => ha e (hab.history ▸ he)

/-- There were at least `n` commits. -/
theorem stable_length (n : ℕ) : M.spec.Stable t held fun g => n ≤ g.history.length where
  interferes := fun a b hab ha => by
    obtain ⟨ext, hext, -⟩ := hab.base.history
    rw [hext, List.length_append]
    exact Nat.le_trans ha (Nat.le_add_right _ _)
  quiet := fun a b hab _ ha => hab.history ▸ ha

/-- Thread `t`, which started after `n` commits, has not committed. -/
structure Idle (t n : ℕ) (g : Shared S) : Prop where
  started : n ≤ g.history.length
  noCommit : ∀ e ∈ g.history, e.tid = some t → False

theorem Idle.stable (n : ℕ) : M.spec.Stable t held (Idle t n) where
  interferes := fun _ _ hab ha => ⟨(stable_length n).interferes _ _ hab ha.started,
    (stable_own fun _ => False).interferes _ _ hab ha.noCommit⟩
  quiet := fun _ _ hab _ ha => ⟨hab.history ▸ ha.started, hab.history ▸ ha.noCommit⟩

/-- The only commit of thread `t`, which started after `n` commits, is `e`, on the history `h`. -/
structure Committed (t n : ℕ) (base : S.DB) (h : List (Entry S)) (e : Entry S) (g : Shared S) :
    Prop where
  base : g.base = base
  isPrefix : h ++ [e] <+: g.history
  started : n ≤ h.length
  tid : e.tid = some t
  only : ∀ (k : ℕ) (e' : Entry S), g.history[k]? = some e' → e'.tid = some t → k = h.length

theorem Committed.stable (n : ℕ) (base : S.DB) (h : List (Entry S)) (e : Entry S) :
    M.spec.Stable t held (Committed t n base h e) where
  interferes := fun a b hab ha => by
    obtain ⟨ext, hext, hno⟩ := hab.base.history
    refine ⟨hab.base.base.trans ha.base, hext ▸ ha.isPrefix.trans (List.prefix_append _ _),
      ha.started, ha.tid, fun k e' he' ht => ?_⟩
    rw [hext] at he'
    by_cases hk : k < a.history.length
    · rw [List.getElem?_append_left hk] at he'
      exact ha.only k e' he' ht
    · rw [List.getElem?_append_right (Nat.not_lt.1 hk)] at he'
      exact absurd ht (hno e' (List.mem_of_getElem? he'))
  quiet := fun a b hab _ ha =>
    ⟨hab.base.trans ha.base, hab.history ▸ ha.isPrefix, ha.started, ha.tid, hab.history ▸ ha.only⟩

theorem Idle.committed {n : ℕ} (h : Idle t n g) (label : S.Label) (l : Session S) :
    Committed t n g.base g.history
      ⟨some t, label, l.began.getD g.history.length, l.view g.current⟩
      (Spec.commitState t label l g) where
  base := rfl
  isPrefix := List.prefix_rfl
  started := h.started
  tid := rfl
  only := fun k e' he' ht => by
    rw [Spec.commitState] at he'
    by_cases hk : k < g.history.length
    · rw [List.getElem?_append_left hk] at he'
      exact absurd ht (h.noCommit e' (List.mem_of_getElem? he'))
    · have hlen := (List.getElem?_eq_some_iff.1 he').1
      rw [List.length_append, List.length_singleton] at hlen
      omega

/-- The commit of a thread in the history. -/
theorem Committed.getElem? {n : ℕ} {base : S.DB} {h : List (Entry S)} {e : Entry S}
    (hc : Committed t n base h e g) : g.history[h.length]? = some e := by
  obtain ⟨ext, hext⟩ := hc.isPrefix
  rw [← hext, List.append_assoc, List.getElem?_append_right (Nat.le_refl _), Nat.sub_self]
  rfl

theorem Committed.eq_of_mem {n : ℕ} {base : S.DB} {h : List (Entry S)} {e e' : Entry S}
    (hc : Committed t n base h e g) (he' : e' ∈ g.history) (ht : e'.tid = some t) : e' = e := by
  obtain ⟨k, hk⟩ := List.mem_iff_getElem?.1 he'
  obtain rfl := hc.only k e' hk ht
  exact Option.some.inj (hk.symm.trans hc.getElem?)

/-- The state a thread committed on. -/
theorem Committed.stateAt {n : ℕ} {base : S.DB} {h : List (Entry S)} {e : Entry S}
    (hc : Committed t n base h e g) : g.stateAt h.length = after base h := by
  obtain ⟨ext, hext⟩ := hc.isPrefix
  rw [Shared.stateAt, ← hext, List.append_assoc, List.take_left, hc.base]

/-- The memory does not matter for what a thread has committed. -/
theorem Committed.mem {n : ℕ} {base : S.DB} {h : List (Entry S)} {e : Entry S}
    (hc : Committed t n base h e g) (m : S.Mem) : Committed t n base h e { g with mem := m } :=
  ⟨hc.base, hc.isPrefix, hc.started, hc.tid, hc.only⟩

theorem Committed.valid {n : ℕ} {base : S.DB} {h : List (Entry S)} {e : Entry S}
    (hc : Committed t n base h e g) (hi : M.Inv g) : Valid M.Step base (h ++ [e]) := by
  obtain ⟨ext, hext⟩ := hc.isPrefix
  have hv := hi.valid
  rw [hc.base, ← hext] at hv
  exact hv.of_append

/-- The commit was a step of the serial model. -/
theorem Committed.step {n : ℕ} {base : S.DB} {h : List (Entry S)} {e : Entry S}
    (hc : Committed t n base h e g) (hi : M.Inv g) : M.Step base h e := by
  have hat := (hc.valid hi).step_at (i := h.length) (e := e) List.getElem?_concat_length
  rwa [List.take_left] at hat

/-- The clock reading `time` is one of thread `t`. -/
theorem stable_reading (time : ℤ) :
    M.spec.Stable t held fun g => (t, time) ∈ g.readings where
  interferes := fun a b hab ha => by
    obtain ⟨ext, hext, -⟩ := hab.base.readings
    exact hext ▸ List.mem_append_left _ ha
  quiet := fun a b hab _ ha => by
    obtain ⟨ext, hext⟩ := hab.readings
    exact hext ▸ List.mem_append_left _ ha

theorem mem_readState (t : ℕ) (g : Shared S) : (t, g.clock) ∈ (Spec.readState t g).readings :=
  List.mem_append_right _ (List.mem_singleton_self _)

/-! ### Commits -/

/-- What a thread has to know to commit its session under a label. -/
structure Commits (M : Serial S) (t : ℕ) (label : S.Label) (l : Session S) (g : Shared S) :
    Prop where
  step : M.Step g.base g.history
    ⟨some t, label, l.began.getD g.history.length, l.view g.current⟩
  exclusive : ∀ k ∈ M.footprint label, ⟨k, true⟩ ∈ l.held
  drawn : ∀ i ∈ M.ids label, g.drawn[i]? = some (some t)
  side : M.Side (g.history ++
    [⟨some t, label, l.began.getD g.history.length, l.view g.current⟩]) g.asks g.mem

theorem Commits.inv {label : S.Label} (h : M.Commits t label l g) (hi : M.Inv g) :
    M.Inv (Spec.commitState t label l g) where
  start := hi.start
  valid := hi.valid.snoc h.step
  drawnBase := hi.drawnBase
  drawnIds := fun e he i hmem => by
    rcases List.mem_append.1 he with he | he
    · exact hi.drawnIds e he i hmem
    · rw [List.mem_singleton.1 he] at hmem ⊢
      exact h.drawn i hmem
  side := h.side

theorem Commits.guar {label : S.Label} (h : M.Commits t label l g) :
    M.spec.Guar t l.held g (Spec.commitState t label l g) := by
  intro u _ held' hcompat
  refine ⟨fun e he x hx hmem => ?_, M.sideRely_refl u held' _⟩
  simp only [Spec.commitState, List.drop_left, List.mem_singleton] at he
  subst he
  exact hcompat x hx ⟨x.key, true⟩ (h.exclusive _ hmem) ⟨rfl, .inr rfl⟩

/-- The rule for an access to the memory that keeps the side condition. -/
theorem access {f : ℕ → S.Mem → Option (β × S.Mem)} {k : β → Prog (Act S) ε α}
    (hst : M.spec.Stable t l.held A) (hA : A g)
    (h : ∀ g₁, M.Inv g₁ → A g₁ → ∀ b m, f t g₁.mem = some (b, m) →
      M.Side g₁.history g₁.asks m ∧ (∀ u held, M.SideRely u held g₁.mem m) ∧
        (M.Inv { g₁ with mem := m } → M.spec.Safe t Q (k b) l { g₁ with mem := m })) :
    M.spec.Safe t Q (Transactions.access f >>= k) l g := by
  refine Spec.Safe.access hst hA fun g₁ hi hA₁ b m hf => ?_
  obtain ⟨hside, hrely, hsafe⟩ := h g₁ hi hA₁ b m hf
  have hinv : M.Inv { g₁ with mem := m } :=
    ⟨hi.start, hi.valid, hi.drawnBase, hi.drawnIds, hside⟩
  exact ⟨hinv, fun u _ held' _ => Rely.of_history M rfl (hrely u held'), hsafe hinv⟩

/-- The rule for a commit. -/
theorem commit {label : S.Label} {k : Unit → Prog (Act S) ε α} (hst : M.spec.Stable t l.held A)
    (hA : A g) (h : ∀ g₁, M.Inv g₁ → A g₁ → M.Commits t label l g₁ ∧
      M.spec.Safe t Q (k ()) {} (Spec.commitState t label l g₁)) :
    M.spec.Safe t Q (Transactions.commit label >>= k) l g :=
  Spec.Safe.commit hst hA fun g₁ hi hA₁ =>
    ⟨(h g₁ hi hA₁).1.inv hi, (h g₁ hi hA₁).1.guar, (h g₁ hi hA₁).2⟩

end Serial

end Transactions
