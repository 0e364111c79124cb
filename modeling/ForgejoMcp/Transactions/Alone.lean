import ForgejoMcp.Transactions.Sql

/-!
# Programs that run alone

`Returns t answer Q p l g`: run by thread `t` without interference, the program ends by returning a
result that satisfies `Q`.  A thread for which this holds can finish in every configuration in which
no other thread holds a lock.
-/

namespace Transactions

variable {S : Sorts} {κ ρ : Type} {key : ρ → κ} {ε α β Call : Type}

/-- Run alone, the program returns a result that satisfies `Q`. -/
def Returns (t : ℕ) (answer : S.Answer) (Q : α → Session S → Shared S → Prop) :
    Prog (Act S) ε α → Session S → Shared S → Prop
  | .ret a, l, g => Q a l g
  | .raise _, _, _ => False
  | .act o k, l, g => ∃ b l' g', o.run t answer l g = some (b, l', g') ∧
      Returns t answer Q (k b) l' g'

namespace Returns

variable {t : ℕ} {answer : S.Answer} {Q : α → Session S → Shared S → Prop} {l : Session S}
  {g : Shared S}

instance decidable [∀ a l g, Decidable (Q a l g)] :
    ∀ (p : Prog (Act S) ε α) (l : Session S) (g : Shared S), Decidable (Returns t answer Q p l g)
  | .ret a, l, g => inferInstanceAs (Decidable (Q a l g))
  | .raise _, _, _ => .isFalse id
  | .act o k, l, g =>
    match h : o.run t answer l g with
    | none => .isFalse fun ⟨_, _, _, hrun, _⟩ => nomatch h.symm.trans hrun
    | some (b, l', g') =>
      have := decidable (k b) l' g'
      decidable_of_iff (Returns t answer Q (k b) l' g')
        ⟨fun hk => ⟨b, l', g', h, hk⟩, fun ⟨_, _, _, hrun, hk⟩ => by
          cases h.symm.trans hrun
          exact hk⟩

/-- A program that runs alone has one result. -/
theorem and {p : Prog (Act S) ε α} {Q' : α → Session S → Shared S → Prop}
    (h : Returns t answer Q p l g) (h' : Returns t answer Q' p l g) :
    Returns t answer (fun a l g => Q a l g ∧ Q' a l g) p l g := by
  induction p generalizing l g with
  | ret a => exact ⟨h, h'⟩
  | raise e => exact h.elim
  | act o k ih =>
    obtain ⟨b, l₁, g₁, hrun, hk⟩ := h
    obtain ⟨b', l₂, g₂, hrun', hk'⟩ := h'
    rw [hrun] at hrun'
    cases hrun'
    exact ⟨b, l₁, g₁, hrun, ih b hk hk'⟩

/-- What holds of the result regardless of the state it leaves holds. -/
theorem holds {p : Prog (Act S) ε α} {P : Prop} (h : Returns t answer (fun _ _ _ => P) p l g) :
    P := by
  induction p generalizing l g with
  | ret a => exact h
  | raise e => exact h.elim
  | act o k ih =>
    obtain ⟨b, l₁, g₁, -, hk⟩ := h
    exact ih b hk

/-! ### Rules for the program constructors -/

theorem bind {p : Prog (Act S) ε β} {f : β → Prog (Act S) ε α}
    (h : Returns t answer (fun b l g => Returns t answer Q (f b) l g) p l g) :
    Returns t answer Q (p.bind f) l g := by
  induction p generalizing l g with
  | ret b => exact h
  | raise e => exact h.elim
  | act o k ih =>
    obtain ⟨b, l', g', hrun, hk⟩ := h
    exact ⟨b, l', g', hrun, ih b hk⟩

theorem mono {p : Prog (Act S) ε α} {Q' : α → Session S → Shared S → Prop}
    (h : Returns t answer Q p l g) (hQ : ∀ a l g, Q a l g → Q' a l g) :
    Returns t answer Q' p l g := by
  induction p generalizing l g with
  | ret a => exact hQ a l g h
  | raise e => exact h.elim
  | act o k ih =>
    obtain ⟨b, l', g', hrun, hk⟩ := h
    exact ⟨b, l', g', hrun, ih b hk⟩

theorem withSession {p : Prog (Act S) ε α} (h : Returns t answer (fun a _ g => Q a {} g) p l g) :
    Returns t answer Q (withSession p) l g := by
  induction p generalizing l g with
  | ret a => exact ⟨(), {}, g, rfl, h⟩
  | raise e => exact h.elim
  | act o k ih =>
    obtain ⟨b, l', g', hrun, hk⟩ := h
    exact ⟨b, l', g', hrun, ih b hk⟩

theorem rejectIf {c : Prop} [Decidable c] {e : ε} {k : Unit → Prog (Act S) ε α} (hc : ¬ c)
    (h : Returns t answer Q (k ()) l g) :
    Returns t answer Q (Prog.rejectIf c e >>= k) l g := by
  rw [Prog.rejectIf, if_neg hc]
  exact h

theorem require {x : Option β} {b : β} {e : ε} {k : β → Prog (Act S) ε α} (hx : x = some b)
    (h : Returns t answer Q (k b) l g) : Returns t answer Q (Prog.require x e >>= k) l g := by
  rw [hx]
  exact h

/-! ### Rules for the actions -/

theorem query {f : ℕ → S.DB → β} {k : β → Prog (Act S) ε α}
    (h : Returns t answer Q (k (f g.history.length (l.view g.current))) (l.touch g.history.length)
      g) : Returns t answer Q (Transactions.query f >>= k) l g :=
  ⟨_, _, _, rfl, h⟩

/-- A snapshot with a known result. -/
theorem read {f : ℕ → S.DB → β} {k : β → Prog (Act S) ε α} {x : β}
    (hx : f g.history.length (l.view g.current) = x)
    (h : Returns t answer Q (k x) (l.touch g.history.length) g) :
    Returns t answer Q (Transactions.query f >>= k) l g :=
  query (hx ▸ h)

theorem exec {locks : List (RowLock S.Key)} {f : S.DB → β × List (S.DB → S.DB)}
    {k : β → Prog (Act S) ε α} (h : Returns t answer Q (k (f (l.view g.current)).1)
      (l.exec g.history.length locks (f (l.view g.current)).2) g) :
    Returns t answer Q (Transactions.exec locks f >>= k) l g :=
  ⟨_, _, _, rfl, h⟩

theorem commit {label : S.Label} {k : Unit → Prog (Act S) ε α}
    (h : Returns t answer Q (k ()) {} (Spec.commitState t label l g)) :
    Returns t answer Q (Transactions.commit label >>= k) l g :=
  ⟨_, _, _, rfl, h⟩

theorem now {k : ℤ → Prog (Act S) ε α}
    (h : Returns t answer Q (k g.clock) l (Spec.readState t g)) :
    Returns t answer Q (Transactions.now >>= k) l g :=
  ⟨_, _, _, rfl, h⟩

theorem fresh {k : ℕ → Prog (Act S) ε α}
    (h : Returns t answer Q (k g.drawn.length) l (Spec.drawState t g)) :
    Returns t answer Q (Transactions.fresh >>= k) l g :=
  ⟨_, _, _, rfl, h⟩

/-! ### Rules for the statements -/

section

variable [DecidableEq κ] {R : Rel S κ ρ key}

theorem selectForUpdate {p : ρ → Bool} {r : ρ} {k : Option ρ → Prog (Act S) ε α}
    (hr : ((R.get (l.view g.current)).select p).head? = some r)
    (h : Returns t answer Q (k (some r)) ((l.touch g.history.length).exec g.history.length
      [R.exclusive (key r)] []) g) : Returns t answer Q (R.selectForUpdate p >>= k) l g := by
  obtain ⟨hmem, hp⟩ := Table.mem_select.1 (List.mem_of_mem_head? hr)
  have hget : ((R.get (l.view g.current)).get (key r)).filter p = some r := by
    rw [Table.get_of_mem hmem, Option.filter_some, if_pos hp]
  simp only [Rel.selectForUpdate, Prog.bind_eq, Prog.bind_assoc]
  refine query ?_
  rw [hr]
  refine exec ?_
  rw [Session.touch_view, hget]
  exact h

theorem update {p : ρ → Bool} {f : Assign key} {k : List κ → Prog (Act S) ε α}
    (h : ∀ ks, ks = ((R.get (l.view g.current)).select p).map key →
      Returns t answer Q (k ks) ((l.touch g.history.length).exec g.history.length
        (ks.map R.exclusive) [R.updated ks p f]) g) :
    Returns t answer Q (R.update p f >>= k) l g := by
  have hfound : (R.get (l.view g.current)).select
      (fun r => decide (key r ∈ ((R.get (l.view g.current)).select p).map key) && p r) =
        (R.get (l.view g.current)).select p := by
    refine List.filter_congr fun r hr => ?_
    cases hp : p r with
    | false => exact Bool.and_false _
    | true =>
      rw [Bool.and_true, decide_eq_true_iff]
      exact List.mem_map_of_mem (Table.mem_select.2 ⟨hr, hp⟩)
  simp only [Rel.update, Prog.bind_eq, Prog.bind_assoc]
  refine query (exec ?_)
  rw [Session.touch_view, hfound]
  exact h _ rfl

theorem updateKey {i : κ} {f : Assign key} {k : Unit → Prog (Act S) ε α}
    (h : Returns t answer Q (k ()) (l.exec g.history.length [R.exclusive i] [R.updatedKey i f]) g) :
    Returns t answer Q (R.updateKey i f >>= k) l g :=
  ⟨_, _, _, rfl, h⟩

theorem insert {rows : List ρ} {e : ε} {k : Unit → Prog (Act S) ε α}
    (hnew : ∀ r ∈ rows, (R.get (l.view g.current)).get (key r) = none)
    (h : Returns t answer Q (k ()) (l.exec g.history.length
      (rows.map fun r => R.exclusive (key r)) [R.inserted rows]) g) :
    Returns t answer Q (R.insert rows e >>= k) l g := by
  have hno : rows.any (fun r => ((R.get (l.view g.current)).get (key r)).isSome) = false := by
    rw [List.any_eq_false]
    intro r hr hsome
    rw [hnew r hr] at hsome
    cases hsome
  simp only [Rel.insert, Prog.bind_eq, Prog.bind_assoc]
  refine exec (rejectIf ?_ h)
  rw [hno]
  exact Bool.false_ne_true

end

/-! ### Soundness -/

variable [DecidableEq S.Key]

/-- A thread whose program returns when run alone can return when no other thread holds a lock. -/
theorem steps (sys : System S Call ε α) {c : Config S Call ε α} {call : Call} {started : ℕ}
    {p : Prog (Act S) ε α} (h : Returns t answer Q p l c.shared)
    (ht : c.threads[t]? = some ⟨call, started, some p, l⟩)
    (hfree : ∀ (u : ℕ) th, u ≠ t → c.threads[u]? = some th → th.session.held = []) :
    ∃ c' a l', sys.Steps c c' ∧ c'.threads[t]? = some ⟨call, started, some (.ret a), l'⟩ ∧
      Q a l' c'.shared := by
  induction p generalizing l c with
  | ret a => exact ⟨c, a, l, .refl, ht, h⟩
  | raise e => exact h.elim
  | act o k ih =>
    obtain ⟨b, l₁, g₁, hrun, hk⟩ := h
    have hlt : t < c.threads.length := (List.getElem?_eq_some_iff.1 ht).1
    have hgrants : c.Grants t o.locks := by
      intro u hu hut
      rw [hfree u _ hut (List.getElem?_eq_getElem hu)]
      exact fun _ hx => absurd hx List.not_mem_nil
    have hnext : sys.next (.step t answer) c =
        some ⟨g₁, c.threads.set t ⟨call, started, some (k b), l₁⟩⟩ := by
      simp only [System.next, ht, if_pos hgrants, hrun, Option.map_some]
    obtain ⟨c', a, l', hsteps, hend, hQ⟩ := ih (c := ⟨g₁, c.threads.set t
      ⟨call, started, some (k b), l₁⟩⟩) b hk (List.getElem?_set_self hlt) fun u th hut hu =>
        hfree u th hut (by rwa [List.getElem?_set_ne (Ne.symm hut)] at hu)
    exact ⟨c', a, l', .head ⟨_, hnext⟩ hsteps, hend, hQ⟩

/-- A call whose program returns when run alone can be made, and return, when no thread holds a
lock. -/
theorem call (sys : System S Call ε α) (call : Call) {c : Config S Call ε α}
    (h : Returns c.threads.length answer Q (sys.body call) {} c.shared)
    (hfree : ∀ th ∈ c.threads, th.session.held = []) :
    ∃ c' th a l', sys.Steps c c' ∧ c'.threads[c.threads.length]? = some th ∧ th.call = call ∧
      th.prog = some (.ret a) ∧ Q a l' c'.shared := by
  have hstart : sys.Step c { c with threads := c.threads ++
      [⟨call, c.shared.history.length, some (sys.body call), {}⟩] } := ⟨.start call, rfl⟩
  obtain ⟨c', a, l', hsteps, hend, hQ⟩ := steps sys (c := { c with threads := c.threads ++
      [⟨call, c.shared.history.length, some (sys.body call), {}⟩] }) h
    List.getElem?_concat_length fun u th hu hth => by
      have hlen := (List.getElem?_eq_some_iff.1 hth).1
      rw [List.length_append, List.length_singleton] at hlen
      rw [List.getElem?_append_left (by omega)] at hth
      exact hfree th (List.mem_of_getElem? hth)
  exact ⟨c', _, a, l', .head hstart hsteps, hend, rfl, rfl, hQ⟩

end Returns

end Transactions
