import ForgejoMcp.Transactions.Program

/-!
# Runs of one program in its surroundings

The surroundings answer each action from a state of their own, which the action may change.
-/

namespace Transactions

namespace Prog

variable {A : Type → Type 1} {σ ε α β : Type}

/-- Run a program to its end; `answer` performs its actions. -/
def run (answer : ∀ β, A β → σ → β × σ) : Prog A ε α → σ → Except ε α × σ
  | ret a, w => (.ok a, w)
  | raise e, w => (.error e, w)
  | act o k, w => (k (answer _ o w).1).run answer (answer _ o w).2

/-! ### Rules for `run` -/

variable (answer : ∀ β, A β → σ → β × σ)

@[simp] theorem run_ret (a : α) (w : σ) :
    (ret a : Prog A ε α).run answer w = (.ok a, w) := rfl

@[simp] theorem run_raise (e : ε) (w : σ) :
    (raise e : Prog A ε α).run answer w = (.error e, w) := rfl

@[simp] theorem run_act (o : A β) (k : β → Prog A ε α) (w : σ) :
    (act o k).run answer w = (k (answer _ o w).1).run answer (answer _ o w).2 := rfl

theorem run_bind (p : Prog A ε α) (f : α → Prog A ε β) (w : σ) :
    (p.bind f).run answer w = match p.run answer w with
      | (.ok a, w') => (f a).run answer w'
      | (.error e, w') => (.error e, w') := by
  induction p generalizing w with
  | ret a => rfl
  | raise e => rfl
  | act o k ih => exact ih _ _

theorem run_bind_ok {p : Prog A ε α} {w w' : σ} {a : α} (h : p.run answer w = (.ok a, w'))
    (f : α → Prog A ε β) : (p.bind f).run answer w = (f a).run answer w' := by
  rw [run_bind, h]

theorem run_bind_error {p : Prog A ε α} {w w' : σ} {e : ε} (h : p.run answer w = (.error e, w'))
    (f : α → Prog A ε β) : (p.bind f).run answer w = (.error e, w') := by
  rw [run_bind, h]

theorem run_handle (p : Prog A ε α) (h : ε → Prog A ε α) (w : σ) :
    (p.handle h).run answer w = match p.run answer w with
      | (.ok a, w') => (.ok a, w')
      | (.error e, w') => (h e).run answer w' := by
  induction p generalizing w with
  | ret a => rfl
  | raise e => rfl
  | act o k ih => exact ih _ _

theorem run_handle_ok {p : Prog A ε α} {w w' : σ} {a : α} (h : p.run answer w = (.ok a, w'))
    (f : ε → Prog A ε α) : (p.handle f).run answer w = (.ok a, w') := by
  rw [run_handle, h]

theorem run_handle_error {p : Prog A ε α} {w w' : σ} {e : ε}
    (h : p.run answer w = (.error e, w')) (f : ε → Prog A ε α) :
    (p.handle f).run answer w = (f e).run answer w' := by
  rw [run_handle, h]

/-- A continuation that leaves the surroundings alone. -/
theorem run_bind_snd {f : α → Prog A ε β} (quiet : ∀ a w, ((f a).run answer w).2 = w)
    (p : Prog A ε α) (w : σ) : ((p.bind f).run answer w).2 = (p.run answer w).2 := by
  rw [run_bind]
  split
  · rename_i hrun
    rw [quiet, hrun]
  · rename_i hrun
    rw [hrun]

/-- A handler that leaves the surroundings alone. -/
theorem run_handle_snd {h : ε → Prog A ε α} (quiet : ∀ e w, ((h e).run answer w).2 = w)
    (p : Prog A ε α) (w : σ) : ((p.handle h).run answer w).2 = (p.run answer w).2 := by
  rw [run_handle]
  split
  · rename_i hrun
    rw [hrun]
  · rename_i hrun
    rw [quiet, hrun]

/-- A last part that leaves the surroundings alone. -/
theorem run_ensuring_snd {last : Prog A ε Unit} (quiet : ∀ w, (last.run answer w).2 = w)
    (p : Prog A ε α) (w : σ) : ((p.ensuring last).run answer w).2 = (p.run answer w).2 := by
  induction p generalizing w with
  | ret a => exact (run_bind_snd answer (fun _ _ => rfl) last w).trans (quiet w)
  | raise e => exact (run_bind_snd answer (fun _ _ => rfl) last w).trans (quiet w)
  | act o k ih => exact ih _ _

end Prog

end Transactions
