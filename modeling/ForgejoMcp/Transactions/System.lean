import ForgejoMcp.Transactions.Program
import Mathlib.Logic.Relation
import Mathlib.Data.Nat.Notation
import Mathlib.Data.Int.Notation

/-!
# Concurrent transactions at READ COMMITTED

Threads run programs whose actions are SQL statements, reads of the clock, draws of fresh random
numbers, calls of an outside service and atomic accesses to the memory of the process.

* A statement sees the latest committed state with the thread's own pending row writes on top.  A
  statement that locks rows takes place when no other thread holds a conflicting lock, and its
  locks are held until the transaction ends.  A `SELECT` takes no lock, so a locking statement
  that first finds its rows (`UPDATE … WHERE`, `SELECT … FOR UPDATE`) is two actions: the snapshot
  that finds them, and the access to the rows found once they are free.
* `commit` publishes the pending writes as one new committed state, `rollback` drops them; both
  release the locks.  The commits are recorded in a history of labelled states.
* Between any two actions other threads may run, the clock may be set to any time, a thread may be
  killed (its session rolls back), and the environment may write to the database or the memory.
-/

namespace Transactions

/-- The types a system is built from: database states, row identifiers, process memory, labels of
commits, and questions to and answers of an outside service. -/
structure Sorts where
  DB : Type
  Key : Type
  Mem : Type
  Label : Type
  Query : Type
  Answer : Type

/-- A lock on one row: exclusive (`FOR UPDATE`, `UPDATE`, `DELETE`, `INSERT`) or shared. -/
structure RowLock (K : Type) where
  key : K
  exclusive : Bool

/-- Two locks on one row conflict unless both are shared. -/
def RowLock.Conflicts {K : Type} (a b : RowLock K) : Prop :=
  a.key = b.key ∧ (a.exclusive = true ∨ b.exclusive = true)

instance {K : Type} [DecidableEq K] (a b : RowLock K) : Decidable (a.Conflicts b) :=
  inferInstanceAs (Decidable (_ ∧ _))

/-- No lock of the one list conflicts with a lock of the other. -/
def Compatible {K : Type} (as bs : List (RowLock K)) : Prop :=
  ∀ a ∈ as, ∀ b ∈ bs, ¬ a.Conflicts b

instance {K : Type} [DecidableEq K] (as bs : List (RowLock K)) : Decidable (Compatible as bs) :=
  inferInstanceAs (Decidable (∀ a ∈ as, ∀ b ∈ bs, ¬ a.Conflicts b))

/-- The actions of a program. -/
inductive Act (S : Sorts) : Type → Type 1
  /-- A snapshot: `f` is given the number of commits before it and the state it sees. -/
  | query {β : Type} (f : ℕ → S.DB → β) : Act S β
  /-- A statement on rows it locks, with a result and the row writes it leaves pending. -/
  | exec {β : Type} (locks : List (RowLock S.Key)) (f : S.DB → β × List (S.DB → S.DB)) : Act S β
  | commit (label : S.Label) : Act S Unit
  | rollback : Act S Unit
  | now : Act S ℤ
  | fresh : Act S ℕ
  | ask (q : S.Query) : Act S S.Answer
  /-- An atomic access to the process memory, which waits while `f` gives `none`. -/
  | mem {β : Type} (f : ℕ → S.Mem → Option (β × S.Mem)) : Act S β

/-! ### Actions as programs -/

section

variable {S : Sorts} {ε β : Type}

/-- Take a snapshot. -/
def query (f : ℕ → S.DB → β) : Prog (Act S) ε β := .perform (.query f)

/-- Run a statement on the rows it locks. -/
def exec (locks : List (RowLock S.Key)) (f : S.DB → β × List (S.DB → S.DB)) :
    Prog (Act S) ε β :=
  .perform (.exec locks f)

/-- Commit the open transaction under a label. -/
def commit (label : S.Label) : Prog (Act S) ε Unit := .perform (.commit label)

/-- Roll the open transaction back. -/
def rollback : Prog (Act S) ε Unit := .perform .rollback

/-- Read the clock. -/
def now : Prog (Act S) ε ℤ := .perform .now

/-- Draw a number never drawn before. -/
def fresh : Prog (Act S) ε ℕ := .perform .fresh

/-- Ask the outside service. -/
def ask (q : S.Query) : Prog (Act S) ε S.Answer := .perform (.ask q)

/-- Access the process memory. -/
def access (f : ℕ → S.Mem → Option (β × S.Mem)) : Prog (Act S) ε β := .perform (.mem f)

/-- A database session around a program: what it leaves uncommitted is rolled back. -/
def withSession (p : Prog (Act S) ε β) : Prog (Act S) ε β := p.ensuring rollback

end

/-- One commit: the thread (`none` is the environment), its label, the number of commits before
the first statement of the transaction, and the state it left. -/
structure Entry (S : Sorts) where
  tid : Option ℕ
  label : S.Label
  began : ℕ
  db : S.DB

/-- The committed state after the commits `h` on the initial state `base`. -/
@[irreducible] def after {S : Sorts} (base : S.DB) (h : List (Entry S)) : S.DB :=
  match h.getLast? with
  | some e => e.db
  | none => base

/-- What the threads share. The clock readings, the drawn numbers and the questions asked are
recorded with the thread they belong to; the next number drawn is the number of draws so far. -/
structure Shared (S : Sorts) where
  base : S.DB
  history : List (Entry S)
  clock : ℤ
  readings : List (ℕ × ℤ)
  drawn : List (Option ℕ)
  asks : List (ℕ × S.Query × S.Answer)
  mem : S.Mem

/-- The latest committed state. -/
def Shared.current {S : Sorts} (g : Shared S) : S.DB := after g.base g.history

/-- The committed state after the first `n` commits. -/
def Shared.stateAt {S : Sorts} (g : Shared S) (n : ℕ) : S.DB := after g.base (g.history.take n)

/-- A database session: pending row writes in order, locks held, and the number of commits before
the first statement of the open transaction. -/
structure Session (S : Sorts) where
  pending : List (S.DB → S.DB) := []
  held : List (RowLock S.Key) := []
  began : Option ℕ := none

/-- What a statement of the session sees of a committed state. -/
def Session.view {S : Sorts} (l : Session S) (db : S.DB) : S.DB :=
  l.pending.foldl (fun d w => w d) db

/-- The session after a statement that follows `n` commits. -/
def Session.touch {S : Sorts} (l : Session S) (n : ℕ) : Session S :=
  { l with began := some (l.began.getD n) }

/-- The session after a statement that follows `n` commits, locks rows and leaves row writes
pending. -/
def Session.exec {S : Sorts} (l : Session S) (n : ℕ) (locks : List (RowLock S.Key))
    (writes : List (S.DB → S.DB)) : Session S :=
  { l.touch n with pending := l.pending ++ writes, held := locks ++ l.held }

namespace Session

variable {S : Sorts} (l : Session S) (n : ℕ) (locks : List (RowLock S.Key))
  (writes : List (S.DB → S.DB))

@[simp] theorem touch_held : (l.touch n).held = l.held := rfl

@[simp] theorem touch_view : (l.touch n).view = l.view := rfl

@[simp] theorem exec_held : (l.exec n locks writes).held = locks ++ l.held := rfl

@[simp] theorem exec_view (db : S.DB) :
    (l.exec n locks writes).view db = writes.foldl (fun d w => w d) (l.view db) :=
  List.foldl_append

@[simp] theorem view_empty (db : S.DB) : ({} : Session S).view db = db := rfl

variable {l} {b : ℕ}

/-- The first statement of a transaction fixes its beginning. -/
theorem touch_began (h : l.began = some b) : (l.touch n).began = some b := by
  rw [touch, h, Option.getD_some]

theorem exec_began (h : l.began = some b) : (l.exec n locks writes).began = some b :=
  touch_began n h

end Session

/-- The locks an action asks for. -/
def Act.locks {S : Sorts} {β : Type} : Act S β → List (RowLock S.Key)
  | .exec locks _ => locks
  | _ => []

/-- The effect of an action of thread `t`, once its locks are granted; `answer` is the answer of
the outside service, if the action asks for one. -/
def Act.run {S : Sorts} {β : Type} (t : ℕ) (answer : S.Answer) :
    Act S β → Session S → Shared S → Option (β × Session S × Shared S)
  | .query f, l, g => some (f g.history.length (l.view g.current), l.touch g.history.length, g)
  | .exec locks f, l, g =>
      let out := f (l.view g.current)
      some (out.1, l.exec g.history.length locks out.2, g)
  | .commit label, l, g =>
      some ((), {}, { g with history := g.history ++
        [⟨some t, label, l.began.getD g.history.length, l.view g.current⟩] })
  | .rollback, _, g => some ((), {}, g)
  | .now, l, g => some (g.clock, l, { g with readings := g.readings ++ [(t, g.clock)] })
  | .fresh, l, g => some (g.drawn.length, l, { g with drawn := g.drawn ++ [some t] })
  | .ask q, l, g => some (answer, l, { g with asks := g.asks ++ [(t, q, answer)] })
  | .mem f, l, g => (f t g.mem).map fun out => (out.1, l, { g with mem := out.2 })

/-- A thread: the call it runs, the number of commits before it started, the program left to run
(`none` once it was killed) and its session. -/
structure Thread (S : Sorts) (Call ε α : Type) where
  call : Call
  started : ℕ
  prog : Option (Prog (Act S) ε α)
  session : Session S

/-- The value a thread has returned. -/
def Thread.returned? {S : Sorts} {Call ε α : Type} (th : Thread S Call ε α) : Option α :=
  th.prog.bind Prog.returned?

/-- The error a thread has raised. -/
def Thread.raised? {S : Sorts} {Call ε α : Type} (th : Thread S Call ε α) : Option ε :=
  th.prog.bind Prog.raised?

theorem Thread.prog_of_returned? {S : Sorts} {Call ε α : Type} {th : Thread S Call ε α} {a : α}
    (h : th.returned? = some a) : th.prog = some (.ret a) := by
  obtain ⟨p, hp, hret⟩ := Option.bind_eq_some_iff.1 h
  rw [hp, Prog.eq_ret_of_returned? hret]

theorem Thread.prog_of_raised? {S : Sorts} {Call ε α : Type} {th : Thread S Call ε α} {e : ε}
    (h : th.raised? = some e) : th.prog = some (.raise e) := by
  obtain ⟨p, hp, hraise⟩ := Option.bind_eq_some_iff.1 h
  rw [hp, Prog.eq_raise_of_raised? hraise]

/-- A state of the whole system. Threads are named by their position. -/
structure Config (S : Sorts) (Call ε α : Type) where
  shared : Shared S
  threads : List (Thread S Call ε α)

/-- A thread of which the call and the error are known. -/
theorem Config.exists_raised {S : Sorts} {Call ε α : Type} {c : Config S Call ε α} {t : ℕ}
    {call : Call} {e : ε} (hcall : (c.threads[t]?).map (·.call) = some call)
    (hend : (c.threads[t]?).map Thread.raised? = some (some e)) :
    ∃ th, c.threads[t]? = some th ∧ th.call = call ∧ th.prog = some (.raise e) := by
  obtain ⟨th, hth, hcall⟩ := Option.map_eq_some_iff.1 hcall
  rw [hth] at hend
  exact ⟨th, hth, hcall, Thread.prog_of_raised? (Option.some.inj hend)⟩

/-- A thread of which the call and the result are known. -/
theorem Config.exists_returned {S : Sorts} {Call ε α : Type} {c : Config S Call ε α} {t : ℕ}
    {call : Call} {a : α} (hcall : (c.threads[t]?).map (·.call) = some call)
    (hend : (c.threads[t]?).map Thread.returned? = some (some a)) :
    ∃ th, c.threads[t]? = some th ∧ th.call = call ∧ th.prog = some (.ret a) := by
  obtain ⟨th, hth, hcall⟩ := Option.map_eq_some_iff.1 hcall
  rw [hth] at hend
  exact ⟨th, hth, hcall, Thread.prog_of_returned? (Option.some.inj hend)⟩

/-- A system: the program of every call, what killing a thread does to the memory it holds, and
the writes of the environment. -/
structure System (S : Sorts) (Call ε α : Type) where
  body : Call → Prog (Act S) ε α
  release : ℕ → S.Mem → S.Mem
  EnvDb : Type
  envDb : EnvDb → S.DB → S.DB
  envLabel : EnvDb → S.Label
  EnvMem : Type
  envMem : EnvMem → S.Mem → S.Mem

section

variable {S : Sorts} {Call ε α : Type} [DecidableEq S.Key]

/-- Every other thread's locks are compatible with the locks `t` asks for. -/
def Config.Grants (c : Config S Call ε α) (t : ℕ) (locks : List (RowLock S.Key)) : Prop :=
  ∀ u (_ : u < c.threads.length), u ≠ t → Compatible (c.threads[u]).session.held locks

instance (c : Config S Call ε α) (t : ℕ) (locks : List (RowLock S.Key)) :
    Decidable (c.Grants t locks) :=
  inferInstanceAs (Decidable (∀ u (_ : u < c.threads.length), u ≠ t → _))

/-- What can happen next in a system. -/
inductive Action (sys : System S Call ε α)
  | start (call : Call)
  | step (t : ℕ) (answer : S.Answer)
  | kill (t : ℕ)
  | tick (time : ℤ)
  | envDb (e : sys.EnvDb)
  | envMem (e : sys.EnvMem)

/-- One step of a system, if it is possible. -/
def System.next (sys : System S Call ε α) :
    Action sys → Config S Call ε α → Option (Config S Call ε α)
  | .start call, c =>
      some { c with threads := c.threads ++
        [⟨call, c.shared.history.length, some (sys.body call), {}⟩] }
  | .step t answer, c =>
      match c.threads[t]? with
      | some ⟨call, started, some (.act o k), l⟩ =>
          if c.Grants t o.locks then
            (o.run t answer l c.shared).map fun out =>
              ⟨out.2.2, c.threads.set t ⟨call, started, some (k out.1), out.2.1⟩⟩
          else none
      | _ => none
  | .kill t, c =>
      match c.threads[t]? with
      | some ⟨call, started, some (.act _ _), _⟩ =>
          some ⟨{ c.shared with mem := sys.release t c.shared.mem },
            c.threads.set t ⟨call, started, none, {}⟩⟩
      | _ => none
  | .tick time, c => some { c with shared := { c.shared with clock := time } }
  | .envDb e, c =>
      some { c with shared := { c.shared with history := c.shared.history ++
        [⟨none, sys.envLabel e, c.shared.history.length, sys.envDb e c.shared.current⟩] } }
  | .envMem e, c => some { c with shared := { c.shared with mem := sys.envMem e c.shared.mem } }

/-- One step of a system. -/
def System.Step (sys : System S Call ε α) (c c' : Config S Call ε α) : Prop :=
  ∃ a, sys.next a c = some c'

/-- Any number of steps of a system. -/
def System.Steps (sys : System S Call ε α) : Config S Call ε α → Config S Call ε α → Prop :=
  Relation.ReflTransGen sys.Step

/-- The states of a system reached from a shared state in `Init`, where no thread has started. -/
def System.Reachable (sys : System S Call ε α) (Init : Shared S → Prop)
    (c : Config S Call ε α) : Prop :=
  ∃ g, Init g ∧ sys.Steps ⟨g, []⟩ c

theorem System.Reachable.steps {sys : System S Call ε α} {Init : Shared S → Prop}
    {c c' : Config S Call ε α} (h : sys.Reachable Init c) (hs : sys.Steps c c') :
    sys.Reachable Init c' := by
  obtain ⟨g, hg, hc⟩ := h
  exact ⟨g, hg, hc.trans hs⟩

/-! ### Scripted runs -/

/-- Let thread `t` act, one action for each answer it may need, until it ends or has to wait. -/
def System.drive (sys : System S Call ε α) (t : ℕ) :
    List S.Answer → Config S Call ε α → Config S Call ε α
  | [], c => c
  | answer :: answers, c =>
      match sys.next (.step t answer) c with
      | some c' => sys.drive t answers c'
      | none => c

/-- A line of a script: start a call and let it act, let a started call act, kill it, or set the
clock. -/
inductive Cue (S : Sorts) (Call : Type)
  | call (call : Call) (answers : List S.Answer)
  | resume (t : ℕ) (answers : List S.Answer)
  | kill (t : ℕ)
  | tick (time : ℤ)

/-- Play one line of a script. -/
def System.cue (sys : System S Call ε α) (c : Config S Call ε α) :
    Cue S Call → Config S Call ε α
  | .call call answers => sys.drive c.threads.length answers
      { c with threads := c.threads ++
        [⟨call, c.shared.history.length, some (sys.body call), {}⟩] }
  | .resume t answers => sys.drive t answers c
  | .kill t => (sys.next (.kill t) c).getD c
  | .tick time => { c with shared := { c.shared with clock := time } }

/-- Play a script. -/
def System.play (sys : System S Call ε α) (script : List (Cue S Call)) (g : Shared S) :
    Config S Call ε α :=
  script.foldl sys.cue ⟨g, []⟩

theorem System.steps_drive (sys : System S Call ε α) (t : ℕ) (answers : List S.Answer)
    (c : Config S Call ε α) : sys.Steps c (sys.drive t answers c) := by
  induction answers generalizing c with
  | nil => exact .refl
  | cons answer answers ih =>
    rw [System.drive]
    split
    · rename_i c' hnext
      exact .head ⟨_, hnext⟩ (ih c')
    · exact .refl

theorem System.steps_cue (sys : System S Call ε α) (c : Config S Call ε α) (q : Cue S Call) :
    sys.Steps c (sys.cue c q) := by
  cases q with
  | call call answers => exact .head ⟨.start call, rfl⟩ (sys.steps_drive _ answers _)
  | resume t answers => exact sys.steps_drive t answers c
  | kill t =>
    cases hnext : sys.next (.kill t) c with
    | none => rw [System.cue, hnext]; exact .refl
    | some c' => rw [System.cue, hnext]; exact .single ⟨_, hnext⟩
  | tick time => exact .single ⟨.tick time, rfl⟩

/-- What a script leads to is reachable. -/
theorem System.reachable_play {sys : System S Call ε α} {Init : Shared S → Prop} {g : Shared S}
    (hg : Init g) (script : List (Cue S Call)) : sys.Reachable Init (sys.play script g) := by
  have steps : ∀ c, sys.Steps c (script.foldl sys.cue c) := by
    induction script with
    | nil => exact fun _ => .refl
    | cons q script ih => exact fun c => (sys.steps_cue c q).trans (ih _)
  exact ⟨g, hg, steps _⟩

end

end Transactions
