/-!
# Programs over a signature of actions

`Prog A ε α` is a program that performs actions of the signature `A` one after the other and
ends by returning a value of type `α` or by raising an error of type `ε`.  What an action does is
fixed elsewhere; a program only says which action comes next.  An interleaving of several programs
is therefore a choice, at every moment, of the program that performs its next action.
-/

namespace Transactions

/-- Programs over the actions `A`, with errors in `ε` and results in `α`. -/
inductive Prog (A : Type → Type 1) (ε α : Type) : Type 1
  | ret (a : α) : Prog A ε α
  | raise (e : ε) : Prog A ε α
  | act {β : Type} (o : A β) (k : β → Prog A ε α) : Prog A ε α

namespace Prog

variable {A : Type → Type 1} {ε α β : Type}

/-- Run a program and continue with its result; an error ends the whole program. -/
def bind : Prog A ε α → (α → Prog A ε β) → Prog A ε β
  | ret a, f => f a
  | raise e, _ => raise e
  | act o k, f => act o fun b => (k b).bind f

instance : Monad (Prog A ε) where
  pure := ret
  bind := bind

/-- Run a program and continue with `h` when it raises. -/
def handle : Prog A ε α → (ε → Prog A ε α) → Prog A ε α
  | ret a, _ => ret a
  | raise e, h => h e
  | act o k, h => act o fun b => (k b).handle h

instance : MonadExcept ε (Prog A ε) where
  throw := raise
  tryCatch := handle

/-- A single action as a program. -/
def perform (o : A β) : Prog A ε β := act o ret

/-- A program followed by `last`, whether it returns or raises. -/
def ensuring : Prog A ε α → Prog A ε Unit → Prog A ε α
  | ret a, last => last.bind fun _ => ret a
  | raise e, last => last.bind fun _ => raise e
  | act o k, last => act o fun b => (k b).ensuring last

/-- The value of an optional result; its absence is an error. -/
def require (x : Option α) (e : ε) : Prog A ε α :=
  match x with
  | some a => ret a
  | none => raise e

/-- Raise `e` when the condition holds. -/
def rejectIf (c : Prop) [Decidable c] (e : ε) : Prog A ε Unit :=
  if c then raise e else ret ()

/-- The value a program has returned. -/
def returned? : Prog A ε α → Option α
  | ret a => some a
  | _ => none

/-- The error a program has raised. -/
def raised? : Prog A ε α → Option ε
  | raise e => some e
  | _ => none

theorem eq_ret_of_returned? {p : Prog A ε α} {a : α} (h : p.returned? = some a) : p = ret a := by
  cases p with
  | ret b => exact congrArg ret (Option.some.inj h)
  | _ => cases h

theorem eq_raise_of_raised? {p : Prog A ε α} {e : ε} (h : p.raised? = some e) : p = raise e := by
  cases p with
  | raise b => exact congrArg raise (Option.some.inj h)
  | _ => cases h

@[simp] theorem pure_eq (a : α) : (pure a : Prog A ε α) = ret a := rfl

@[simp] theorem throw_eq (e : ε) : (throw e : Prog A ε α) = raise e := rfl

@[simp] theorem bind_eq (p : Prog A ε α) (f : α → Prog A ε β) : p >>= f = p.bind f := rfl

@[simp] theorem ret_bind (a : α) (f : α → Prog A ε β) : (ret a : Prog A ε α).bind f = f a := rfl

@[simp] theorem raise_bind (e : ε) (f : α → Prog A ε β) :
    (raise e : Prog A ε α).bind f = raise e := rfl

@[simp] theorem ret_handle (a : α) (h : ε → Prog A ε α) : (ret a).handle h = ret a := rfl

@[simp] theorem raise_handle (e : ε) (h : ε → Prog A ε α) : (raise e).handle h = h e := rfl

@[simp] theorem perform_bind (o : A β) (f : β → Prog A ε α) : (perform o).bind f = act o f := rfl

@[simp] theorem require_some (a : α) (e : ε) : (require (some a) e : Prog A ε α) = ret a := rfl

@[simp] theorem require_none (e : ε) : (require none e : Prog A ε α) = raise e := rfl

theorem bind_assoc {γ : Type} (p : Prog A ε α) (f : α → Prog A ε β) (g : β → Prog A ε γ) :
    (p.bind f).bind g = p.bind fun a => (f a).bind g := by
  induction p with
  | ret a => rfl
  | raise e => rfl
  | act o k ih => exact congrArg (act o) (funext fun b => ih b)

end Prog

end Transactions
