import Less.Error

/-!
# Outcomes of evaluation

Evaluation may fail, and with accessors it may go on without end, so it is given a bound on its depth. Its outcome is
a value, an error, or that the bound was too small. Steps are put together as in any monad: the first step that gives
no value decides.
-/

namespace Less

/-- The outcome of an evaluation within a bound. -/
inductive Evaluation (α : Type) where
  /-- The bound was too small. -/
  | exhausted
  | failed (e : Error)
  | done (value : α)
deriving DecidableEq, Repr

namespace Evaluation

variable {α β : Type}

/-- Goes on with a value. -/
protected def bind (x : Evaluation α) (f : α → Evaluation β) : Evaluation β :=
  match x with
  | exhausted => exhausted
  | failed e => failed e
  | done a => f a

instance : Monad Evaluation where
  pure := done
  bind := Evaluation.bind

@[simp] theorem pure_eq (a : α) : (pure a : Evaluation α) = done a := rfl

@[simp] theorem done_bind (a : α) (f : α → Evaluation β) : (done a >>= f) = f a := rfl

@[simp] theorem failed_bind (e : Error) (f : α → Evaluation β) : (failed e >>= f) = failed e := rfl

@[simp] theorem exhausted_bind (f : α → Evaluation β) : (exhausted >>= f) = exhausted := rfl

instance : LawfulMonad Evaluation :=
  LawfulMonad.mk' Evaluation
    (fun x => by cases x <;> rfl)
    (fun _ _ => rfl)
    (fun x _ _ => by cases x <;> rfl)

/-- The outcome of a step that needs no bound. -/
def ofExcept : Except Error α → Evaluation α
  | .ok a => done a
  | .error e => failed e

/-- Puts a position on an error that has none. -/
def locate (position : Option Position) : Evaluation α → Evaluation α
  | failed e => failed (e.locate position)
  | x => x

end Evaluation

end Less
