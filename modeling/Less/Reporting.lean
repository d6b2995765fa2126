import Less.Evaluation

/-!
# Computations with diagnostics

Resolving a sheet goes on after an error: the error is reported and the part it concerns is left as it was. A
`Reporting` computation gives its result with the diagnostics of all its steps in order, or nothing when a bound on
the depth was too small.
-/

namespace Less

/-- A result with the diagnostics reported on the way. -/
def Reporting (α : Type) := Option (α × List Error)

namespace Reporting

variable {α β : Type}

/-- One computation after another; the diagnostics of the first come first. -/
protected def bind (x : Reporting α) (f : α → Reporting β) : Reporting β :=
  match x with
  | none => none
  | some (a, first) =>
    match f a with
    | none => none
    | some (b, second) => some (b, first ++ second)

instance : Monad Reporting where
  pure a := some (a, [])
  bind := Reporting.bind

instance : LawfulMonad Reporting :=
  LawfulMonad.mk' Reporting
    (fun x => by
      match x with
      | none => rfl
      | some (a, ds) => exact congrArg (fun ds => some (a, ds)) (List.append_nil ds))
    (fun a f => by
      show Reporting.bind (some (a, [])) f = f a
      match h : f a with
      | none => simp only [Reporting.bind, h]; rfl
      | some (b, ds) => simp only [Reporting.bind, h, List.nil_append]; rfl)
    (fun x f g => by
      show Reporting.bind (Reporting.bind x f) g = Reporting.bind x fun a => Reporting.bind (f a) g
      match x with
      | none => rfl
      | some (a, ds) =>
        match hf : f a with
        | none => simp only [Reporting.bind, hf]; rfl
        | some (b, es) =>
          match hg : g b with
          | none => simp only [Reporting.bind, hf, hg]; rfl
          | some (c, gs) => simp only [Reporting.bind, hf, hg, List.append_assoc]; rfl)

/-- The bound was too small. -/
def exhausted : Reporting α := none

/-- Reports one diagnostic. -/
def report (e : Error) : Reporting Unit := some ((), [e])

/-- The outcome of an evaluation, without reporting anything. -/
def attempt : Evaluation α → Reporting (Except Error α)
  | .exhausted => none
  | .failed e => some (.error e, [])
  | .done a => some (.ok a, [])

end Reporting

end Less
