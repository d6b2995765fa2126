import Less.Expr

/-!
# Arguments of functions

The checks built-in functions make on their arguments. A refused argument is reported at its own position; its place
is counted from 1.
-/

namespace Less.Argument

/-- The error of a call with a wrong number of arguments. -/
def arityError (name : String) : Error :=
  .function ("Invalid number of arguments for function '" ++ name ++ "'")

/-- The error of an argument that is not what the function expects. -/
def kindError (name : String) (place : Nat) (expected : String) (argument : Expr) : Error :=
  (Error.function ("Argument " ++ toString place ++ " for function '" ++ name ++ "' must be " ++ expected
    ++ ": " ++ argument.text)).locate argument.position

/-- An argument that must be a color. -/
def color (name : String) (place : Nat) (argument : Expr) : Except Error Color :=
  match argument.constant? with
  | some (.color c) => .ok c
  | _ => .error (kindError name place "a color" argument)

/-- An argument that must be a number. -/
def number (name : String) (place : Nat) (argument : Expr) : Except Error Number :=
  match argument.constant? with
  | some (.number n) => .ok n
  | _ => .error (kindError name place "a number" argument)

/-- An argument that must be a percentage, with or without its sign, as a share. -/
def percentage (name : String) (place : Nat) (argument : Expr) : Except Error Float :=
  match argument.constant? with
  | some (.number n) =>
    if n.isUnitless || n.isPercent then .ok (n.value / 100.0)
    else .error (kindError name place "a percentage" argument)
  | _ => .error (kindError name place "a percentage" argument)

/-- An argument that must be a number, as a component of a color. -/
def component (name : String) (place : Nat) (argument : Expr) : Except Error Color.Component := do
  let n ← number name place argument
  return ⟨n.value, n.isPercent⟩

end Less.Argument
