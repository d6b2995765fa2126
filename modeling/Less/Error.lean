import Less.Position

/-!
# Errors

Every failure of the compiler is an `Error`: a cause, or a cause with the position it was found at. The wording
of the causes is `Error.message`.

* **`Error.locate`** adds a position to an error that has none. An error that has one keeps it, so an error always
  carries the innermost position, and a summary of a failed compilation carries none.
* **`Error.kind`** is the cause without positions.
-/

namespace Less

/-- What can go wrong while a sheet is read, resolved, imported or written. -/
inductive Error where
  /-- Two operands whose units or kinds do not go together, as they are written. -/
  | unitMismatch (left right : String)
  | divisionByZero
  | undefinedVariable (name : String)
  /-- A variable whose value refers to itself, directly or through others. -/
  | cyclicVariable (name : String)
  | undefinedMixin (selector : String)
  /-- A mixin called while it is being expanded. -/
  | recursiveMixin (selector : String)
  /-- A call with more arguments than the mixin has parameters. -/
  | mixinArity (expected actual : Nat)
  /-- A function refused its arguments. -/
  | function (message : String)
  | undefinedTarget (selector : String)
  /-- An accessor whose selector names several rule sets. -/
  | ambiguousTarget (selector : String) (count : Nat)
  | undefinedMember (selector member : String)
  | importFailed (target reason : String)
  | parse (message : String)
  | io (message : String)
  /-- The diagnostics of a compilation that failed. -/
  | compile (messages : List String)
  | located (position : Position) (cause : Error)
deriving DecidableEq, Repr, Inhabited

namespace Error

/-- The text of an error, with its position in front if it has one. -/
def message : Error → String
  | unitMismatch left right => "Unit mismatch: " ++ left ++ " " ++ right
  | divisionByZero => "Division by zero."
  | undefinedVariable name => "Undefined variable: @" ++ name
  | cyclicVariable name => "Cyclic variable reference: @" ++ name
  | undefinedMixin selector => "Undefined mixin: " ++ selector
  | recursiveMixin selector => "Recursive mixin reference: " ++ selector
  | mixinArity expected actual =>
    "Mixin argument mismatch. Expected maximum of " ++ toString expected ++ " but got "
      ++ toString actual ++ "."
  | function text => text
  | undefinedTarget selector => "Undefined accessor target: " ++ selector
  | ambiguousTarget selector count =>
    "Ambiguous accessor target: " ++ selector ++ " matches " ++ toString count ++ " rule sets"
  | undefinedMember selector member =>
    "Undefined accessor property: " ++ selector ++ "[" ++ member ++ "]"
  | importFailed target reason => "Import error: \"" ++ target ++ "\": " ++ reason
  | parse text => text
  | io text => text
  | compile messages =>
    toString messages.length ++ " error(s) reported:\n" ++ String.intercalate "\n" messages
  | located position cause => position.text ++ " - " ++ cause.message

/-- Adds a position, if there is one to add and the error takes one. -/
def locate (e : Error) (position : Option Position) : Error :=
  match e, position with
  | located p cause, _ => located p cause
  | compile messages, _ => compile messages
  | e, some p => located p e
  | e, none => e

/-- The outermost position of an error. -/
def position? : Error → Option Position
  | located position _ => some position
  | _ => none

/-- The cause of an error without its positions. -/
def kind : Error → Error
  | located _ cause => cause.kind
  | e => e

/-- A parse error at a position. -/
def parseAt (text : String) (position : Position) : Error :=
  located position (parse text)

end Error

end Less
