import Less.Bindings
import Less.Expr
import Less.Text.Escaped

/-!
# Functions by name

A function of the language takes the name it was called by and its evaluated arguments. The registry keeps functions
by name in the order of registration; registering a name again replaces its function in place.
-/

namespace Less

/-- A function on evaluated arguments, which also learns its name. -/
abbrev Function := String → List Expr → Except Error Expr

/-- The functions that expressions may call. -/
structure Registry where
  functions : Bindings Function
deriving Inhabited

namespace Registry

/-- A registry without functions. -/
def empty : Registry := ⟨.empty⟩

/-- Adds a function or replaces the one of the same name. -/
def register (r : Registry) (name : String) (f : Function) : Registry :=
  ⟨r.functions.set name f⟩

/-- The function of a name. -/
def get? (r : Registry) (name : String) : Option Function :=
  r.functions.get? name

/-- The name has a function. -/
def contains (r : Registry) (name : String) : Bool :=
  r.functions.contains name

/-- The names in the order of registration. -/
def names (r : Registry) : List String :=
  r.functions.names

/-- The names as a list of quoted texts. -/
def listing (r : Registry) : String :=
  "[" ++ String.intercalate ", " (r.names.map fun name => String.ofList (Text.escape name.toList)) ++ "]"

/-- Calls the function of a name; an unknown one gives back the call itself. -/
def call (r : Registry) (name : String) (arguments : List Expr) : Except Error Expr :=
  match r.get? name with
  | some f => f name arguments
  | none => .ok (.call name arguments none)

end Registry

end Less
