import Less.Function.Registry
import Less.Sheet

/-!
# Scopes

An expression is evaluated in a scope: a chain of containers, the innermost first, the functions it may call, and
the names of the variables whose values are being computed.

* A **variable** is looked up from the inside outward.
* The **rule sets** of a selector are those of the innermost container that has any; it hides all others.
-/

namespace Less

/-- Where an expression is evaluated. -/
structure Scope where
  frames : List Container
  functions : Registry
  resolving : List String := []

namespace Scope

/-- A scope without containers. -/
def root (functions : Registry) : Scope :=
  { frames := [], functions }

/-- The scope inside a container. -/
def child (scope : Scope) (c : Container) : Scope :=
  { scope with frames := c :: scope.frames }

/-- The scope in which the value of a variable is computed. -/
def enter (scope : Scope) (name : String) : Scope :=
  { scope with resolving := name :: scope.resolving }

/-- The value of the variable is being computed. -/
def isResolving (scope : Scope) (name : String) : Bool :=
  scope.resolving.contains name

/-- The value of a variable in the innermost container that has it. -/
def getVar? (scope : Scope) (name : String) : Option Expr :=
  scope.frames.findSome? (·.getVar? name)

/-- The rule sets of a selector in the first container of a chain that has any. -/
def ruleSetsIn : List Container → Selector → List RuleSet
  | [], _ => []
  | c :: outer, s =>
    match c.ruleSets s with
    | [] => ruleSetsIn outer s
    | found => found

/-- The rule sets of a selector that are visible here. -/
def ruleSets (scope : Scope) (s : Selector) : List RuleSet :=
  ruleSetsIn scope.frames s

end Scope

end Less
