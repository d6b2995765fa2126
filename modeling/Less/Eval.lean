import Less.Evaluation
import Less.Scope

/-!
# Evaluation of expressions

`eval` computes the value of an expression in a scope. A variable is evaluated where it is used, not where it is
defined; a variable met while its own value is being computed is an error. An accessor evaluates a variable or a
declaration of another rule set inside that rule set, which may go on without end, so `eval` is given a bound on the
depth of its recursion. A value that is found within one bound is found within every larger one. `evaluate` uses a
bound far beyond the depth of any expression that is written by hand.
-/

namespace Less

namespace Expr

/-- Evaluates the arguments of a call, separators left out, and calls the function. -/
def invoke (eval : Expr → Evaluation Expr) (functions : Registry) (name : String)
    (arguments : List Expr) : Evaluation Expr := do
  let values ← (arguments.filter fun a => !a.isSeparator).mapM eval
  .ofExcept (functions.call name values)

/-- The value of an operation on values: a constant if both are, and otherwise the operation itself. -/
def applyTo (op : Operator) (left right : Expr) (position : Option Position) : Except Error Expr :=
  match left.constant?, right.constant? with
  | some a, some b =>
    match Value.apply op a b with
    | .ok value => .ok (constant value position)
    | .error e => .error (e.locate (left.position.or position))
  | _, _ => .ok (binary op left right position)

/-- The one rule set an accessor may read. -/
def target (scope : Scope) (selector : Selector) : Except Error RuleSet :=
  match scope.ruleSets selector with
  | [] => .error (.undefinedTarget selector.text)
  | [r] => .ok r
  | many => .error (.ambiguousTarget selector.text many.length)

/-- The value of an expression in a scope, within a bound on the depth of the recursion. -/
def eval : Nat → Scope → Expr → Evaluation Expr
  | 0, _, _ => .exhausted
  | _ + 1, _, constant value p => pure (constant value p)
  | _ + 1, _, literal s p => pure (literal s p)
  | n + 1, scope, var name p =>
    if scope.isResolving name then .failed ((Error.cyclicVariable name).locate p)
    else
      match scope.getVar? name with
      | none => .failed ((Error.undefinedVariable name).locate p)
      | some value => (eval n (scope.enter name) value).locate p
  | n + 1, scope, list items p => do
    match ← items.mapM (eval n scope) with
    | [value] => return value
    | values => return literal (textOfAll values) p
  | n + 1, scope, call name arguments p =>
    Evaluation.locate p do
      let value ← invoke (eval n scope) scope.functions name arguments
      return value.withPosition p
  | n + 1, scope, access selector member p =>
    Evaluation.locate p do
      let ruleSet ← .ofExcept (target scope selector)
      let inner := scope.child ruleSet.container
      let missing := Error.undefinedMember selector.text member.label
      match member with
      | .var name =>
        match ruleSet.container.getVar? name with
        | none => .failed missing
        | some value => eval n inner value
      | .property name =>
        match ruleSet.declaration? name with
        | none => .failed missing
        | some declaration =>
          match ← declaration.values.mapM (eval n inner) with
          | [value] => return value
          | values => return literal (trimText (textOfAll values)) p
  | n + 1, scope, binary op left right p => do
    let left ← eval n scope left
    let right ← eval n scope right
    .ofExcept (applyTo op left right p)

end Expr

/-- The bound on the depth of evaluation and expansion. -/
def depthLimit : Nat := 1000000

namespace Scope

/-- The value of an expression. -/
def evaluate (scope : Scope) (e : Expr) : Evaluation Expr :=
  Expr.eval depthLimit scope e

/-- The value of a call of a function. -/
def evaluateCall (scope : Scope) (name : String) (arguments : List Expr) : Evaluation Expr :=
  Expr.invoke scope.evaluate scope.functions name arguments

end Scope

end Less
