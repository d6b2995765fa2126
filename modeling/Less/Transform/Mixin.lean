import Less.Eval
import Less.Reporting

/-!
# Expansion of rule sets

`expand` evaluates the variables and declarations of a rule set and splices in what its mixin calls contribute.
Nested rule sets are left as they are.

A rule set without mixin calls is evaluated against its own container. With mixin calls, the calls are expanded first,
each into the container that is being built: the variables of the expanded mixin are set there, its nested rule sets
are added there, and its declarations stand in the place of the call. Then the rule set's own declarations are
evaluated against that container.

A call fails, in this order, if the mixin is being expanded already, if no rule set has its selector, if it has more
arguments than the selected rule set has parameters, or if an argument cannot be evaluated. A failed call is reported
and contributes nothing.
-/

namespace Less.Transform

/-- Evaluates an expression; a faulty one is reported, at the given position if its error has none, and stays as it
is. -/
def resolve (n : Nat) (scope : Scope) (position : Option Position) (value : Expr) : Reporting Expr := do
  match ← Reporting.attempt (value.eval n scope) with
  | .ok result => return result
  | .error e =>
    Reporting.report (e.locate position)
    return value

/-- Evaluates the variables of a container inside it. -/
def resolveVariables (n : Nat) (scope : Scope) (source : Container) : Reporting (Bindings Expr) := do
  let entries ← source.vars.entries.mapM fun (name, value) => do
    return (name, ← resolve n (scope.child source) value.position value)
  return .ofList entries

/-- Evaluates the pieces of a declaration. -/
def resolveDeclaration (n : Nat) (scope : Scope) (d : Declaration) : Reporting Declaration := do
  return { d with values := ← d.values.mapM (resolve n scope d.position) }

/-! ## Mixin calls -/

/-- The rule set a call expands: the first that accepts so many arguments, or else the first. -/
def selectMixin (candidates : List RuleSet) (count : Nat) : Option RuleSet :=
  (candidates.find? (·.accepts count)).or candidates.head?

/-- Sets each parameter to its argument, or to its default if there is no argument left. -/
def bindParameters : List (String × Option Expr) → List Expr → Container → Container
  | [], _, c => c
  | (name, default) :: params, arguments, c =>
    match arguments.head?.or default with
    | some value => bindParameters params arguments.tail (c.setVariable name value)
    | none => bindParameters params arguments.tail c

/-- The copy of a mixin that a call expands, with its parameters set as variables. -/
def instantiate (mixin : RuleSet) (arguments : List Expr) : RuleSet :=
  match mixin.params with
  | some params =>
    { mixin with params := none, container := bindParameters params.entries arguments mixin.container }
  | none => mixin

/-- The copy of a mixin that a call from a rule set with the container `source` expands into the container `dest`,
or nothing if the call failed. -/
def prepareCall (n : Nat) (active : List Selector) (scope : Scope) (source dest : Container) (call : MixinCall) :
    Reporting (Option RuleSet) := do
  let fail (e : Error) : Reporting (Option RuleSet) := do
    Reporting.report (e.locate call.position)
    return none
  if active.contains call.selector then fail (.recursiveMixin call.selector.text)
  else
    let count := call.arguments.length
    match selectMixin ((scope.child source).ruleSets call.selector) count with
    | none => fail (.undefinedMixin call.selector.text)
    | some mixin =>
      if mixin.arity < count then fail (.mixinArity mixin.arity count)
      else
        match ← Reporting.attempt (call.arguments.mapM (Expr.eval n (scope.child dest))) with
        | .error e => fail e
        | .ok arguments => return some (instantiate mixin arguments)

/-- How rule sets are expanded, given the selectors of the mixins that are being expanded. -/
abbrev Expander := List Selector → Scope → RuleSet → Reporting RuleSet

/-- Expands a call from a rule set with the container `source` into the container `dest`. -/
def expandCall (n : Nat) (expand : Expander) (active : List Selector) (scope : Scope)
    (source dest : Container) (call : MixinCall) : Reporting (Option RuleSet) := do
  match ← prepareCall n active scope source dest call with
  | none => return none
  | some mixin => some <$> expand (call.selector :: active) (scope.child dest) mixin

/-! ## Declarations and calls of a rule set -/

/-- A declaration that waits for the calls behind it, or one that a mixin contributed. -/
inductive Pending where
  | source (d : Declaration)
  | resolved (d : Declaration)

/-- Takes over the variables and the nested rule sets of an expanded mixin. -/
def absorb (dest : Container) (expanded : RuleSet) : Container :=
  (dest.setVariables expanded.container.vars.entries).addAll
    (expanded.container.childRuleSets.map .ruleSet)

/-- Expands the calls among the items one after the other. -/
def gather (call : Container → MixinCall → Reporting (Option RuleSet)) :
    List Item → Container → Reporting (List Pending × Container)
  | [], dest => return ([], dest)
  | .declaration d :: items, dest => do
    let (pending, dest) ← gather call items dest
    return (.source d :: pending, dest)
  | .mixin c :: items, dest => do
    match ← call dest c with
    | none => gather call items dest
    | some expanded =>
      let (pending, dest) ← gather call items (absorb dest expanded)
      return (expanded.declarations.map .resolved ++ pending, dest)

/-- Evaluates a declaration that waited. -/
def settle (n : Nat) (scope : Scope) : Pending → Reporting Item
  | .source d => Item.declaration <$> resolveDeclaration n scope d
  | .resolved d => return .declaration d

/-- Resolves the items of a rule set or page with the container `source` into the container `dest`. -/
def resolveItems (n : Nat) (expand : Expander) (active : List Selector) (scope : Scope)
    (items : List Item) (source dest : Container) : Reporting (List Item × Container) := do
  if items.any Item.isMixin then
    let (pending, dest) ← gather (expandCall n expand active scope source) items dest
    let resolved ← pending.mapM (settle n (scope.child dest))
    return (resolved, dest)
  else
    let resolved ← (items.filterMap Item.declaration?).mapM fun d =>
      Item.declaration <$> resolveDeclaration n (scope.child source) d
    return (resolved, dest)

/-- A rule set with its variables and declarations evaluated and its mixin calls spliced in. -/
def expand : Nat → Expander
  | 0, _, _, _ => .exhausted
  | n + 1, active, scope, r => do
    let vars ← resolveVariables n scope r.container
    let (items, container) ←
      resolveItems n (expand n) active scope r.items r.container { vars, body := r.container.body }
    return { r with params := none, items, container }

end Less.Transform
