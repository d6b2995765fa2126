import Less.Transform.Mixin

/-!
# Resolution of sheets

`transform` turns a sheet into one without variables to look up, mixin calls and nested rule sets.

* A rule set becomes its expansion followed by its nested rule sets, whose selectors are combined with those of the
  rule set around them. Definitions of mixins stay as they are.
* The elements of a sheet or block are resolved one after the other, each in a scope in which the variables are
  evaluated already and the elements before it are resolved. Around that scope stands the unresolved sheet, so that a
  mixin can be called before its definition.
-/

namespace Less.Transform

/-- Resolves the nested rule sets of an expanded rule set and combines their selectors with its own. -/
def flatten (transform : Scope → RuleSet → Reporting (List RuleSet)) (scope : Scope) (dest : RuleSet) :
    Reporting (List RuleSet) := do
  let children := dest.container.childRuleSets.filter fun child => !child.isMixin
  let produced ← children.mapM (transform (scope.child dest.container))
  return produced.flatten.map fun r =>
    { r with selectors := Selector.combineAll dest.selectors r.selectors }

/-- The rule sets that take the place of a rule set: itself and its nested ones. -/
def transformRuleSet : Nat → Scope → RuleSet → Reporting (List RuleSet)
  | 0, _, _ => .exhausted
  | n + 1, scope, r => do
    if r.isMixin then return [r]
    else
      let dest ← expand n [] scope r
      let nested ← flatten (transformRuleSet n) scope dest
      return dest :: nested

/-- Resolves elements one after the other into a container. -/
def transformBody (transform : Scope → Element → Reporting (List Element)) (parent : Scope) :
    List Element → Container → Reporting Container
  | [], dest => return dest
  | e :: es, dest => do
    let produced ← transform (parent.child dest) e
    transformBody transform parent es (dest.addAll produced)

/-- Resolves a page. -/
def transformPage (n : Nat) (scope : Scope) (p : Page) : Reporting Page := do
  let vars ← resolveVariables n scope p.container
  let (items, container) ← resolveItems n (expand n) [] scope p.items p.container { vars, body := [] }
  return { p with items, container }

/-- Resolves the container of a block. -/
def transformContainer (n : Nat) (transform : Scope → Element → Reporting (List Element)) (scope parent : Scope)
    (c : Container) : Reporting Container := do
  let vars ← resolveVariables n scope c
  transformBody transform parent c.body { vars, body := [] }

/-- The elements that take the place of an element. -/
def transformElement : Nat → Scope → Element → Reporting (List Element)
  | 0, _, _ => .exhausted
  | n + 1, scope, .ruleSet r => do
    return (← transformRuleSet n scope r).map .ruleSet
  | n + 1, scope, .media m => do
    let container ← transformContainer n (transformElement n) scope scope m.container
    return [.media { m with container }]
  | n + 1, scope, .page p => do
    return [.page (← transformPage n scope p)]
  | n + 1, scope, .keyframes k => do
    let container ← transformContainer n (transformElement n) scope scope k.container
    return [.keyframes { k with container }]

/-- A sheet resolved within a bound on the depth. -/
def transformSheet (n : Nat) (functions : Registry) (sheet : Sheet) : Reporting Sheet := do
  let root := Scope.root functions
  let container ←
    transformContainer n (transformElement n) root (root.child sheet.container) sheet.container
  return { sheet with container }

end Less.Transform

namespace Less.Sheet

/-- A sheet resolved, with the diagnostics met on the way. -/
def transform (functions : Registry) (sheet : Sheet) : Option (Sheet × List Error) :=
  Transform.transformSheet depthLimit functions sheet

end Less.Sheet
