import Less.Parse.Value
import Less.Sheet

/-!
# Blocks

A block is a list of entries between braces: definitions of variables, declarations and mixin calls, rule sets and
definitions of mixins. `Block.ofEntries` gathers the entries.

* In the block of a **rule set** all of them may occur, and rule sets nest.
* In the block of a **page** no rule set may occur.
* In the block of **media** and **keyframes** only variables, pages, rule sets and definitions of mixins may occur.
-/

namespace Less.Parse

open Less.Text

/-- An entry of a block. -/
inductive Entry where
  | variable (name : String) (value : Expr)
  | item (i : Item)
  | element (e : Element)

/-- The contents of a block. -/
structure Block where
  items : List Item := []
  container : Container := .empty

namespace Block

/-- Adds an entry at the end. -/
def add (b : Block) : Entry → Block
  | .variable name value => { b with container := b.container.setVariable name value }
  | .item i => { b with items := b.items ++ [i] }
  | .element e => { b with container := b.container.add e }

/-- The block with these entries. -/
def ofEntries (entries : List Entry) : Block :=
  entries.foldl add {}

end Block

/-- The stops of the value of a variable or a declaration. -/
def statementStops : List Char := [';', '}']

/-- The stops of an argument of a mixin. -/
def argumentStops : List Char := [',', ';', ')']

namespace Cursor

/-! ## Variables and declarations -/

/-- The definition of a variable. -/
def variableDefinition (c : Cursor) : Except Fault (Parsed (String × Expr)) := do
  let start := c.position
  let c ← c.expect '@'
  let (name, c) := c.name
  let c ← c.skipTrivia.expect ':'
  let (value, c) ← c.value statementStops
  return ((name, Expr.ofItems value.items start), c.skip ';')

/-- Characters that end the name of a property. -/
def endsProperty (ch : Char) : Bool :=
  ch == ':' || ch == ';' || ch == '{' || ch == '}'

/-- A declaration. -/
def declaration (c : Cursor) : Except Fault (Parsed Declaration) := do
  let start := c.position
  let (taken, after) := c.takeWhile (!endsProperty ·)
  let property := trim taken
  if property = [] then c.fail .expectedPropertyName
  else
    let after ← after.skipTrivia.expect ':'
    let (value, after) ← after.value statementStops
    let declaration : Declaration :=
      { property := String.ofList property
        values := value.items
        important := value.important
        position := some start }
    return (declaration, after.skip ';')

/-! ## Mixins -/

/-- The parameters of a mixin behind the opening parenthesis. -/
def parametersFrom : Nat → Parameters → Cursor → Except Fault (Parsed Parameters)
  | 0, _, c => c.fail .exhausted
  | n + 1, params, c => do
    let c := c.skipTrivia
    match c.accept? ')' with
    | some c => return (params, c)
    | none =>
      let start := c.position
      let after ← c.expect '@'
      let (name, after) := after.name
      if name = "" then c.fail .expectedParameterName
      else
        let after := after.skipTrivia
        let (default, after) ←
          match after.accept? ':' with
          | none => pure (none, after)
          | some after => do
            let (value, after) ← after.value argumentStops
            pure (some (Expr.ofItems value.items start), after)
        let params := params.set name default
        let after := after.skipTrivia
        match after.peek? with
        | some ',' | some ';' => parametersFrom n params after.advance
        | some ')' => return (params, after.advance)
        | _ => after.advance.fail .expectedParameterEnd

/-- The parameters of a mixin in parentheses. -/
def parameters (c : Cursor) : Except Fault (Parsed Parameters) := do
  let c ← c.expect '('
  parametersFrom (c.rest.length + 1) .empty c

/-- The arguments of a mixin call behind the opening parenthesis. -/
def callArgumentsFrom : Nat → Cursor → Except Fault (Parsed (List Expr))
  | 0, c => c.fail .exhausted
  | n + 1, c => do
    let c := c.skipTrivia
    match c.accept? ')' with
    | some c => return ([], c)
    | none =>
      let (value, after) ← c.value argumentStops
      let argument := Expr.ofItems value.items c.position
      match after.peek? with
      | some ',' | some ';' =>
        let (more, after) ← callArgumentsFrom n after.advance
        return (argument :: more, after)
      | some ')' => return ([argument], after.advance)
      | _ => after.advance.fail .expectedArgumentEnd

/-- A mixin call. -/
def mixinCall (c : Cursor) : Except Fault (Parsed MixinCall) := do
  let start := c.position
  let (name, c) ← c.mixinName
  let c := c.skipTrivia
  let (arguments, c) ←
    match c.accept? '(' with
    | none => pure ([], c)
    | some c => callArgumentsFrom (c.rest.length + 1) c
  let call : MixinCall := { selector := .ofText name, arguments, position := some start }
  return (call, c.skipTrivia.skip ';')

/-- The name, the parameters and the guard of a mixin, up to its block. The guard is not looked at. -/
def mixinHead (c : Cursor) : Except Fault (Parsed (Selector × Parameters)) := do
  let (name, c) ← c.mixinName
  let (params, c) ← c.skipTrivia.parameters
  let c := c.skipTrivia
  let c :=
    if startsWithWord "when".toList c.rest then
      let c := c.drop "when".length
      c.move (guard 0 c.rest)
    else c
  return ((.ofText name, params), c)

/-! ## Rule sets -/

/-- How a block is read behind its opening brace. -/
abbrev BlockReader := Cursor → Except Fault (Parsed Block)

/-- A rule set with given head, at the place of its block. -/
def ruleSetBlock (block : BlockReader) (start : Position) (selectors : List Selector) (params : Option Parameters)
    (c : Cursor) : Except Fault (Parsed RuleSet) := do
  let c ← c.expect '{'
  let (b, c) ← block c
  return ({ selectors, params, items := b.items, container := b.container, position := some start }, c)

/-- The definition of a mixin. -/
def mixinDefinition (block : BlockReader) (c : Cursor) : Except Fault (Parsed RuleSet) := do
  let ((selector, params), after) ← c.mixinHead
  ruleSetBlock block c.position [selector] (some params) after

/-- The selectors in front of a block. -/
def selectorsOf (head : List Char) : List Selector :=
  ((splitTop ',' 0 none head).map trim).filter (· ≠ []) |>.map fun cs => .ofText (String.ofList cs)

/-- A rule set. -/
def ruleSet (block : BlockReader) (c : Cursor) : Except Fault (Parsed RuleSet) := do
  let (head, after) ← c.head
  match selectorsOf head with
  | [] => c.fail .missingSelector
  | selectors => ruleSetBlock block c.position selectors none after

/-- The fault of an at-rule where none may stand. -/
def nestedAtRule {α : Type} (c : Cursor) : Except Fault α :=
  c.fail (.nestedAtRule c.atKeyword.1)

/-- The entries of the block of a rule set or, without `nested`, of a page, up to its closing brace. -/
def entries : Nat → Bool → Cursor → Except Fault (Parsed (List Entry))
  | 0, _, c => c.fail .exhausted
  | n + 1, nested, c => do
    let block : BlockReader := fun c => do
      let (inner, c) ← entries n true c
      return (.ofEntries inner, c)
    let c := c.skipTrivia
    let next := fun (entry : Entry) (after : Cursor) => do
      let (more, last) ← entries n nested after
      return (entry :: more, last)
    match c.peek? with
    | none => c.fail .missingBrace
    | some '}' => return ([], c.advance)
    | some '@' =>
      if c.variableAhead then
        let ((name, value), after) ← c.variableDefinition
        next (.variable name value) after
      else c.nestedAtRule
    | some _ =>
      if mixinDefinitionAhead c.rest then
        if nested then
          let (mixin, after) ← c.mixinDefinition block
          next (.element (.ruleSet mixin)) after
        else c.fail .mixinDefinitionInside
      else if mixinCallAhead c.rest then
        let (call, after) ← c.mixinCall
        next (.item (.mixin call)) after
      else
        match entryKind false none c.rest with
        | some .declaration =>
          let (declaration, after) ← c.declaration
          next (.item (.declaration declaration)) after
        | some .ruleSet =>
          if nested then
            let (inner, after) ← c.ruleSet block
            next (.element (.ruleSet inner)) after
          else c.fail .nestedRuleSet
        | none => c.fail .expectedItem

/-- The block of a rule set. -/
def block (c : Cursor) : Except Fault (Parsed Block) := do
  let (inner, c) ← entries (c.rest.length + 1) true c
  return (.ofEntries inner, c)

/-! ## Pages, media and keyframes -/

/-- A page. -/
def page (c : Cursor) : Except Fault (Parsed Page) := do
  let start := c.position
  let (head, c) ← c.atKeyword.2.head
  let c ← c.expect '{'
  let (inner, c) ← entries (c.rest.length + 1) false c
  let b := Block.ofEntries inner
  let pseudo := collapse head
  let page : Page :=
    { pseudo := if pseudo = [] then none else some (String.ofList pseudo)
      items := b.items
      container := b.container
      position := some start }
  return (page, c)

/-- The entries of the block of media or keyframes, up to its closing brace. -/
def elementEntries : Nat → Cursor → Except Fault (Parsed (List Entry))
  | 0, c => c.fail .exhausted
  | n + 1, c => do
    let c := c.skipTrivia
    let next := fun (entry : Entry) (after : Cursor) => do
      let (more, last) ← elementEntries n after
      return (entry :: more, last)
    match c.peek? with
    | none => c.fail .missingBrace
    | some '}' => return ([], c.advance)
    | some '@' =>
      if c.variableAhead then
        let ((name, value), after) ← c.variableDefinition
        next (.variable name value) after
      else if lowerAscii c.atKeyword.1 = "page" then
        let (page, after) ← c.page
        next (.element (.page page)) after
      else c.nestedAtRule
    | some _ =>
      if mixinDefinitionAhead c.rest then
        let (mixin, after) ← c.mixinDefinition block
        next (.element (.ruleSet mixin)) after
      else if mixinCallAhead c.rest then c.fail .mixinCallOutside
      else
        let (inner, after) ← c.ruleSet block
        next (.element (.ruleSet inner)) after

/-- The contents of media or keyframes behind the opening brace. -/
def elementBlock (c : Cursor) : Except Fault (Parsed Container) := do
  let c ← c.expect '{'
  let (inner, c) ← elementEntries (c.rest.length + 1) c
  return ((Block.ofEntries inner).container, c)

/-- A media block. -/
def media (c : Cursor) : Except Fault (Parsed Media) := do
  let start := c.position
  let (head, c) ← c.atKeyword.2.head
  let mediums := ((splitTop ',' 0 none head).map collapse).filter (· ≠ [])
  let (container, c) ← c.elementBlock
  return ({ mediums := mediums.map String.ofList, container, position := some start }, c)

/-- Keyframes. -/
def keyframes (c : Cursor) : Except Fault (Parsed Keyframes) := do
  let start := c.position
  let (keyword, c) := c.atKeyword
  let (head, c) ← c.head
  let (container, c) ← c.elementBlock
  return ({ keyword, name := String.ofList (collapse head), container, position := some start }, c)

/-- A rule with a block that has no meaning of its own, as a rule set. -/
def atRuleSet (c : Cursor) : Except Fault (Parsed RuleSet) := do
  let (keyword, after) := c.atKeyword
  let (head, after) ← after.head
  let head := collapse head
  let text := if head = [] then "@" ++ keyword else "@" ++ keyword ++ " " ++ String.ofList head
  ruleSetBlock block c.position [.ofText text] none after

end Cursor

end Less.Parse
