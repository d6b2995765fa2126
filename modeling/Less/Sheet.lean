import Less.Bindings
import Less.Expr

/-!
# Style sheets

A sheet is a container of elements with a header. Containers hold variables and elements; the elements are rule
sets, media blocks, page blocks and keyframes, each with a container of its own.

* **`Container.ruleSets`** finds the rule sets of a container by selector, in the order of the body. A rule set that
  lists the selector twice is found twice.
* **`RuleSet.accepts`** says with how many arguments a rule set can be called as a mixin.
* **`Sheet.append`** writes one sheet behind another, as an import does.
-/

namespace Less

/-! ## Declarations -/

/-- A property with the pieces of its value. -/
structure Declaration where
  property : String
  values : List Expr
  important : Bool := false
  position : Option Position := none
deriving Repr, Inhabited

/-- The value of a declaration as it is written. -/
def Declaration.valueText (d : Declaration) : String :=
  Expr.textOfAll d.values

/-- A call of a mixin among the declarations of a rule set. -/
structure MixinCall where
  selector : Selector
  arguments : List Expr
  position : Option Position := none
deriving Repr, Inhabited

/-- What stands between the braces of a rule set beside variables and nested rule sets. -/
inductive Item where
  | declaration (d : Declaration)
  | mixin (c : MixinCall)
deriving Repr, Inhabited

namespace Item

/-- The declaration, if the item is one. -/
def declaration? : Item → Option Declaration
  | declaration d => some d
  | mixin _ => none

/-- The item is a mixin call. -/
def isMixin : Item → Bool
  | declaration _ => false
  | mixin _ => true

end Item

/-! ## Elements and containers -/

/-- The parameters of a mixin with their default values, in order. -/
abbrev Parameters := Bindings (Option Expr)

mutual

/-- An element of a sheet or a block. -/
inductive Element where
  | ruleSet (r : RuleSet)
  | media (m : Media)
  | page (p : Page)
  | keyframes (k : Keyframes)

/-- Variables and elements of a sheet or a block. -/
structure Container where
  vars : Bindings Expr
  body : List Element

/-- A rule set; with parameters it is the definition of a mixin. -/
structure RuleSet where
  selectors : List Selector
  params : Option Parameters
  items : List Item
  container : Container
  position : Option Position

/-- A block that applies to some media. -/
structure Media where
  mediums : List String
  container : Container
  position : Option Position

/-- The layout of printed pages. -/
structure Page where
  pseudo : Option String
  items : List Item
  container : Container
  position : Option Position

/-- The steps of an animation; the keyword may have a vendor's name in front. -/
structure Keyframes where
  keyword : String
  name : String
  container : Container
  position : Option Position

end

namespace Element

/-- The rule set, if the element is one. -/
def ruleSet? : Element → Option RuleSet
  | ruleSet r => some r
  | _ => none

end Element

namespace Container

/-- A container without variables and elements. -/
def empty : Container := { vars := .empty, body := [] }

instance : Inhabited Container := ⟨empty⟩

/-- The value of a variable of this container. -/
def getVar? (c : Container) (name : String) : Option Expr :=
  c.vars.get? name

/-- Sets a variable; a variable that is set again keeps its place. -/
def setVariable (c : Container) (name : String) (value : Expr) : Container :=
  { c with vars := c.vars.set name value }

/-- Sets one variable after the other. -/
def setVariables (c : Container) (entries : List (String × Expr)) : Container :=
  { c with vars := c.vars.setAll entries }

/-- Adds an element at the end. -/
def add (c : Container) (e : Element) : Container :=
  { c with body := c.body ++ [e] }

/-- Adds elements at the end. -/
def addAll (c : Container) (es : List Element) : Container :=
  { c with body := c.body ++ es }

/-- The rule sets among the elements. -/
def childRuleSets (c : Container) : List RuleSet :=
  c.body.filterMap Element.ruleSet?

/-- The rule sets with a selector, each as often as it lists the selector. -/
def ruleSets (c : Container) (s : Selector) : List RuleSet :=
  c.childRuleSets.flatMap fun r => List.replicate (r.selectors.count s) r

end Container

instance : Inhabited RuleSet :=
  ⟨{ selectors := [], params := none, items := [], container := .empty, position := none }⟩

instance : Inhabited Element := ⟨.ruleSet default⟩

namespace RuleSet

/-- The rule set defines a mixin. -/
def isMixin (r : RuleSet) : Bool :=
  r.params.isSome

/-- The number of parameters, none for a plain rule set. -/
def arity (r : RuleSet) : Nat :=
  match r.params with
  | some params => params.size
  | none => 0

/-- The rule set can be called with this many arguments. -/
def accepts (r : RuleSet) (count : Nat) : Bool :=
  match r.params with
  | some params => count ≤ params.size
  | none => count == 0

/-- The declarations without the mixin calls. -/
def declarations (r : RuleSet) : List Declaration :=
  r.items.filterMap Item.declaration?

/-- The last declaration of a property. -/
def declaration? (r : RuleSet) (property : String) : Option Declaration :=
  r.declarations.reverse.find? (·.property == property)

/-- The selectors as they are written. -/
def selectorText (r : RuleSet) (separator : String) : String :=
  String.intercalate separator (r.selectors.map Selector.text)

end RuleSet

/-- The declarations of a page without the mixin calls. -/
def Page.declarations (p : Page) : List Declaration :=
  p.items.filterMap Item.declaration?

/-! ## Sheets -/

/-- A style sheet: its character set, the imports written out as they are, and its contents. -/
structure Sheet where
  charset : Option String := none
  imports : List String := []
  container : Container := .empty
deriving Inhabited

namespace Sheet

/-- A sheet without anything. -/
def empty : Sheet := {}

/-- Adds the contents of another sheet at the end; the first character set stays. -/
def append (sheet imported : Sheet) : Sheet :=
  { charset := sheet.charset.or imported.charset
    imports := sheet.imports ++ imported.imports
    container := (sheet.container.setVariables imported.container.vars.entries).addAll
      imported.container.body }

end Sheet

end Less
