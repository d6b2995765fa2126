import Less.Color.Named
import Less.Selector
import Less.Value

/-!
# Value expressions

The value of a declaration or a variable is an expression, each node with the position it was read at.

* **`Expr.text`** writes an expression; a list is written as its items one after the other, since its separators
  are items themselves.
* **`Expr.isSeparator`** recognises these separators: blanks and a single comma.
* **`Expr.constant?`** is the constant an expression denotes by itself; a color keyword denotes its color.
-/

namespace Less

/-- What an accessor reads from a rule set: the value of a property or of a variable. -/
inductive Member where
  | property (name : String)
  | var (name : String)
deriving DecidableEq, Repr

namespace Member

/-- The name of a property or variable. -/
def name : Member → String
  | property name => name
  | var name => name

/-- A member as error messages name it. -/
def label : Member → String
  | property name => name
  | var name => "@" ++ name

/-- A member between the brackets of an accessor. -/
def text : Member → String
  | property name => "'" ++ name ++ "'"
  | var name => "@" ++ name

end Member

/-- A value expression. -/
inductive Expr where
  | constant (value : Value) (position : Option Position)
  | literal (text : String) (position : Option Position)
  | var (name : String) (position : Option Position)
  /-- Items one after the other, separators included. -/
  | list (items : List Expr) (position : Option Position)
  | call (name : String) (arguments : List Expr) (position : Option Position)
  | access (target : Selector) (member : Member) (position : Option Position)
  | binary (op : Operator) (left right : Expr) (position : Option Position)
deriving Repr, Inhabited

namespace Expr

/-- Where the expression was read. -/
def position : Expr → Option Position
  | constant _ p | literal _ p | var _ p | list _ p | call _ _ p | access _ _ p | binary _ _ _ p => p

/-- The expression as if it had been read elsewhere. -/
def withPosition (p : Option Position) : Expr → Expr
  | constant v _ => constant v p
  | literal s _ => literal s p
  | var name _ => var name p
  | list items _ => list items p
  | call name arguments _ => call name arguments p
  | access target member _ => access target member p
  | binary op left right _ => binary op left right p

/-- An operation, at the position of its left operand. -/
def operation (op : Operator) (left right : Expr) : Expr :=
  binary op left right left.position

/-- The opposite of an operand is its product with -1. -/
def negate (operand : Expr) : Expr :=
  operation .multiply (constant (.number ⟨-1.0, none⟩) operand.position) operand

/-- The constant an expression denotes without evaluation. -/
def constant? : Expr → Option Value
  | constant v _ => some v
  | literal s _ => (Color.keyword? (trimText s)).map .color
  | _ => none

/-- A blank or a comma between the items of a list. -/
def isSeparator : Expr → Bool
  | literal s _ => trimText s == "" || trimText s == ","
  | _ => false

mutual

/-- An expression as it is written. -/
def text : Expr → String
  | constant v _ => v.text
  | literal s _ => s
  | var name _ => "@" ++ name
  | list items _ => textOfAll items
  | call name arguments _ => name ++ "(" ++ String.intercalate ", " (argumentTexts arguments) ++ ")"
  | access target member _ => target.text ++ "[" ++ member.text ++ "]"
  | binary op left right _ => left.text ++ " " ++ String.singleton op.symbol ++ " " ++ right.text

/-- Expressions written one directly after the other. -/
def textOfAll : List Expr → String
  | [] => ""
  | e :: es => e.text ++ textOfAll es

/-- The texts of the arguments of a call; separators among them are left out. -/
def argumentTexts : List Expr → List String
  | [] => []
  | e :: es => if e.isSeparator then argumentTexts es else e.text :: argumentTexts es

end

/-- One item as it is, several as a list, none as the empty literal. -/
def ofItems (items : List Expr) (p : Position) : Expr :=
  match items with
  | [] => literal "" (some p)
  | [item] => item
  | items => list items (some p)

end Expr

end Less
