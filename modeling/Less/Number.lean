import Less.Decimal.Read
import Less.Decimal.Shortest
import Less.Error
import Less.Operator

/-!
# Numbers with units

A number is a double with an optional unit, such as `5px`, `.5em` or `10%`.

* **`Number.parse?`** takes as unit all that follows the last digit or point.
* **`Number.text`** writes three decimal places at most, a half rounded away from zero, without a zero before
  the point; zero is written without its unit.
* **`Number.apply`** wants equal units or at most one; the result has the unit that is there.
-/

namespace Less

/-- A double with an optional unit. -/
structure Number where
  value : Float
  unit : Option String := none
deriving DecidableEq, Repr

namespace Number

/-- A number whose unit, when empty, is no unit. -/
def ofUnit (value : Float) (unit : Option String) : Number :=
  { value, unit := unit.filter (· ≠ "") }

/-- Characters a unit cannot hold before its end: digits and the point. -/
def isNumberChar (c : Char) : Bool :=
  c.isDigit || c == '.'

/-- Reads a decimal and, after its last digit or point, the unit. -/
def parse? (cs : List Char) : Option Number :=
  let unit := (cs.reverse.takeWhile (!isNumberChar ·)).reverse
  let decimal := (cs.reverse.dropWhile (!isNumberChar ·)).reverse
  if decimal = [] then none
  else (Decimal.read? decimal).map fun value => ofUnit value (String.ofList unit)

/-- The number has no unit. -/
def isUnitless (n : Number) : Bool :=
  n.unit.isNone

/-- The number is a percentage. -/
def isPercent (n : Number) : Bool :=
  n.unit == some "%"

/-- The units are equal, or at most one of the numbers has one. -/
def isCompatible (a b : Number) : Bool :=
  match a.unit, b.unit with
  | some left, some right => left == right
  | _, _ => true

/-- Leaves out the zero before the point. -/
def dropLeadingZero : List Char → List Char
  | '0' :: '.' :: fraction => '.' :: fraction
  | '-' :: '0' :: '.' :: fraction => '-' :: '.' :: fraction
  | cs => cs

/-- A number as it is written. -/
def text (n : Number) : String :=
  let rounded := Binary64.roundHalfAway (n.value * 1000.0) / 1000.0
  if rounded == 0.0 then "0"
  else String.ofList (dropLeadingZero (Decimal.text rounded)) ++ n.unit.getD ""

/-- Arithmetic on numbers. A quotient by zero is refused after the units were compared. -/
def apply (op : Operator) (a b : Number) : Except Error Number :=
  if !a.isCompatible b then .error (.unitMismatch a.text b.text)
  else if op = .divide ∧ b.value == 0.0 then .error .divisionByZero
  else .ok { value := op.apply a.value b.value, unit := a.unit.or b.unit }

end Number

end Less
