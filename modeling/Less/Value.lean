import Less.Color.Basic
import Less.Number

/-!
# Constant values

A constant is a number or a color. `Value.apply` is the arithmetic of value expressions: numbers by their units,
colors channel by channel, a color with a unitless number, and a unitless number times a color. All else is a
mismatch.
-/

namespace Less

/-- A number or a color. -/
inductive Value where
  | number (n : Number)
  | color (c : Color)
deriving DecidableEq, Repr

namespace Value

/-- A constant as it is written. -/
def text : Value → String
  | number n => n.text
  | color c => c.text

/-- Arithmetic on constants. -/
def apply (op : Operator) : Value → Value → Except Error Value
  | number a, number b => (Number.apply op a b).map number
  | number a, color c =>
    if op = .multiply ∧ a.isUnitless then .ok (color (c.combine (.replicate a.value) (· * ·)))
    else .error (.unitMismatch a.text c.text)
  | color c, number b =>
    if !b.isUnitless then .error (.unitMismatch c.text b.text)
    else if op = .divide ∧ b.value == 0.0 then .error .divisionByZero
    else .ok (color (c.combine (.replicate b.value) op.apply))
  | color c, color d =>
    if op = .divide ∧ d.channels.hasZero then .error .divisionByZero
    else .ok (color (c.combine d.channels op.apply))

end Value

end Less
