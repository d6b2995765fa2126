/-!
# Reading a decimal

A decimal is an optional sign and then either one of the words `inf`, `infinity` and `nan` in any case, or
digits with at most one point and at least one digit, followed by an optional exponent. `read?` gives the
nearest double, and nothing for any other text.
-/

namespace Less.Decimal

/-- The number a list of digits denotes. -/
def digitsValue (cs : List Char) : Nat :=
  cs.foldl (fun n c => 10 * n + (c.toNat - '0'.toNat)) 0

/-- The exponent after a mantissa: nothing, or `e`, an optional sign and digits. -/
def readExponent? : List Char → Option Int
  | [] => some 0
  | e :: rest =>
    if e == 'e' || e == 'E' then
      match rest with
      | '+' :: ds => if ds ≠ [] && ds.all Char.isDigit then some (digitsValue ds) else none
      | '-' :: ds => if ds ≠ [] && ds.all Char.isDigit then some (-(digitsValue ds : Int)) else none
      | ds => if ds ≠ [] && ds.all Char.isDigit then some (digitsValue ds) else none
    else none

/-- The double nearest to `c · 10 ^ e`. Far outside the range of doubles the power is not computed. -/
def nearestFloat (c : Nat) (e : Int) : Float :=
  let magnitude := e + (Nat.toDigits 10 c).length
  if c = 0 ∨ magnitude < -330 then 0.0
  else if 310 < magnitude then 1.0 / 0.0
  else Float.ofScientific c (e < 0) e.natAbs

/-- A decimal without a sign. -/
def readUnsigned? (cs : List Char) : Option Float :=
  let word := cs.map Char.toLower
  if word = "inf".toList ∨ word = "infinity".toList then some (1.0 / 0.0)
  else if word = "nan".toList then some (0.0 / 0.0)
  else
    let whole := cs.takeWhile Char.isDigit
    let rest := cs.dropWhile Char.isDigit
    let (fraction, rest) :=
      match rest with
      | '.' :: r => (r.takeWhile Char.isDigit, r.dropWhile Char.isDigit)
      | r => ([], r)
    if whole = [] ∧ fraction = [] then none
    else (readExponent? rest).map fun e =>
      nearestFloat (digitsValue (whole ++ fraction)) (e - fraction.length)

/-- The double nearest to the decimal a text denotes. -/
def read? : List Char → Option Float
  | '+' :: cs => readUnsigned? cs
  | '-' :: cs => (readUnsigned? cs).map (- ·)
  | cs => readUnsigned? cs

end Less.Decimal
