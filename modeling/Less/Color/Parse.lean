import Less.Color.Hsl
import Less.Color.Named
import Less.Decimal.Read
import Less.Text.Blank

/-!
# Reading a color

`Color.parse?` reads, after trimming, one of three notations:

* `#` and three, six or eight hexadecimal digits, the last two of eight being the opacity;
* a color keyword;
* `rgb(...)`, `rgba(...)`, `hsl(...)` or `hsla(...)` in any case, with three components and an optional opacity
  separated by commas. In the name, the long s (U+017F) counts as an `s`, to which it folds.
-/

namespace Less.Color

/-! ## Hexadecimal notation -/

/-- The value of a hexadecimal digit. -/
def hexValue (c : Char) : Nat :=
  if c.isDigit then c.toNat - '0'.toNat
  else if 'a' ≤ c && c ≤ 'f' then c.toNat - 'a'.toNat + 10
  else c.toNat - 'A'.toNat + 10

/-- The byte written by two hexadecimal digits. -/
def byteOfHex (high low : Char) : UInt8 :=
  UInt8.ofNat (hexValue high * 16 + hexValue low)

/-- The color written by the digits after `#`. -/
def ofHex? (cs : List Char) : Option Color :=
  if !cs.all Text.isHexDigit then none
  else
    match cs with
    | [r, g, b] => some { red := byteOfHex r r, green := byteOfHex g g, blue := byteOfHex b b }
    | [r, r', g, g', b, b'] =>
      some { red := byteOfHex r r', green := byteOfHex g g', blue := byteOfHex b b' }
    | [r, r', g, g', b, b', a, a'] =>
      let opaqueColor : Color := { red := byteOfHex r r', green := byteOfHex g g', blue := byteOfHex b b' }
      some (opaqueColor.withAlpha (Float.ofNat (byteOfHex a a').toNat / 255.0))
    | _ => none

/-! ## Functional notation -/

/-- A component: a decimal, with `%` behind it if it is a percentage. -/
def component? (cs : List Char) : Option Component :=
  if cs.getLast? = some '%' then (Decimal.read? cs.dropLast).map fun value => ⟨value, true⟩
  else (Decimal.read? cs).map fun value => ⟨value, false⟩

/-- A word of at least one character that `stops` does not hold, with blanks around it dropped. -/
def argument? (stops : List Char) (cs : List Char) : Option (List Char × List Char) :=
  let inside := fun c => !Text.isBlank c && !stops.contains c
  let cs := Text.trimStart cs
  let word := cs.takeWhile inside
  if word = [] then none else some (word, Text.trimStart (cs.dropWhile inside))

/-- An argument and the comma behind it. -/
def argumentComma? (cs : List Char) : Option (List Char × List Char) :=
  match argument? [','] cs with
  | some (word, ',' :: rest) => some (word, rest)
  | _ => none

/-- The three arguments and the optional fourth, up to the closing parenthesis at the end. -/
def arguments? (cs : List Char) : Option (List (List Char)) := do
  let (first, cs) ← argumentComma? cs
  let (second, cs) ← argumentComma? cs
  let (third, cs) ← argument? [',', ')'] cs
  match cs with
  | [')'] => some [first, second, third]
  | ',' :: cs =>
    let (fourth, cs) ← argument? [',', ')'] cs
    if cs = [')'] then some [first, second, third, fourth] else none
  | _ => none

/-- The color written by the name and the arguments of a functional notation. -/
def ofFunctional? (name : List Char) (cs : List Char) : Option Color := do
  let fold := fun (c : Char) => if c = '\u017f' then 's' else c.toLower
  let folded := String.ofList (name.map fold)
  let isRgb := folded = "rgb" ∨ folded = "rgba"
  let isHsl := folded = "hsl" ∨ folded = "hsla"
  if ¬isRgb ∧ ¬isHsl then none
  else
    let components ← (← arguments? cs).mapM component?
    match components with
    | first :: second :: third :: rest =>
      let alpha : Component := rest.headD ⟨1.0, false⟩
      if isRgb then some (ofRgbComponents first second third alpha)
      else some (ofHslComponents first.value second.value third.value
        (alphaShare alpha.value alpha.percent))
    | _ => none

/-- Reads a color in any notation. -/
def parse? (s : String) : Option Color :=
  match Text.trim s.toList with
  | '#' :: digits => ofHex? digits
  | cs =>
    match keyword? (String.ofList cs) with
    | some color => some color
    | none => ofFunctional? (cs.takeWhile (· ≠ '(')) ((cs.dropWhile (· ≠ '(')).drop 1)

end Less.Color
