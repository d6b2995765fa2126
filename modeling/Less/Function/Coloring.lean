import Less.Color.Blend
import Less.Color.Hsl
import Less.Function.Argument
import Less.Function.Registry

/-!
# Color functions

Functions that change a color by its hue, saturation, lightness or opacity, that lay colors over each other, and
that build a color from its components. All but the last keep the opacity of the color they are given.
-/

namespace Less.Function

/-- A color as the result of a function. -/
def colorResult (c : Color) : Expr :=
  .constant (.color c) none

/-- Changes a color by a percentage of saturation or lightness. -/
def adjustHsl (adjust : Hsl → Float → Hsl) : Function
  | name, [c, amount] => do
    let c ← Argument.color name 1 c
    let amount ← Argument.percentage name 2 amount
    return colorResult (Color.ofHsl (adjust c.toHsl amount) c.alpha)
  | name, _ => .error (Argument.arityError name)

/-- Makes a color lighter. -/
def lighten : Function :=
  adjustHsl fun c amount => { c with lightness := c.lightness + amount }

/-- Makes a color darker. -/
def darken : Function :=
  adjustHsl fun c amount => { c with lightness := c.lightness - amount }

/-- Makes a color more intense. -/
def saturate : Function :=
  adjustHsl fun c amount => { c with saturation := c.saturation + amount }

/-- Makes a color less intense. -/
def desaturate : Function :=
  adjustHsl fun c amount => { c with saturation := c.saturation - amount }

/-- Turns the hue by a number of degrees. -/
def spin : Function
  | name, [c, degrees] => do
    let c ← Argument.color name 1 c
    let turn ← Argument.number name 2 degrees
    if turn.isUnitless || turn.unit == some "deg" then
      let hsl := c.toHsl
      return colorResult (Color.ofHsl { hsl with hue := Binary64.wrap (hsl.hue + turn.value) 360 } c.alpha)
    else .error (Argument.kindError name 2 "a number" degrees)
  | name, _ => .error (Argument.arityError name)

/-- The gray of the same lightness. -/
def grayscale : Function
  | name, [c] => do
    let c ← Argument.color name 1 c
    return colorResult (Color.ofHsl { c.toHsl with saturation := 0.0 } c.alpha)
  | name, _ => .error (Argument.arityError name)

/-- The notation of a color with its opacity in front. -/
def argb : Function
  | name, [c] => do
    let c ← Argument.color name 1 c
    return .literal c.argbText none
  | name, _ => .error (Argument.arityError name)

/-- Sets the opacity of a color. -/
def fade : Function
  | name, [c, amount] => do
    let c ← Argument.color name 1 c
    let amount ← Argument.percentage name 2 amount
    return colorResult (c.withAlpha amount)
  | name, _ => .error (Argument.arityError name)

/-- Lays the second color over the first. -/
def overlay : Function
  | name, [bottom, top] => do
    let bottom ← Argument.color name 1 bottom
    let top ← Argument.color name 2 top
    return colorResult (bottom.overlay top)
  | name, _ => .error (Argument.arityError name)

/-- Builds a color from three components and an optional opacity. -/
def ofComponents (build : (a b c alpha : Color.Component) → Color) : Function
  | name, [a, b, c] => do
    let a ← Argument.component name 1 a
    let b ← Argument.component name 2 b
    let c ← Argument.component name 3 c
    return colorResult (build a b c ⟨1.0, false⟩)
  | name, [a, b, c, alpha] => do
    let a ← Argument.component name 1 a
    let b ← Argument.component name 2 b
    let c ← Argument.component name 3 c
    let alpha ← Argument.component name 4 alpha
    return colorResult (build a b c alpha)
  | name, _ => .error (Argument.arityError name)

/-- The color of a red, a green and a blue component. -/
def rgb : Function :=
  ofComponents Color.ofRgbComponents

/-- The color of a hue, a saturation and a lightness. -/
def hsl : Function :=
  ofComponents fun hue saturation lightness alpha =>
    Color.ofHslComponents hue.value saturation.value lightness.value
      (Color.alphaShare alpha.value alpha.percent)

end Less.Function
