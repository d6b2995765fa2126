import Less.Color.Basic

/-!
# Hue, saturation and lightness

A color can be given by its hue in degrees and its saturation and lightness as shares between 0 and 1.
`Color.toHsl` and `Color.ofHsl` convert between this form and the channels.
-/

namespace Less

/-- Hue in degrees; saturation and lightness from 0 to 1. -/
structure Hsl where
  hue : Float
  saturation : Float
  lightness : Float
deriving DecidableEq, Repr

namespace Color

/-- The larger of two doubles that are not NaN. -/
def larger (x y : Float) : Float := if x < y then y else x

/-- The smaller of two doubles that are not NaN. -/
def smaller (x y : Float) : Float := if y < x then y else x

/-- Two doubles differ by less than `2 ^ -52`. -/
def isNear (x y : Float) : Bool :=
  (x - y).abs < Binary64.powerOfTwo (-52)

/-- Hue, saturation and lightness of three shares. -/
def hslOfShares (c : Channels) : Hsl :=
  let max := larger (larger c.red c.green) c.blue
  let min := smaller (smaller c.red c.green) c.blue
  let lightness := (max + min) / 2.0
  if isNear max min then ⟨0.0, 0.0, lightness⟩
  else
    let d := max - min
    let saturation := if 0.5 < lightness then d / (2.0 - max - min) else d / (max + min)
    let sextants :=
      if isNear max c.red then (c.green - c.blue) / d + (if c.green < c.blue then 6.0 else 0.0)
      else if isNear max c.green then (c.blue - c.red) / d + 2.0
      else (c.red - c.green) / d + 4.0
    ⟨sextants / 6.0 * 360.0, saturation, lightness⟩

/-- A color by hue, saturation and lightness. -/
def toHsl (c : Color) : Hsl :=
  hslOfShares c.shares

/-- One channel, at the turn `t` of the color circle between the levels `p` and `q`. -/
def hueShare (p q t : Float) : Float :=
  let t := if t < 0.0 then t + 1.0 else t
  let t := if 1.0 < t then t - 1.0 else t
  if t < 1.0 / 6.0 then p + (q - p) * 6.0 * t
  else if t < 1.0 / 2.0 then q
  else if t < 2.0 / 3.0 then p + (q - p) * (2.0 / 3.0 - t) * 6.0
  else p

/-- The shares of a color with its hue in turns. -/
def sharesOfHsl (hue saturation lightness : Float) : Channels :=
  if saturation ≤ 0.0 then .replicate lightness
  else
    let q := if lightness < 0.5 then lightness * (1.0 + saturation)
      else lightness + saturation - lightness * saturation
    let p := 2.0 * lightness - q
    ⟨hueShare p q (hue + 1.0 / 3.0), hueShare p q hue, hueShare p q (hue - 1.0 / 3.0)⟩

/-- The color of a hue, taken modulo 360, and a saturation and lightness, confined to 0 to 1. -/
def ofHsl (c : Hsl) (alpha : Float) : Color :=
  let hue := Binary64.wrap c.hue 360 / 360.0
  let saturation := Binary64.clamp 0.0 1.0 c.saturation
  let lightness := Binary64.clamp 0.0 1.0 c.lightness
  (ofShares (sharesOfHsl hue saturation lightness)).withAlpha alpha

/-- The color `hsl(hue, saturation, lightness)`, the latter two in percent. -/
def ofHslComponents (hue saturation lightness alpha : Float) : Color :=
  ofHsl ⟨hue, Binary64.clamp 0.0 100.0 saturation / 100.0, Binary64.clamp 0.0 100.0 lightness / 100.0⟩ alpha

end Color

end Less
