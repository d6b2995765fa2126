import Less.Decimal.Fixed

/-!
# Colors

A color has three channels of one byte and an opacity `alpha` between 0 and 1.

* **`Color.combine`** works channel by channel; a result is truncated and confined to a byte, and the opacity
  stays.
* **`Color.text`** is `rgba(...)` for a translucent color and otherwise the shorter of `#rgb` and `#rrggbb`.
-/

namespace Less

/-- A color by its channels and its opacity. -/
structure Color where
  red : UInt8
  green : UInt8
  blue : UInt8
  alpha : Float := 1.0
deriving DecidableEq, Repr

/-- One double for each channel. -/
structure Channels where
  red : Float
  green : Float
  blue : Float
deriving DecidableEq, Repr

namespace Channels

/-- The same double for each channel. -/
def replicate (x : Float) : Channels := ⟨x, x, x⟩

/-- Applies a function to each channel. -/
def map (f : Float → Float) (c : Channels) : Channels :=
  ⟨f c.red, f c.green, f c.blue⟩

/-- Applies a function of two arguments channel by channel. -/
def zipWith (f : Float → Float → Float) (a b : Channels) : Channels :=
  ⟨f a.red b.red, f a.green b.green, f a.blue b.blue⟩

/-- Some channel is zero. -/
def hasZero (c : Channels) : Bool :=
  c.red == 0.0 || c.green == 0.0 || c.blue == 0.0

end Channels

namespace Color

/-- The byte nearest to a whole number; NaN becomes 0. -/
def toByte (x : Float) : UInt8 :=
  (Binary64.clamp 0.0 255.0 x).toUInt8

/-- The byte for a share between 0 and 1. The product is first rounded to a millionth, so that an error in its
last bits does not change the direction of a half. -/
def shareToByte (x : Float) : UInt8 :=
  let scaled := Binary64.roundHalfAway (x * 255.0 * 1e6) / 1e6
  toByte (Binary64.roundHalfAway scaled)

/-- The color with another opacity, confined to the interval from 0 to 1. -/
def withAlpha (c : Color) (alpha : Float) : Color :=
  { c with alpha := Binary64.clamp 0.0 1.0 alpha }

/-- The opaque color `0xRRGGBB`. -/
def ofRgb (n : Nat) : Color :=
  { red := UInt8.ofNat (n / 0x10000), green := UInt8.ofNat (n / 0x100), blue := UInt8.ofNat n }

/-- The channels as doubles. -/
def channels (c : Color) : Channels :=
  ⟨Float.ofNat c.red.toNat, Float.ofNat c.green.toNat, Float.ofNat c.blue.toNat⟩

/-- The channels as shares of 255. -/
def shares (c : Color) : Channels :=
  c.channels.map (· / 255.0)

/-- The opaque color with given shares of 255. -/
def ofShares (c : Channels) : Color :=
  { red := shareToByte c.red, green := shareToByte c.green, blue := shareToByte c.blue }

/-- An operation channel by channel. -/
def combine (c : Color) (operands : Channels) (op : Float → Float → Float) : Color :=
  let result := (c.channels.zipWith op operands).map Binary64.truncate
  { red := toByte result.red, green := toByte result.green, blue := toByte result.blue, alpha := c.alpha }

/-! ## Components of the functional notations -/

/-- A component of `rgb(...)`: a percentage of 255 or a number, truncated and confined to a byte. -/
def rgbChannel (value : Float) (percent : Bool) : UInt8 :=
  toByte (Binary64.truncate (if percent then value * 255.0 / 100.0 else value))

/-- An opacity, as a percentage or as a share. -/
def alphaShare (value : Float) (percent : Bool) : Float :=
  Binary64.clamp 0.0 1.0 (if percent then value / 100.0 else value)

/-- A number that may have been written as a percentage. -/
structure Component where
  value : Float
  percent : Bool := false

/-- The color `rgb(red, green, blue)` with an opacity. -/
def ofRgbComponents (red green blue alpha : Component) : Color :=
  let opaqueColor : Color :=
    { red := rgbChannel red.value red.percent
      green := rgbChannel green.value green.percent
      blue := rgbChannel blue.value blue.percent }
  opaqueColor.withAlpha (alphaShare alpha.value alpha.percent)

/-! ## Text -/

/-- A byte as two hexadecimal digits. -/
def hexByte (b : UInt8) : List Char :=
  [Nat.digitChar (b.toNat / 16), Nat.digitChar (b.toNat % 16)]

/-- Both hexadecimal digits of the byte are the same. -/
def isDoubled (b : UInt8) : Bool :=
  b.toNat / 16 == b.toNat % 16

/-- The hexadecimal notation, with one digit for each channel if that is enough. -/
def hexText (c : Color) : List Char :=
  if isDoubled c.red && isDoubled c.green && isDoubled c.blue then
    ['#', Nat.digitChar (c.red.toNat % 16), Nat.digitChar (c.green.toNat % 16),
      Nat.digitChar (c.blue.toNat % 16)]
  else '#' :: (hexByte c.red ++ hexByte c.green ++ hexByte c.blue)

/-- A color as it is written. -/
def text (c : Color) : String :=
  if c.alpha < 1.0 then
    "rgba(" ++ toString c.red.toNat ++ ", " ++ toString c.green.toNat ++ ", " ++ toString c.blue.toNat
      ++ ", " ++ String.ofList (Decimal.fixedTrimmed 3 c.alpha) ++ ")"
  else String.ofList (c.hexText)

/-- The notation `#aarrggbb`. -/
def argbText (c : Color) : String :=
  String.ofList ('#' :: (hexByte (shareToByte c.alpha) ++ hexByte c.red ++ hexByte c.green
    ++ hexByte c.blue))

end Color

end Less
