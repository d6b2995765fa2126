import Less.Decimal.Binary64

/-!
# The shortest decimal text of a double

The doubles nearest to a given one leave it an interval of reals that round to it; both ends belong to the
interval exactly when its significand is even. The text of a double has as few digits as a decimal in that
interval can have, and of the decimals with that many digits it is the nearest one, the larger of two equally
near. It is always written positionally, never with an exponent.

The digits are found on naturals: for one power of ten after the other, from above the value downward, the two
multiples next to the value are tested.
-/

namespace Less.Decimal

/-- An interval of positive rationals around `value`, all three over the denominator `den`. -/
structure Interval where
  low : Nat
  value : Nat
  high : Nat
  den : Nat
  closed : Bool

/-- The reals that round to `m · 2 ^ q`. Below a power of two the doubles lie twice as dense. -/
def Interval.ofBinary (m : Nat) (q : Int) : Interval :=
  let below := if m = Nat.pow 2 52 ∧ -1074 < q then 1 else 2
  let scale := Nat.pow 2 (q - 2).toNat
  { low := (4 * m - below) * scale
    value := 4 * m * scale
    high := (4 * m + 2) * scale
    den := Nat.pow 2 (2 - q).toNat
    closed := m % 2 = 0 }

/-- The same interval in units of `10 ^ g`. -/
def Interval.inUnits (i : Interval) (g : Int) : Interval :=
  let up := Nat.pow 10 (-g).toNat
  { i with low := i.low * up, value := i.value * up, high := i.high * up, den := i.den * Nat.pow 10 g.toNat }

/-- The whole number `n` lies in the interval. -/
def Interval.contains (i : Interval) (n : Nat) : Bool :=
  if i.closed then i.low ≤ n * i.den && n * i.den ≤ i.high
  else i.low < n * i.den && n * i.den < i.high

/-- The whole number next to the value that the interval contains, the nearer one if both are. -/
def Interval.nearest? (i : Interval) : Option Nat :=
  let down := i.value / i.den
  let up := down + 1
  match i.contains down, i.contains up with
  | true, true => some (if i.den ≤ 2 * (i.value - down * i.den) then up else down)
  | true, false => some down
  | false, true => some up
  | false, false => none

/-- Tries the powers of ten from `10 ^ g` downward and gives the first whole multiple found. -/
def searchDown (i : Interval) : Nat → Int → Nat × Int
  | 0, g => (0, g)
  | n + 1, g =>
    match (i.inUnits g).nearest? with
    | some c => (c, g)
    | none => searchDown i n (g - 1)

/-- The shortest decimal `c · 10 ^ g` that rounds to `m · 2 ^ q`, for a positive `m`. -/
def shortest (m : Nat) (q : Int) : Nat × Int :=
  let i := Interval.ofBinary m q
  let start := (Nat.toDigits 10 (i.value / i.den)).length
  searchDown i (start + 345) start

/-- The number `c · 10 ^ g` in positional notation. -/
def positional (c : Nat) (g : Int) : List Char :=
  let digits := Nat.toDigits 10 c
  match g with
  | .ofNat zeros => digits ++ List.replicate zeros '0'
  | .negSucc k =>
    let places := k + 1
    let padded := List.replicate (places + 1 - digits.length) '0' ++ digits
    padded.take (padded.length - places) ++ '.' :: padded.drop (padded.length - places)

/-- A double in the fewest digits that read back. -/
def text (x : Float) : List Char :=
  match Binary64.ofFloat x with
  | .nan => "NaN".toList
  | .infinite negative => if negative then "-inf".toList else "inf".toList
  | .finite negative m q =>
    let digits := if m = 0 then ['0'] else let (c, g) := shortest m q; positional c g
    if negative then '-' :: digits else digits

end Less.Decimal
