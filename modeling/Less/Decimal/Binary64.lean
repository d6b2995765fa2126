/-!
# Binary floating point, exactly

Values are computed in double precision. Where a rule needs the exact value of a double (rounding to a
whole number, remainders, decimal text), it reads the double as `± m · 2 ^ q` and works on naturals:

* **`Binary64.ofFloat`** is that reading;
* **`roundHalfAway`**, **`truncate`** round to a whole number, a half away from zero or toward zero;
* **`remainder`**, **`wrap`** reduce modulo a natural number, with the sign of the dividend or never negative;
* **`clamp`** confines to an interval and leaves NaN as it is.
-/

namespace Less

/-- A double by its parts; a finite one is `± m · 2 ^ q`. -/
inductive Binary64 where
  | nan
  | infinite (negative : Bool)
  | finite (negative : Bool) (m : Nat) (q : Int)
deriving DecidableEq, Repr

namespace Binary64

/-- Reads sign, exponent and fraction out of the bit pattern. -/
def ofFloat (x : Float) : Binary64 :=
  let bits := x.toBits.toNat
  let negative := bits / Nat.pow 2 63 == 1
  let exponent : Nat := bits / Nat.pow 2 52 % Nat.pow 2 11
  let fraction := bits % Nat.pow 2 52
  if exponent = 2047 then if fraction = 0 then .infinite negative else .nan
  else if exponent = 0 then .finite negative fraction (-1074)
  else .finite negative (Nat.pow 2 52 + fraction) (Int.ofNat exponent - 1075)

/-- A natural number with a sign; zero keeps the sign. -/
def signed (negative : Bool) (n : Nat) : Float :=
  if negative then -Float.ofNat n else Float.ofNat n

/-- The power `2 ^ q` for an exponent `q` from -1074 to 1023. -/
def powerOfTwo (q : Int) : Float :=
  if -1022 ≤ q then Float.ofBits (UInt64.ofNat ((q + 1023).toNat * Nat.pow 2 52))
  else Float.ofBits (UInt64.ofNat (Nat.pow 2 (q + 1074).toNat))

/-- The nearest whole number; a half goes away from zero. -/
def roundHalfAway (x : Float) : Float :=
  match ofFloat x with
  | .finite negative m (.negSucc k) =>
    let unit := Nat.pow 2 (k + 1)
    signed negative ((2 * m + unit) / (2 * unit))
  | _ => x

/-- The whole part. -/
def truncate (x : Float) : Float :=
  match ofFloat x with
  | .finite negative m (.negSucc k) => signed negative (m / Nat.pow 2 (k + 1))
  | _ => x

/-- The remainder modulo `n`, with the sign of `x`. It is exact. -/
def remainder (x : Float) (n : Nat) : Float :=
  match ofFloat x with
  | .finite negative m (.ofNat q) => signed negative (m * Nat.pow 2 q % n)
  | .finite negative m (.negSucc k) =>
    signed negative (m % (n * Nat.pow 2 (k + 1))) * powerOfTwo (.negSucc k)
  | _ => 0.0 / 0.0

/-- The remainder modulo `n`, moved up by `n` when it is negative. -/
def wrap (x : Float) (n : Nat) : Float :=
  let r := remainder x n
  if r < 0.0 then r + Float.ofNat n else r

/-- The value of the interval from `low` to `high` nearest to `x`; NaN stays NaN. -/
def clamp (low high x : Float) : Float :=
  if x < low then low else if high < x then high else x

end Binary64

end Less
