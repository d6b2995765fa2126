import Less.Decimal.Shortest

/-!
# Decimals with a fixed number of places

`fixed` rounds the exact value of a double to a number of decimal places; a tie goes to the even neighbour.
`fixedTrimmed` then drops the zeros at the end of the fraction, and the point if nothing follows it.
-/

namespace Less.Decimal

/-- The quotient rounded to the nearest whole number, a tie to the even one. -/
def divideToEven (num den : Nat) : Nat :=
  let down := num / den
  let twice := 2 * (num % den)
  if twice < den then down
  else if den < twice then down + 1
  else if down % 2 = 0 then down else down + 1

/-- A double rounded to `places` decimal places. -/
def fixed (places : Nat) (x : Float) : List Char :=
  match Binary64.ofFloat x with
  | .finite negative m q =>
    let c := divideToEven (m * Nat.pow 10 places * Nat.pow 2 q.toNat) (Nat.pow 2 (-q).toNat)
    let digits := positional c (-(places : Int))
    if negative then '-' :: digits else digits
  | _ => text x

/-- Drops the zeros that end a fraction, and then the point if it stands last. -/
def dropTrailingZeros (cs : List Char) : List Char :=
  if cs.contains '.' then
    match cs.reverse.dropWhile (· == '0') with
    | '.' :: whole => whole.reverse
    | rest => rest.reverse
  else cs

/-- A double rounded to at most `places` decimal places. -/
def fixedTrimmed (places : Nat) (x : Float) : List Char :=
  dropTrailingZeros (fixed places x)

end Less.Decimal
