/-!
# Texts as bytes

Texts leave the program as UTF-8. This module percent-encodes the bytes of a text, and cuts a text after
a number of bytes: a character that the cut splits is replaced by U+FFFD.
-/

namespace Less.Text

/-- The UTF-8 bytes of a text. -/
def bytes (cs : List Char) : List UInt8 :=
  cs.flatMap String.utf8EncodeChar

/-- Bytes that percent-encoding keeps: ASCII letters and digits and `-`, `_`, `.`, `~`. -/
def isUnreserved (b : UInt8) : Bool :=
  let c := Char.ofNat b.toNat
  b < 128 && (c.isAlpha || c.isDigit || c == '-' || c == '_' || c == '.' || c == '~')

/-- The hexadecimal digit of a number below 16, in upper case. -/
def upperHexDigit (n : Nat) : Char :=
  if n < 10 then Char.ofNat (n + '0'.toNat) else Char.ofNat (n - 10 + 'A'.toNat)

/-- An unreserved byte as it is, every other one as `%` and two digits. -/
def percentByte (b : UInt8) : List Char :=
  if isUnreserved b then [Char.ofNat b.toNat]
  else ['%', upperHexDigit (b.toNat / 16), upperHexDigit (b.toNat % 16)]

/-- Percent-encodes every byte of a text. -/
def percentEncode (cs : List Char) : List Char :=
  (bytes cs).flatMap percentByte

/-- The first `limit` bytes of a text, read again as text. -/
def takeBytes : Nat → List Char → List Char
  | _, [] => []
  | limit, c :: cs =>
    if limit = 0 then []
    else if c.utf8Size ≤ limit then c :: takeBytes (limit - c.utf8Size) cs
    else ['\ufffd']

/-- The number of bytes of a text. -/
def byteCount (cs : List Char) : Nat :=
  cs.foldr (fun c n => c.utf8Size + n) 0

end Less.Text
