/-!
# Blank characters

The language separates words by the 25 characters of the Unicode property `White_Space`. This module holds
the test `isBlank` and the two normalisations built on it:

* **`trim`** drops blanks at both ends of a text;
* **`collapse`** also turns every run of blanks inside it into one space, so that two texts with the same
  words collapse to the same text.

Scanning is done on lists of characters; `String` stands only at the border.
-/

namespace Less.Text

/-- The 25 characters of the Unicode property `White_Space`. -/
def isBlank (c : Char) : Bool :=
  let n := c.toNat
  (0x09 ≤ n && n ≤ 0x0d) || n == 0x20 || n == 0x85 || n == 0xa0 || n == 0x1680
    || (0x2000 ≤ n && n ≤ 0x200a) || n == 0x2028 || n == 0x2029 || n == 0x202f
    || n == 0x205f || n == 0x3000

/-- Drops the blanks at the start. -/
def trimStart (cs : List Char) : List Char :=
  cs.dropWhile isBlank

/-- Drops the blanks at the end. -/
def trimEnd (cs : List Char) : List Char :=
  (cs.reverse.dropWhile isBlank).reverse

/-- Drops the blanks at both ends. -/
def trim (cs : List Char) : List Char :=
  trimEnd (trimStart cs)

/-- Writes one space for every run of blanks; `after` says that the character before was a blank. -/
def squeeze (after : Bool) : List Char → List Char
  | [] => []
  | c :: cs =>
    if isBlank c then
      if after then squeeze true cs else ' ' :: squeeze true cs
    else c :: squeeze false cs

/-- Words separated by single spaces, with none at the ends. -/
def collapse (cs : List Char) : List Char :=
  trim (squeeze false cs)

/-- Cuts a text at every separator; empty parts are kept. -/
def splitWhere (isSeparator : Char → Bool) : List Char → List (List Char)
  | [] => [[]]
  | c :: cs =>
    match splitWhere isSeparator cs with
    | [] => if isSeparator c then [[], []] else [[c]]
    | part :: parts => if isSeparator c then [] :: part :: parts else (c :: part) :: parts

end Less.Text

namespace Less

/-- A string without the blanks at its ends. -/
def trimText (s : String) : String :=
  String.ofList (Text.trim s.toList)

/-- A string with its words separated by single spaces. -/
def collapseText (s : String) : String :=
  String.ofList (Text.collapse s.toList)

end Less
