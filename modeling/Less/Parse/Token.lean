import Less.Expr
import Less.Parse.Cursor

/-!
# Tokens of values

A value is cut into tokens, each with its position and whether blanks or comments stand before it, which tells a
difference from a negative number and a quotient from a separator.

* **`Cursor.token`** reads one token.
* **`Cursor.tokens`** reads tokens up to a stop outside parentheses. Parentheses have to match, braces must not occur,
  and `!important` is taken out.
-/

namespace Less.Parse

open Less.Text

/-- What a token is. -/
inductive TokenKind where
  | number (text : String)
  /-- A hexadecimal color. -/
  | color (text : String)
  | var (name : String)
  /-- A word, a string or another piece that is written as it is. -/
  | word (text : String)
  /-- The name of a function with the parenthesis behind it. -/
  | call (name : String)
  | access (target : String) (member : Member)
  | lparen
  | rparen
  | comma
  | plus
  | minus
  | star
  | slash
deriving DecidableEq, Repr

/-- A token with its position; `spaced` says that blanks or comments stand before it. -/
structure Token where
  kind : TokenKind
  position : Position
  spaced : Bool
deriving DecidableEq, Repr

/-- Functions whose arguments are not looked at. -/
def isRawCall (name : String) : Bool :=
  let lowered := lowerAscii name
  lowered = "url" || lowered = "var" || lowered = "expression" || "calc".toList.isSuffixOf lowered.toList

namespace Cursor

/-! ## Numbers -/

/-- Digits, and points that a digit follows. -/
def mantissa : List Char → Split
  | [] => ([], [])
  | c :: cs =>
    if c.isDigit || (c == '.' && nextIs Char.isDigit cs) then keep c (mantissa cs) else ([], c :: cs)

/-- An exponent: `e`, an optional sign and digits. Without digits, the `e` belongs to the unit. -/
def exponent (cs : List Char) : Split :=
  match cs with
  | e :: rest =>
    if e = 'e' ∨ e = 'E' then
      match rest with
      | sign :: digits =>
        if sign.isDigit then (e :: rest.takeWhile Char.isDigit, rest.dropWhile Char.isDigit)
        else if (sign = '+' ∨ sign = '-') ∧ nextIs Char.isDigit digits then
          (e :: sign :: digits.takeWhile Char.isDigit, digits.dropWhile Char.isDigit)
        else ([], cs)
      | [] => ([], cs)
    else ([], cs)
  | [] => ([], cs)

/-- A percent sign or ASCII letters. -/
def unit (cs : List Char) : Split :=
  match cs with
  | '%' :: rest => (['%'], rest)
  | _ => (cs.takeWhile Char.isAlpha, cs.dropWhile Char.isAlpha)

/-- A number with its unit. -/
def numberText (cs : List Char) : Split :=
  let m := mantissa cs
  let e := exponent m.2
  let u := unit e.2
  (m.1 ++ e.1 ++ u.1, u.2)

/-! ## Words and calls -/

/-- The arguments of a call as they are, up to the parenthesis that closes them; `depth` of them are open. -/
def rawArguments (start : Position) :
    Nat → Option (Char × Position) → Position → List Char → Except Fault (Parsed (List Char))
  | _, some (_, opened), _, [] => .error ⟨.unterminatedString, opened⟩
  | _, none, _, [] => .error ⟨.missingParenthesis, start⟩
  | depth, some (quote, opened), p, '\\' :: c :: cs => do
    let (taken, cursor) ← rawArguments start depth (some (quote, opened)) ((p.advance '\\').advance c) cs
    return ('\\' :: c :: taken, cursor)
  | depth, some (quote, opened), p, c :: cs => do
    let (taken, cursor) ←
      rawArguments start depth (if c = quote then none else some (quote, opened)) (p.advance c) cs
    return (c :: taken, cursor)
  | depth, none, p, c :: cs =>
    if c = ')' ∧ depth ≤ 1 then .ok ([c], ⟨cs, p.advance c⟩)
    else do
      let depth' := if c = '(' then depth + 1 else if c = ')' then depth - 1 else depth
      let quote := if isQuote c then some (c, p) else none
      let (taken, cursor) ← rawArguments start depth' quote (p.advance c) cs
      return (c :: taken, cursor)

/-- A word, or the start of a call when a parenthesis follows directly. -/
def word (c : Cursor) : Except Fault (Parsed TokenKind) :=
  let (name, after) := c.name
  if after.peek? ≠ some '(' then .ok (.word name, after)
  else if isRawCall name then do
    let (arguments, after) ← rawArguments c.position 0 none after.position after.rest
    return (.word (name ++ String.ofList arguments), after)
  else .ok (.call name, after.advance)

/-! ## Accessors -/

/-- The member between the brackets of an accessor. -/
def member (c : Cursor) : Except Fault (Parsed Member) :=
  match c.peek? with
  | some '@' => let (name, c) := c.advance.name; .ok (.var name, c)
  | some '"' | some '\'' => do
    let (name, c) ← c.quotedContent
    return (.property name, c)
  | _ => let (name, c) := c.name; .ok (.property name, c)

/-- The brackets of an accessor behind its selector. -/
def accessor (c : Cursor) (target : String) : Except Fault (Parsed TokenKind) := do
  let inside ← c.expect '['
  let (member, after) ← inside.skipBlanks.member
  let after ← after.skipBlanks.expect ']'
  if member.name = "" then c.fail .expectedMemberName else return (.access target member, after)

/-- A selector in a value: the target of an accessor, or a piece of its own kind. -/
def accessorOr (c : Cursor) (target : String) (kind : TokenKind) : Except Fault (Parsed TokenKind) :=
  if c.peek? = some '[' then c.accessor target else .ok (kind, c)

/-! ## Tokens -/

/-- The digits of a hexadecimal color. -/
def isColorDigits (cs : List Char) : Bool :=
  (cs.length = 3 || cs.length = 6 || cs.length = 8) && cs.all isHexDigit

/-- The token at a place where a character `ch` comes next, followed by `next`. -/
def tokenAt (c : Cursor) (ch : Char) (next : List Char) : Except Fault (Parsed TokenKind) :=
  let single := fun (kind : TokenKind) => (.ok (kind, c.advance) : Except Fault (Parsed TokenKind))
  if ch.isDigit || (ch == '.' && nextIs Char.isDigit next) then
    let s := numberText c.rest
    .ok (.number (String.ofList s.1), c.move s)
  else if ch == '.' && nextIs isNameStart next then
    let (word, after) := c.advance.name
    after.accessorOr ("." ++ word) (.word ("." ++ word))
  else if ch == '#' then
    let (word, after) := c.advance.takeWhile isNameChar
    let text := "#" ++ String.ofList word
    after.accessorOr text (if isColorDigits word then .color text else .word text)
  else if ch == '@' then
    let (name, after) := c.advance.name
    if name = "" then c.fail .expectedVariableName else .ok (.var name, after)
  else if isQuote ch then do
    let (text, after) ← c.quoted
    return (.word (String.ofList text), after)
  else if ch == '~' && nextIs isQuote next then do
    let (text, after) ← c.advance.quotedContent
    return (.word text, after)
  else if ch == '%' && nextIs (· == '(') next then .ok (.call "%", c.advance.advance)
  else if ch == '(' then single .lparen
  else if ch == ')' then single .rparen
  else if ch == ',' then single .comma
  else if ch == '+' then single .plus
  else if ch == '*' then single .star
  else if ch == '/' then single .slash
  else if ch == '-' && nextIs (fun d => isNameStart d || d == '-') next then c.word
  else if ch == '-' then single .minus
  else if isNameStart ch then c.word
  else single (.word (String.singleton ch))

/-- The tokens of a value with the place they end at. -/
structure Tokens where
  list : List Token
  important : Bool

/-- The nesting behind a token, unless it closes a parenthesis that is not open. -/
def nesting? (depth : Nat) : TokenKind → Option Nat
  | .lparen | .call _ => some (depth + 1)
  | .rparen => if depth = 0 then none else some (depth - 1)
  | _ => some depth

/-- Reads tokens inside `depth` open parentheses, up to one of the stops outside all of them. -/
def tokensFrom (stops : List Char) : Nat → Nat → Cursor → Except Fault (Parsed Tokens)
  | 0, _, c => c.fail .exhausted
  | n + 1, depth, before =>
    let blanks := trivia before.rest
    let c := before.move blanks
    let spaced := !blanks.1.isEmpty
    match c.rest with
    | [] => if 0 < depth then c.fail .missingParenthesis else .ok (⟨[], false⟩, c)
    | ch :: next =>
      if depth = 0 ∧ stops.contains ch then .ok (⟨[], false⟩, c)
      else if ch = '{' ∨ ch = '}' then c.fail (.unexpectedInValue ch)
      else if ch = '!' then
        let after := c.advance.skipBlanks
        if startsWithWord "important".toList after.rest then do
          let (tokens, last) ← tokensFrom stops n depth (after.drop "important".length)
          return ({ tokens with important := true }, last)
        else do
          let (tokens, last) ← tokensFrom stops n depth after
          return ({ tokens with list := ⟨.word "!", c.position, spaced⟩ :: tokens.list }, last)
      else do
        let (kind, after) ← c.tokenAt ch next
        match nesting? depth kind with
        | none => c.fail .unexpectedParenthesis
        | some depth =>
          let (tokens, last) ← tokensFrom stops n depth after
          return ({ tokens with list := ⟨kind, c.position, spaced⟩ :: tokens.list }, last)

/-- The tokens of a value up to one of the stops. -/
def tokens (c : Cursor) (stops : List Char) : Except Fault (Parsed Tokens) :=
  tokensFrom stops (c.rest.length + 1) 0 c

end Cursor

end Less.Parse
