import Less.Parse.Fault
import Less.Parse.Scan

/-!
# Cursors

A cursor is the rest of a source text and the position it starts at. Every step of the reader moves a cursor past
some characters, so that its position is always that of the text before it.

A reader takes a cursor and gives a result with the cursor behind it, or a fault.
-/

namespace Less.Parse

open Less.Text

/-- A place in a source text with the text that follows it. -/
structure Cursor where
  rest : List Char
  position : Position
deriving DecidableEq, Repr

/-- A result with the place behind it. -/
abbrev Parsed (α : Type) := α × Cursor

namespace Cursor

/-- The start of a source text. -/
def ofText (cs : List Char) : Cursor :=
  ⟨cs, Position.start⟩

/-- The next character. -/
def peek? (c : Cursor) : Option Char :=
  c.rest.head?

/-- A fault at this place. -/
def fail {α : Type} (c : Cursor) (cause : Cause) : Except Fault α :=
  .error ⟨cause, c.position⟩

/-- The place behind the part a scanner has taken. -/
def move (c : Cursor) (s : Split) : Cursor :=
  ⟨s.2, c.position.after s.1⟩

/-- The place behind the next character, if there is one. -/
def advance (c : Cursor) : Cursor :=
  match c.rest with
  | [] => c
  | ch :: cs => ⟨cs, c.position.advance ch⟩

/-- The place behind the next `n` characters. -/
def drop (c : Cursor) (n : Nat) : Cursor :=
  c.move (c.rest.take n, c.rest.drop n)

/-- The place behind a character, if it comes next. -/
def accept? (c : Cursor) (ch : Char) : Option Cursor :=
  if c.peek? = some ch then some c.advance else none

/-- The place behind a character whether or not it comes next. -/
def skip (c : Cursor) (ch : Char) : Cursor :=
  (c.accept? ch).getD c

/-- The place behind a character that has to come next. -/
def expect (c : Cursor) (ch : Char) : Except Fault Cursor :=
  match c.rest with
  | [] => c.fail (.expected ch)
  | found :: _ => if found = ch then .ok c.advance else c.fail (.expectedInstead ch found)

/-- The characters that pass a test, and the place behind them. -/
def takeWhile (c : Cursor) (p : Char → Bool) : List Char × Cursor :=
  let taken := c.rest.takeWhile p
  (taken, c.move (taken, c.rest.dropWhile p))

/-- The place behind blanks. -/
def skipBlanks (c : Cursor) : Cursor :=
  (c.takeWhile isBlank).2

/-- The place behind blanks and comments. -/
def skipTrivia (c : Cursor) : Cursor :=
  c.move (trivia c.rest)

/-- A name, which may be empty. -/
def name (c : Cursor) : String × Cursor :=
  let s := Parse.name c.rest
  (String.ofList s.1, c.move s)

/-- The name behind an `@`. -/
def atKeyword (c : Cursor) : String × Cursor :=
  (c.skip '@').name

/-- A class or an id. -/
def mixinName (c : Cursor) : Except Fault (Parsed String) :=
  match mixinName? c.rest with
  | some s => .ok (String.ofList s.1, c.move s)
  | none =>
    if c.peek? = some '.' ∨ c.peek? = some '#' then c.fail .invalidMixinName
    else c.fail .expectedMixinName

/-! ## Quoted strings -/

/-- The rest of a string behind its opening quote. A backslash takes the next character with it. -/
def stringRest? (quote : Char) : List Char → Option Split
  | [] => none
  | '\\' :: c :: cs => (stringRest? quote cs).map fun s => keep '\\' (keep c s)
  | c :: cs =>
    if c = quote then some ([c], cs) else (stringRest? quote cs).map (keep c)

/-- A string with its quotes, at a place where a quote comes next. -/
def quoted (c : Cursor) : Except Fault (Parsed (List Char)) :=
  match c.rest with
  | [] => c.fail .unterminatedString
  | quote :: cs =>
    match stringRest? quote cs with
    | some s => .ok (quote :: s.1, c.move (keep quote s))
    | none => c.fail .unterminatedString

/-- The content of a string. -/
def quotedContent (c : Cursor) : Except Fault (Parsed String) := do
  let (cs, c) ← c.quoted
  return (String.ofList cs.tail.dropLast, c)

/-! ## Longer parts -/

/-- All up to a character that has to come. -/
def upTo (c : Cursor) (stop : Char) : Except Fault (Parsed (List Char)) :=
  let (taken, c) := c.takeWhile (· ≠ stop)
  if c.rest = [] then c.fail (.expected stop) else .ok (taken, c)

/-- All up to a brace outside parentheses, brackets and quotes; a semicolon or a closing brace must not come
before it. An open quote is given with the place of its start. -/
def headFrom : Nat → Option (Char × Position) → Position → List Char → Except Fault (Parsed (List Char))
  | _, some (_, start), _, [] => .error ⟨.unterminatedString, start⟩
  | _, none, p, [] => .error ⟨.expected '{', p⟩
  | depth, some (quote, start), p, '\\' :: c :: cs => do
    let (taken, cursor) ← headFrom depth (some (quote, start)) ((p.advance '\\').advance c) cs
    return ('\\' :: c :: taken, cursor)
  | depth, some (quote, start), p, c :: cs => do
    let (taken, cursor) ←
      headFrom depth (if c = quote then none else some (quote, start)) (p.advance c) cs
    return (c :: taken, cursor)
  | depth, none, p, c :: cs =>
    if c = '{' ∧ depth = 0 then .ok ([], ⟨c :: cs, p⟩)
    else if (c = ';' ∨ c = '}') ∧ depth = 0 then .error ⟨.expected '{', p⟩
    else do
      let depth' := if c = '(' ∨ c = '[' then depth + 1 else if c = ')' ∨ c = ']' then depth - 1 else depth
      let quote := if isQuote c then some (c, p) else none
      let (taken, cursor) ← headFrom depth' quote (p.advance c) cs
      return (c :: taken, cursor)

/-- The text in front of a block, without the blanks at its ends. -/
def head (c : Cursor) : Except Fault (Parsed (List Char)) := do
  let (taken, c) ← headFrom 0 none c.position c.rest
  return (trim taken, c)

/-! ## What comes next -/

/-- A variable is defined here: a name, a colon, and no block before the end of the statement. -/
def variableAhead (c : Cursor) : Bool :=
  match c.accept? '@' with
  | none => false
  | some c =>
    let (name, c) := c.name
    if name = "" then false
    else
      match c.skipTrivia.accept? ':' with
      | none => false
      | some c => !c.head.isOk

/-- A rule with a block starts here. -/
def blockAhead (c : Cursor) : Bool :=
  let (name, c) := c.atKeyword
  name ≠ "" && c.head.isOk

end Cursor

end Less.Parse
