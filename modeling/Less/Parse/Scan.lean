import Less.Text.Blank
import Less.Text.Letter
import Less.Text.Quoted

/-!
# Scanners

A scanner splits a list of characters into the part it takes and the rest; the two parts together always make up the
list. The scanners of this module know neither positions nor faults.

* **`trivia`** takes blanks and comments.
* **`name`** takes a name; a hyphen belongs to it only if a name character follows, so that `@a-@b` is a
  difference.
* **`mixinName?`** takes a class or an id.
* **`splitTop`** cuts a list at the commas outside parentheses, brackets and quotes.
-/

namespace Less.Parse

open Less.Text

/-- The part a scanner takes and the rest. -/
abbrev Split := List Char × List Char

/-- Takes one more character in front. -/
def keep (c : Char) (s : Split) : Split :=
  (c :: s.1, s.2)

/-! ## Blanks and comments -/

mutual

/-- Blanks and comments. -/
def trivia : List Char → Split
  | [] => ([], [])
  | '/' :: '/' :: cs => keep '/' (keep '/' (lineComment cs))
  | '/' :: '*' :: cs => keep '/' (keep '*' (blockComment cs))
  | c :: cs => if isBlank c then keep c (trivia cs) else ([], c :: cs)

/-- The rest of a comment up to the end of the line, and what follows it. -/
def lineComment : List Char → Split
  | [] => ([], [])
  | c :: cs => if c = '\n' then keep c (trivia cs) else keep c (lineComment cs)

/-- The rest of a comment up to its closing mark or to the end of the text, and what follows it. -/
def blockComment : List Char → Split
  | [] => ([], [])
  | '*' :: '/' :: cs => keep '*' (keep '/' (trivia cs))
  | c :: cs => keep c (blockComment cs)

end

/-! ## Names -/

/-- Characters a name may have behind its first one. -/
def isNameChar (c : Char) : Bool :=
  isWordChar c || c == '-' || c == '_'

/-- Characters a word may start with. -/
def isNameStart (c : Char) : Bool :=
  isLetter c || c == '_'

/-- The next character exists and passes a test. -/
def nextIs (p : Char → Bool) : List Char → Bool
  | [] => false
  | c :: _ => p c

/-- The character, with what follows it, belongs to a name. -/
def continuesName (c : Char) (rest : List Char) : Bool :=
  if c = '-' then nextIs isNameChar rest else isWordChar c || c == '_'

/-- A name, which may be empty. -/
def name : List Char → Split
  | [] => ([], [])
  | c :: cs => if continuesName c cs then keep c (name cs) else ([], c :: cs)

/-- A class or an id. -/
def mixinName? : List Char → Option Split
  | c :: cs =>
    if c = '.' ∨ c = '#' then
      let (word, rest) := name cs
      if word = [] then none else some (c :: word, rest)
    else none
  | [] => none

/-- The text starts with a word and no name character follows it. -/
def startsWithWord (word : List Char) (cs : List Char) : Bool :=
  word.isPrefixOf cs && !nextIs isNameChar (cs.drop word.length)

/-! ## Parentheses -/

/-- The rest behind the parenthesis that closes `depth + 1` open ones. -/
def afterBalanced? : Nat → List Char → Option (List Char)
  | _, [] => none
  | depth, c :: cs =>
    if c = '(' then afterBalanced? (depth + 1) cs
    else if c = ')' then
      match depth with
      | 0 => some cs
      | depth + 1 => afterBalanced? depth cs
    else afterBalanced? depth cs

/-- The condition of a guard: all up to a brace outside parentheses. -/
def guard : Nat → List Char → Split
  | _, [] => ([], [])
  | depth, c :: cs =>
    if c = '{' ∧ depth = 0 then ([], c :: cs)
    else if c = '(' then keep c (guard (depth + 1) cs)
    else if c = ')' then keep c (guard (depth - 1) cs)
    else keep c (guard depth cs)

/-- Cuts at every separator outside parentheses, brackets and quotes. -/
def splitTop (separator : Char) : Nat → Option Char → List Char → List (List Char)
  | _, _, [] => [[]]
  | depth, quote, c :: cs =>
    let continued := fun depth quote =>
      match splitTop separator depth quote cs with
      | [] => [[c]]
      | part :: parts => (c :: part) :: parts
    match quote with
    | some q => continued depth (if c = q then none else some q)
    | none =>
      if isQuote c then continued depth (some c)
      else if c = '(' ∨ c = '[' then continued (depth + 1) none
      else if c = ')' ∨ c = ']' then continued (depth - 1) none
      else if c = separator ∧ depth = 0 then [] :: splitTop separator depth none cs
      else continued depth none

/-! ## What comes next -/

/-- What the next entry of a block is. -/
inductive EntryKind where
  | declaration
  | ruleSet
deriving DecidableEq, Repr

/-- Looks for a brace or a semicolon outside quotes. Without either, a colon tells a declaration. -/
def entryKind (colon : Bool) : Option Char → List Char → Option EntryKind
  | _, [] => if colon then some .declaration else none
  | some q, '\\' :: _ :: cs => entryKind colon (some q) cs
  | some q, c :: cs => entryKind colon (if c = q then none else some q) cs
  | none, c :: cs =>
    if c = '{' then some .ruleSet
    else if c = ';' then some .declaration
    else if c = '}' then if colon then some .declaration else none
    else if isQuote c then entryKind colon (some c) cs
    else entryKind (colon || c == ':') none cs

/-- The rest behind blanks and comments. -/
def afterTrivia (cs : List Char) : List Char :=
  (trivia cs).2

/-- A mixin name, parameters in parentheses, an optional guard and a brace come next. -/
def mixinDefinitionAhead (cs : List Char) : Bool :=
  match mixinName? cs with
  | none => false
  | some (_, rest) =>
    match afterTrivia rest with
    | '(' :: rest =>
      match afterBalanced? 0 rest with
      | none => false
      | some rest =>
        let rest := afterTrivia rest
        let rest := if startsWithWord "when".toList rest then (guard 0 (rest.drop 4)).2 else rest
        rest.head? == some '{'
    | _ => false

/-- The text goes on with the end of a mixin call. -/
def callEndAhead (cs : List Char) : Bool :=
  cs.head? == some ';' || cs.head? == some '}'

/-- A mixin name, optional arguments in parentheses and the end of a statement come next. -/
def mixinCallAhead (cs : List Char) : Bool :=
  match mixinName? cs with
  | none => false
  | some (_, rest) =>
    match afterTrivia rest with
    | '(' :: rest =>
      match afterBalanced? 0 rest with
      | none => false
      | some rest => callEndAhead (afterTrivia rest)
    | rest => callEndAhead rest

end Less.Parse
