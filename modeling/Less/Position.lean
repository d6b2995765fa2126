/-!
# Positions in a source text

Lines are counted from 1 and columns from 0, a column being one character. `Position.advance` moves a position
past a character, so that the position after a text is a fold over it (`Position.after`).
-/

namespace Less

/-- A place in a source text. -/
structure Position where
  line : Nat
  column : Nat
deriving DecidableEq, Repr, Inhabited

namespace Position

/-- The place where every text starts. -/
def start : Position := ⟨1, 0⟩

/-- The place one character further on: a line feed opens the next line. -/
def advance (p : Position) (c : Char) : Position :=
  if c = '\n' then ⟨p.line + 1, 0⟩ else ⟨p.line, p.column + 1⟩

/-- The place after the characters of a text. -/
def after (p : Position) (cs : List Char) : Position :=
  cs.foldl advance p

/-- A position as diagnostics show it. -/
def text (p : Position) : String :=
  "[" ++ toString p.line ++ ":" ++ toString p.column ++ "]"

end Position

end Less
