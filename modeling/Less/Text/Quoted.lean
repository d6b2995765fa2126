/-!
# Quoted strings

A string literal stands between two equal quotes, single or double. `unquote` takes the quotes off and
says which they were.
-/

namespace Less.Text

/-- The two quotes. -/
def isQuote (c : Char) : Bool :=
  c == '"' || c == '\''

/-- The quote and the content of a text that starts and ends with the same quote. -/
def unquote : List Char → Option (Char × List Char)
  | [] => none
  | q :: rest => if isQuote q && rest.getLast? == some q then some (q, rest.dropLast) else none

end Less.Text
