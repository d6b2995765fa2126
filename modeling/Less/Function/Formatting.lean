import Less.Function.Argument
import Less.Function.Registry
import Less.Text.Bytes
import Less.Text.Quoted

/-!
# Text functions

`escape` takes the quotes off a string. `format` fills the placeholders `%s`, `%d`, `%a` of a quoted template with
its further arguments, from left to right; an upper-case placeholder percent-encodes what it is filled with, and
`%s` and `%S` take the quotes off a string. Placeholders without an argument stay, arguments without a placeholder
are ignored, and what was filled in is not looked at again.
-/

namespace Less.Function

/-- A text without its quotes, if it has any. -/
def withoutQuotes (cs : List Char) : List Char :=
  match Text.unquote cs with
  | some (_, inner) => inner
  | none => cs

/-- Takes the quotes off its argument. -/
def escape : Function
  | _, [argument] => .ok (.literal (String.ofList (withoutQuotes argument.text.toList)) none)
  | name, _ => .error (Argument.arityError name)

/-- The letters that follow `%` in a placeholder. -/
def isPlaceholder (c : Char) : Bool :=
  ['s', 'd', 'a', 'S', 'D', 'A'].contains c

/-- What a placeholder is replaced by. -/
def fillOne (letter : Char) (argument : Expr) : List Char :=
  let written := argument.text.toList
  let plain :=
    match argument with
    | .literal _ _ => if letter = 's' ∨ letter = 'S' then withoutQuotes written else written
    | _ => written
  if letter.isUpper then Text.percentEncode plain else plain

/-- Fills the placeholders of a template in turn. -/
def fill : List Char → List Expr → List Char
  | [], _ => []
  | '%' :: c :: rest, [] => '%' :: fill (c :: rest) []
  | '%' :: c :: rest, argument :: others =>
    if isPlaceholder c then fillOne c argument ++ fill rest others
    else '%' :: fill (c :: rest) (argument :: others)
  | c :: rest, arguments => c :: fill rest arguments

/-- Fills a quoted template. -/
def format : Function
  | name, [] => .error (Argument.arityError name)
  | name, template :: arguments =>
    match Text.unquote template.text.toList with
    | some (quote, body) => .ok (.literal (String.ofList (quote :: fill body arguments ++ [quote])) none)
    | none => .error (Argument.kindError name 1 "a string" template)

end Less.Function
