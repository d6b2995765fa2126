import Less.Text.Blank

/-!
# Selectors

A selector is kept as text with its words separated by single spaces, so that equality of selectors is equality of
their words and a rule set can be looked up by its selector.

`Selector.combine` resolves a selector against its parent: every `&` stands for the parent, and a selector without
one is a descendant of the parent.
-/

namespace Less

/-- The text of a selector. -/
structure Selector where
  text : String
deriving DecidableEq, Repr, Inhabited

namespace Selector

/-- The selector a text denotes. -/
def ofText (s : String) : Selector :=
  ⟨collapseText s⟩

/-- Puts the parent's text in the place of every `&`. -/
def substitute (parent : List Char) (cs : List Char) : List Char :=
  cs.flatMap fun c => if c = '&' then parent else [c]

/-- A selector inside the rule set of another one. -/
def combine (parent child : Selector) : Selector :=
  let cs := child.text.toList
  if cs.contains '&' then ofText (String.ofList (substitute parent.text.toList cs))
  else ofText (parent.text ++ " " ++ child.text)

/-- Every child inside every parent, the parents in the outer order. -/
def combineAll (parents children : List Selector) : List Selector :=
  parents.flatMap fun parent => children.map parent.combine

end Selector

end Less
