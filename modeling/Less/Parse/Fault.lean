import Less.Error

/-!
# Faults of a source text

Reading a source text stops at the first fault: a cause and the position it is reported at. `Cause.message` is the
wording; every fault becomes a parse error with its position.
-/

namespace Less.Parse

/-- What is wrong with a source text. -/
inductive Cause where
  | expected (c : Char)
  | expectedInstead (c found : Char)
  | unterminatedString
  | missingSelector
  | missingBrace
  | missingParenthesis
  | unexpectedParenthesis
  | unexpectedInValue (c : Char)
  | unexpectedEndOfValue
  | invalidNumber (text : String)
  | expectedVariableName
  | expectedMemberName
  | expectedMixinName
  | invalidMixinName
  | expectedParameterName
  | expectedParameterEnd
  | expectedArgumentEnd
  | expectedPropertyName
  | expectedItem
  | mixinCallOutside
  | mixinDefinitionInside
  | nestedRuleSet
  | nestedAtRule (name : String)
  | unsupportedAtRule (name : String)
  | incompleteImportOptions
  /-- The text is longer than the bound that was given for it. -/
  | exhausted
deriving DecidableEq, Repr

/-- The wording of a cause. -/
def Cause.message : Cause → String
  | expected c => "Expected '" ++ String.singleton c ++ "'"
  | expectedInstead c found =>
    "Expected '" ++ String.singleton c ++ "' but found '" ++ String.singleton found ++ "'"
  | unterminatedString => "Unterminated string"
  | missingSelector => "Missing selector"
  | missingBrace => "Missing closing '\x7d'"
  | missingParenthesis => "Missing closing ')'"
  | unexpectedParenthesis => "Unexpected ')'"
  | unexpectedInValue c => "Unexpected '" ++ String.singleton c ++ "' in value"
  | unexpectedEndOfValue => "Unexpected end of value"
  | invalidNumber text => "Invalid number '" ++ text ++ "'"
  | expectedVariableName => "Expected a variable name"
  | expectedMemberName => "Expected a property name in accessor"
  | expectedMixinName => "Expected a mixin name"
  | invalidMixinName => "Invalid mixin name"
  | expectedParameterName => "Expected a mixin parameter name"
  | expectedParameterEnd => "Expected ',' or ')' in mixin parameters"
  | expectedArgumentEnd => "Expected ',' or ')' in mixin arguments"
  | expectedPropertyName => "Expected a property name"
  | expectedItem => "Expected a declaration or a nested rule set"
  | mixinCallOutside => "Mixin calls are only allowed inside rule sets"
  | mixinDefinitionInside => "Mixin definitions are not allowed here"
  | nestedRuleSet => "Nested rule sets are not allowed here"
  | nestedAtRule name => "Nested at-rule '@" ++ name ++ "' is not supported"
  | unsupportedAtRule name => "Unsupported at-rule '@" ++ name ++ "'"
  | incompleteImportOptions => "Incomplete @import options"
  | exhausted => "Source text too long"

/-- A cause with the position it is reported at. -/
structure Fault where
  cause : Cause
  position : Position
deriving DecidableEq, Repr

/-- A fault as an error. -/
def Fault.toError (f : Fault) : Error :=
  .parseAt f.cause.message f.position

end Less.Parse
