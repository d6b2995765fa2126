import Less.Parse.Block

/-!
# Statements of a sheet

At the top level a source text is a list of statements. `statements` reads them up to the end of the text or the
first fault; `Sheet.perform` adds a statement to a sheet, and `Sheet.parse` does both.

An import of another source text is kept as a request, so that whoever follows imports can put the imported sheet in
its place. Without that, and for imports of CSS, the import is written out as it is.
-/

namespace Less.Parse

open Less.Text

/-- A statement at the top level. -/
inductive Statement where
  | charset (text : String)
  /-- An import that is written out. -/
  | cssImport (text : String)
  /-- An import of another source text; `text` is how it is written if it is not followed. -/
  | fileImport (target text : String) (position : Position)
  | variable (name : String) (value : Expr)
  | element (e : Element)

/-! ## Imports -/

/-- The target of an import: a quoted text or the first word. There is none if a quote is not closed or the target
is given by `url(`. -/
def importTarget? (cs : List Char) : Option (List Char) :=
  match trim cs with
  | [] => none
  | first :: rest =>
    if isQuote first then
      if rest.contains first then some (rest.takeWhile (· ≠ first)) else none
    else if "url(".toList.isPrefixOf (first :: rest) then none
    else some ((first :: rest).takeWhile (!isBlank ·))

/-- The options of an import and what follows them. -/
def importOptions (c : Cursor) (cs : List Char) : Except Fault (List String × List Char) :=
  match cs with
  | '(' :: rest =>
    if rest.contains ')' then
      let options := splitWhere (fun ch => ch == ',' || isBlank ch) (rest.takeWhile (· ≠ ')'))
      .ok ((options.filter (· ≠ [])).map (lowerAscii ∘ String.ofList),
        trimStart ((rest.dropWhile (· ≠ ')')).drop 1))
    else c.fail .incompleteImportOptions
  | cs => .ok ([], cs)

/-- The import is of CSS and is not followed. -/
def isCssImport (options : List String) (target : Option (List Char)) : Bool :=
  options.contains "css" ||
    match target with
    | none => true
    | some target => ".css".toList.isSuffixOf target

namespace Cursor

/-- All up to a semicolon, which is taken too. -/
def statementText (c : Cursor) : Except Fault (Parsed (List Char)) := do
  let (text, c) ← c.upTo ';'
  let c ← c.expect ';'
  return (text, c)

/-- An import. -/
def importStatement (c : Cursor) : Except Fault (Parsed Statement) := do
  let (taken, after) ← c.atKeyword.2.statementText
  let (options, remainder) ← importOptions c (trim taken)
  let text := "@import " ++ String.ofList remainder ++ ";"
  match importTarget? remainder with
  | some target =>
    if isCssImport options (some target) then return (.cssImport text, after)
    else return (.fileImport (String.ofList target) text c.position, after)
  | none => return (.cssImport text, after)

/-- The statement of a keyword. -/
def atStatement (c : Cursor) : Except Fault (Parsed Statement) := do
  let keyword := lowerAscii c.atKeyword.1
  if c.variableAhead then
    let ((name, value), after) ← c.variableDefinition
    return (.variable name value, after)
  else if keyword = "import" then c.importStatement
  else if keyword = "charset" then
    let (text, after) ← c.atKeyword.2.statementText
    return (.charset (String.ofList (trim text)), after)
  else if keyword = "media" then
    let (media, after) ← c.media
    return (.element (.media media), after)
  else if keyword = "page" then
    let (page, after) ← c.page
    return (.element (.page page), after)
  else if keyword = "keyframes" || "-keyframes".toList.isSuffixOf keyword.toList then
    let (keyframes, after) ← c.keyframes
    return (.element (.keyframes keyframes), after)
  else if c.blockAhead then
    let (r, after) ← c.atRuleSet
    return (.element (.ruleSet r), after)
  else c.fail (.unsupportedAtRule keyword)

/-- The statement at a place where one starts. -/
def statement (c : Cursor) : Except Fault (Parsed Statement) := do
  if c.peek? = some '@' then c.atStatement
  else if mixinDefinitionAhead c.rest then
    let (mixin, after) ← c.mixinDefinition block
    return (.element (.ruleSet mixin), after)
  else if mixinCallAhead c.rest then c.fail .mixinCallOutside
  else
    let (r, after) ← c.ruleSet block
    return (.element (.ruleSet r), after)

/-- The statements up to the end of the text, or those before the first fault with that fault. -/
def statementsFrom : Nat → Cursor → List Statement × Option Fault
  | 0, c => ([], some ⟨.exhausted, c.position⟩)
  | n + 1, c =>
    let c := c.skipTrivia
    if c.rest = [] then ([], none)
    else
      match c.statement with
      | .error f => ([], some f)
      | .ok (s, after) =>
        let (more, fault) := statementsFrom n after
        (s :: more, fault)

end Cursor

/-- The statements of a source text, and the fault that stopped the reader if there was one. -/
def statements (cs : List Char) : List Statement × Option Fault :=
  Cursor.statementsFrom (cs.length + 1) (.ofText cs)

end Less.Parse

namespace Less.Sheet

/-- Adds a statement to a sheet; imports are written out. -/
def perform (sheet : Sheet) : Parse.Statement → Sheet
  | .charset text => { sheet with charset := some text }
  | .cssImport text => { sheet with imports := sheet.imports ++ [text] }
  | .fileImport _ text _ => { sheet with imports := sheet.imports ++ [text] }
  | .variable name value => { sheet with container := sheet.container.setVariable name value }
  | .element e => { sheet with container := sheet.container.add e }

/-- The sheet of a source text, without following imports. -/
def parse (cs : List Char) : Except Parse.Fault Sheet :=
  match Parse.statements cs with
  | (_, some f) => .error f
  | (ss, none) => .ok (ss.foldl perform .empty)

end Less.Sheet
