import Less.Sheet

/-!
# CSS text

A resolved sheet is written pretty, with one declaration a line, or minified. Both forms leave out definitions of
mixins, rule sets and pages without declarations, and blocks in which nothing is left to write; nested rule sets are
not written, as resolution has moved them out.
-/

namespace Less.Css

/-- The lines before the first rule: the character set and the imports. -/
def headerLines (sheet : Sheet) : List String :=
  (sheet.charset.map fun charset => "@charset " ++ charset ++ ";").toList ++ sheet.imports.map trimText

/-- The text in front of the braces of a page. -/
def pageHead (p : Page) : String :=
  match p.pseudo with
  | some pseudo => "@page " ++ pseudo
  | none => "@page"

/-- The text in front of the braces of keyframes. -/
def keyframesHead (k : Keyframes) : String :=
  "@" ++ k.keyword ++ " " ++ k.name

/-- The text in front of the braces of a media block. -/
def mediaHead (m : Media) (separator : String) : String :=
  "@media " ++ String.intercalate separator m.mediums

/-! ## Pretty -/

/-- Two spaces for each level. -/
def indent (level : Nat) : String :=
  String.ofList (List.replicate (2 * level) ' ')

/-- A declaration on a line of its own. -/
def prettyDeclaration (d : Declaration) : String :=
  trimText d.property ++ ": " ++ trimText d.valueText ++ (if d.important then " !important" else "") ++ ";"

/-- A block with its lines, unless there are none. -/
def prettyBlock (level : Nat) (head : String) (lines : List String) : Option String :=
  if lines = [] then none
  else some (indent level ++ head ++ " \x7b\n" ++ String.join lines ++ indent level ++ "\x7d\n")

/-- The lines of declarations inside a block. -/
def prettyLines (level : Nat) (declarations : List Declaration) : List String :=
  declarations.map fun d => indent (level + 1) ++ prettyDeclaration d ++ "\n"

mutual

/-- An element as a block, unless nothing of it is written. -/
def prettyElement (level : Nat) : Element → Option String
  | .ruleSet r =>
    if r.isMixin then none
    else prettyBlock level (r.selectorText ", ") (prettyLines level r.declarations)
  | .media ⟨mediums, ⟨vars, body⟩, p⟩ =>
    prettyBlock level (mediaHead ⟨mediums, ⟨vars, body⟩, p⟩ ", ") (prettyBody (level + 1) body)
  | .page p => prettyBlock level (pageHead p) (prettyLines level p.declarations)
  | .keyframes ⟨keyword, name, ⟨vars, body⟩, p⟩ =>
    prettyBlock level (keyframesHead ⟨keyword, name, ⟨vars, body⟩, p⟩) (prettyBody (level + 1) body)

/-- The blocks of the elements that are written. -/
def prettyBody (level : Nat) : List Element → List String
  | [] => []
  | e :: es => (prettyElement level e).toList ++ prettyBody level es

end

theorem prettyElement_of_media (level : Nat) (m : Media) :
    prettyElement level (.media m) =
      prettyBlock level (mediaHead m ", ") (prettyBody (level + 1) m.container.body) := by
  obtain ⟨mediums, ⟨vars, body⟩, p⟩ := m
  rw [prettyElement]

theorem prettyElement_of_keyframes (level : Nat) (k : Keyframes) :
    prettyElement level (.keyframes k) =
      prettyBlock level (keyframesHead k) (prettyBody (level + 1) k.container.body) := by
  obtain ⟨keyword, name, ⟨vars, body⟩, p⟩ := k
  rw [prettyElement]

theorem prettyBody_eq_filterMap (level : Nat) (es : List Element) :
    prettyBody level es = es.filterMap (prettyElement level) := by
  induction es with
  | nil => rw [prettyBody, List.filterMap_nil]
  | cons e es ih =>
      rw [prettyBody, ih, List.filterMap_cons]
      cases prettyElement level e with
      | none => rfl
      | some s => rfl

/-- A sheet with one declaration a line and an empty line between the blocks. -/
def pretty (sheet : Sheet) : String :=
  let header := headerLines sheet
  let blocks := prettyBody 0 sheet.container.body
  let gap := if header = [] ∨ blocks = [] then "" else "\n"
  trimText (String.join (header.map (· ++ "\n")) ++ gap ++ String.intercalate "\n" blocks)

/-! ## Minified -/

/-- A declaration without the blanks that can be spared. -/
def minifiedDeclaration (d : Declaration) : String :=
  trimText d.property ++ ":" ++ collapseText d.valueText ++ (if d.important then "!important" else "")

/-- A block with its parts, unless there are none. -/
def minifiedBlock (head separator : String) (parts : List String) : Option String :=
  if parts = [] then none
  else some (head ++ "\x7b" ++ String.intercalate separator parts ++ "\x7d")

mutual

/-- An element as a block, unless nothing of it is written. -/
def minifiedElement : Element → Option String
  | .ruleSet r =>
    if r.isMixin then none
    else minifiedBlock (r.selectorText ",") ";" (r.declarations.map minifiedDeclaration)
  | .media ⟨mediums, ⟨vars, body⟩, p⟩ =>
    minifiedBlock (mediaHead ⟨mediums, ⟨vars, body⟩, p⟩ ",") "" (minifiedBody body)
  | .page p => minifiedBlock (pageHead p) ";" (p.declarations.map minifiedDeclaration)
  | .keyframes ⟨keyword, name, ⟨vars, body⟩, p⟩ =>
    minifiedBlock (keyframesHead ⟨keyword, name, ⟨vars, body⟩, p⟩) "" (minifiedBody body)

/-- The blocks of the elements that are written. -/
def minifiedBody : List Element → List String
  | [] => []
  | e :: es => (minifiedElement e).toList ++ minifiedBody es

end

theorem minifiedElement_of_media (m : Media) :
    minifiedElement (.media m) =
      minifiedBlock (mediaHead m ",") "" (minifiedBody m.container.body) := by
  obtain ⟨mediums, ⟨vars, body⟩, p⟩ := m
  rw [minifiedElement]

theorem minifiedElement_of_keyframes (k : Keyframes) :
    minifiedElement (.keyframes k) =
      minifiedBlock (keyframesHead k) "" (minifiedBody k.container.body) := by
  obtain ⟨keyword, name, ⟨vars, body⟩, p⟩ := k
  rw [minifiedElement]

theorem minifiedBody_eq_filterMap (es : List Element) :
    minifiedBody es = es.filterMap minifiedElement := by
  induction es with
  | nil => rw [minifiedBody, List.filterMap_nil]
  | cons e es ih =>
      rw [minifiedBody, ih, List.filterMap_cons]
      cases minifiedElement e with
      | none => rfl
      | some s => rfl

/-- A text without the line feeds at its end. -/
def dropFinalNewlines (s : String) : String :=
  String.ofList (s.toList.reverse.dropWhile (· = '\n')).reverse

/-- A sheet without line breaks but after the lines of its header. -/
def minified (sheet : Sheet) : String :=
  dropFinalNewlines
    (String.join ((headerLines sheet).map (· ++ "\n")) ++ String.join (minifiedBody sheet.container.body))

end Less.Css

/-- The text of a sheet. -/
def Less.Sheet.toCss (sheet : Less.Sheet) (minify : Bool) : String :=
  if minify then Less.Css.minified sheet else Less.Css.pretty sheet
