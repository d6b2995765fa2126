import Less.Text.Blank

/-!
# Paths

A path is a text whose segments are separated by slashes; one that starts with a slash is absolute. Empty segments
and segments `.` behind the first one do not count.

The operations work on the text, so that a path is shown the way it was put together.
-/

namespace Less

/-- A path by its text. -/
structure Path where
  text : String
deriving DecidableEq, Repr, Inhabited

namespace Path

/-- The segments between the slashes, in order; an absolute path has an empty first one. -/
def segments (p : Path) : List (List Char) :=
  Text.splitWhere (· == '/') p.text.toList

/-- The text of segments given from the last to the first. -/
def ofReversed (segments : List (List Char)) : Path :=
  ⟨String.ofList (List.intercalate ['/'] segments.reverse)⟩

/-- The path starts at the root. -/
def isAbsolute (p : Path) : Bool :=
  p.text.toList.head? == some '/'

/-- A path inside a directory; an absolute path stays as it is. -/
def join (base : Path) (p : Path) : Path :=
  if p.isAbsolute || base.text = "" then p
  else if base.text.toList.getLast? == some '/' then ⟨base.text ++ p.text⟩
  else ⟨base.text ++ "/" ++ p.text⟩

/-- Drops the segments at the end that do not count; the first segment stays. Segments come from the last. -/
def dropIdle : List (List Char) → List (List Char)
  | [] => []
  | [s] => [s]
  | s :: rest => if s = [] ∨ s = ['.'] then dropIdle rest else s :: rest

/-- The segments from the last one that counts to the first. -/
def reversed (p : Path) : List (List Char) :=
  dropIdle p.segments.reverse

/-- The directory a path lies in. The root and the empty path lie in none. -/
def parent? (p : Path) : Option Path :=
  match p.reversed with
  | [] | [[]] => none
  | [_] => some ⟨""⟩
  | _ :: rest =>
    match dropIdle rest with
    | [[]] => some ⟨"/"⟩
    | rest => some (ofReversed rest)

/-- The last segment, if it is a name. -/
def fileName? (p : Path) : Option (List Char) :=
  match p.reversed with
  | [] => none
  | s :: _ => if s = [] ∨ s = ['.'] ∨ s = ['.', '.'] then none else some s

/-- The name of the path has a point behind its first character. -/
def hasExtension (p : Path) : Bool :=
  match p.fileName? with
  | none => false
  | some name => name.tail.contains '.'

/-- Adds an extension to the name of a path that has none. -/
def addExtension (p : Path) (extension : String) : Path :=
  match p.fileName? with
  | none => p
  | some _ => ⟨(ofReversed p.reversed).text ++ "." ++ extension⟩

end Path

end Less
