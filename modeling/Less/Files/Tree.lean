import Less.Files.Path

/-!
# Trees of files

The files a compilation may read, as a value: absolute paths with their contents, and the directory that relative
paths start from. A directory exists if it is listed or if something lies in it.

A path is followed segment by segment. Every segment needs a directory before it, also an empty one, so that a slash
behind the name of a file leads nowhere.
-/

namespace Less

/-- What lies at a path: a file, with its text unless its bytes are no text, or a directory. -/
inductive FileNode where
  | file (text : Option String)
  | directory
deriving DecidableEq, Repr

/-- Why a file cannot be read. -/
inductive FileError where
  | notFound
  | notDirectory
  | isDirectory
  | notText
deriving DecidableEq, Repr

/-- The wording of the system. -/
def FileError.message : FileError → String
  | notFound => "No such file or directory (os error 2)"
  | notDirectory => "Not a directory (os error 20)"
  | isDirectory => "Is a directory (os error 21)"
  | notText => "stream did not contain valid UTF-8"

/-- The segments of an absolute path. -/
abbrev Location := List (List Char)

/-- Files and directories with the working directory. -/
structure FileTree where
  nodes : List (Location × FileNode) := []
  workingDirectory : Location := []
deriving Inhabited

namespace FileTree

/-- What lies at a location. -/
def node? (t : FileTree) (l : Location) : Option FileNode :=
  match t.nodes.lookup l with
  | some node => some node
  | none =>
    if l.isPrefixOf t.workingDirectory || t.nodes.any (fun (m, _) => l.isPrefixOf m) then some .directory
    else none

/-- Follows segments from a location. -/
def follow (t : FileTree) : Location → List (List Char) → Except FileError Location
  | l, [] => .ok l
  | l, s :: rest =>
    if t.node? l ≠ some .directory then .error .notDirectory
    else if s = [] ∨ s = ['.'] then follow t l rest
    else if s = ['.', '.'] then follow t l.dropLast rest
    else if (t.node? (l ++ [s])).isNone then .error .notFound
    else follow t (l ++ [s]) rest

/-- The location a path leads to. -/
def locate (t : FileTree) (p : Path) : Except FileError Location :=
  if p.text = "" then .error .notFound
  else t.follow (if p.isAbsolute then [] else t.workingDirectory) p.segments

/-- The path of a location. -/
def pathOf (l : Location) : Path :=
  ⟨String.ofList ('/' :: List.intercalate ['/'] l)⟩

/-- The absolute path of a file, if the path leads to one. -/
def file? (t : FileTree) (p : Path) : Option Path :=
  match t.locate p with
  | .error _ => none
  | .ok l =>
    match t.node? l with
    | some (.file _) => some (pathOf l)
    | _ => none

/-- The text of the file at a path. -/
def read (t : FileTree) (p : Path) : Except FileError String := do
  let l ← t.locate p
  match t.node? l with
  | some (.file (some text)) => .ok text
  | some (.file none) => .error .notText
  | some .directory => .error .isDirectory
  | none => .error .notFound

/-- The location of a path from the working directory, whether or not something lies there. -/
def target (t : FileTree) (p : Path) : Location :=
  p.segments.foldl
    (fun l s => if s = [] ∨ s = ['.'] then l else if s = ['.', '.'] then l.dropLast else l ++ [s])
    (if p.isAbsolute then [] else t.workingDirectory)

/-- Puts a file or directory at a path. -/
def write (t : FileTree) (p : Path) (node : FileNode) : FileTree :=
  let l := t.target p
  { t with nodes := (t.nodes.filter (·.1 ≠ l)) ++ [(l, node)] }

/-- Removes what lies at a path; the directory it lay in remains. -/
def remove (t : FileTree) (p : Path) : FileTree :=
  let l := t.target p
  { t with nodes := (t.nodes.filter fun (m, _) => !l.isPrefixOf m) ++ [(l.dropLast, .directory)] }

end FileTree

end Less
