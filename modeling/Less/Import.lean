import Less.Files.Tree
import Less.Parse.Statement

/-!
# Imports

An import is searched from the directory of the importing text and then from the include paths, each time as it is
and, if it has no extension, with the extension `less`. The imported sheet stands in the place of the import.

A failed import does not stop the reader: it is recorded and contributes nothing. Texts are kept once they were read.
A file that is being imported must not be imported again, so a chain of imports is never longer than the number of
files, and a bound on its length is no restriction.
-/

namespace Less

/-- Why an import failed. -/
inductive ImportFault where
  | missing (p : Path)
  | cyclic (p : Path)
  | unreadable (p : Path) (e : FileError)
deriving DecidableEq, Repr

/-- The wording of a failed import. -/
def ImportFault.message : ImportFault → String
  | missing p => "File '" ++ p.text ++ "' does not exist"
  | cyclic p => "Cyclic import of '" ++ p.text ++ "'"
  | unreadable p e => "Failed to read '" ++ p.text ++ "': " ++ e.message

/-- Where imports are searched, the texts read so far, the files that are being imported with the innermost first, and
the diagnostics of failed imports. -/
structure Importer where
  includePaths : List Path := []
  cache : Bindings String := .empty
  stack : List Path := []
  diagnostics : List Error := []

namespace Importer

/-- Records a diagnostic. -/
def record (i : Importer) (e : Error) : Importer :=
  { i with diagnostics := i.diagnostics ++ [e] }

/-- Records a failed import. -/
def fail (i : Importer) (target : String) (fault : ImportFault) (p : Position) : Importer :=
  i.record (.located p (.importFailed target fault.message))

/-- Enters a file. -/
def push (i : Importer) (p : Path) : Importer :=
  { i with stack := p :: i.stack }

/-- Leaves the file entered last. -/
def pop (i : Importer) : Importer :=
  { i with stack := i.stack.tail }

/-- The paths at which a target is searched, in order. -/
def candidates (i : Importer) (target : Path) (directory : Option Path) : List Path :=
  if target.isAbsolute then [target] else (directory.toList ++ i.includePaths).map (·.join target)

/-- The file at a path, or else at the path with the extension. -/
def existing? (files : FileTree) (p : Path) : Option Path :=
  match files.file? p with
  | some found => some found
  | none => if p.hasExtension then none else files.file? (p.addExtension "less")

/-- The file a target stands for. -/
def find? (files : FileTree) (i : Importer) (directory : Option Path) (target : String) : Option Path :=
  (i.candidates ⟨target⟩ directory).findSome? (existing? files)

/-- The text of a file, from the cache if it was read before. -/
def load (files : FileTree) (i : Importer) (p : Path) : Except FileError String × Importer :=
  match i.cache.get? p.text with
  | some text => (.ok text, i)
  | none =>
    match files.read p with
    | .ok text => (.ok text, { i with cache := i.cache.set p.text text })
    | .error e => (.error e, i)

/-- How an import is resolved: its target, its position, and the importer before and after. -/
abbrev Resolve := String → Position → Importer → Option Sheet × Importer

/-- Performs statements on a sheet, with imported sheets in the place of imports. -/
def performAll (resolve : Resolve) : List Parse.Statement → Sheet → Importer → Sheet × Importer
  | [], sheet, i => (sheet, i)
  | .fileImport target _ p :: rest, sheet, i =>
    match resolve target p i with
    | (some imported, i) => performAll resolve rest (sheet.append imported) i
    | (none, i) => performAll resolve rest sheet i
  | s :: rest, sheet, i => performAll resolve rest (sheet.perform s) i

/-- Reads a source text and follows its imports. -/
def parseWith (resolve : Resolve) (source : List Char) (i : Importer) :
    Except Parse.Fault Sheet × Importer :=
  let (statements, fault) := Parse.statements source
  let (sheet, i) := performAll resolve statements .empty i
  match fault with
  | some f => (.error f, i)
  | none => (.ok sheet, i)

/-- The parse error of an imported file, which names the file. -/
def faultIn (p : Path) (f : Parse.Fault) : Error :=
  .parseAt (f.cause.message ++ " (in " ++ p.text ++ ")") f.position

/-- Resolves an import from a directory, within a bound on the length of the chain. A file that has a text is entered,
and left again whatever became of its statements. -/
def resolveWithin (files : FileTree) : Nat → Option Path → Resolve
  | 0, _, _, _, i => (none, i)
  | n + 1, directory, target, p, i =>
    match i.find? files directory target with
    | none => (none, i.fail target (.missing ((i.candidates ⟨target⟩ directory).headD ⟨target⟩)) p)
    | some found =>
      if i.stack.contains found then (none, i.fail target (.cyclic found) p)
      else
        match load files i found with
        | (.error e, i) => (none, i.fail target (.unreadable found e) p)
        | (.ok text, i) =>
          match parseWith (resolveWithin files n found.parent?) text.toList (i.push found) with
          | (.ok sheet, i) => (some sheet, i.pop)
          | (.error f, i) => (none, i.pop.record (faultIn found f))

/-- A bound that no chain of imports exceeds. -/
def chainBound (files : FileTree) : Nat :=
  files.nodes.length + 1

/-- Resolves an import from a directory. -/
def resolve (files : FileTree) (directory : Option Path) : Resolve :=
  resolveWithin files (chainBound files) directory

/-- Reads a source text that lies in a directory and follows its imports. -/
def parse (files : FileTree) (directory : Option Path) (source : List Char) (i : Importer) :
    Except Parse.Fault Sheet × Importer :=
  parseWith (resolve files directory) source i

end Importer

end Less
