import Less.Css
import Less.Function.Builtin
import Less.Import
import Less.Report
import Less.Transform.Sheet

/-!
# The compiler

A compilation reads a source text, resolves the sheet and writes it as CSS. A stage that reported a diagnostic is the
last one: nothing is written then. Imports are followed if the options say where to search them.

A compilation has no result if resolving the sheet went beyond the bound on its depth.
-/

namespace Less

/-- How to compile. -/
structure Options where
  minify : Bool := false
  /-- The directory relative imports start from. -/
  currentDirectory : Option Path := none
  includePaths : List Path := []

/-- The options say where to search imports. -/
def Options.followsImports (o : Options) : Bool :=
  o.currentDirectory.isSome || o.includePaths ≠ []

/-- Options with the functions that expressions may call. -/
structure Compiler where
  options : Options := {}
  functions : Registry := .builtin

/-- What a compilation leaves: the handler, what was written, and whether all of it was. -/
structure Compilation (σ : Type) where
  handler : σ
  written : String := ""
  result : Except Error Unit := .ok ()

namespace Compiler

/-- Reads a source text, with the diagnostics of its imports. -/
def read (c : Compiler) (files : FileTree) (source : String) : Except Parse.Fault Sheet × List Error :=
  if c.options.followsImports then
    let importer : Importer := { includePaths := c.options.includePaths }
    let (parsed, importer) := importer.parse files c.options.currentDirectory source.toList
    (parsed, importer.diagnostics)
  else (Sheet.parse source.toList, [])

/-- The error of an output that is full. -/
def writeError : Error :=
  .io "Failed to write CSS output: failed to write whole buffer"

/-- Compiles a source text into an output. All diagnostics go to the handler; if it counts more of them behind a stage
than before the first, the stages that follow are left out. -/
def compileTo {σ : Type} [Handler σ] (c : Compiler) (files : FileTree) (source : String) (output : Output)
    (handler : σ) : Option (Compilation σ) :=
  let baseline := Handler.count handler
  let (parsed, diagnostics) := c.read files source
  let handler := Handler.reportAll handler diagnostics
  match parsed with
  | .error f => some { handler := Handler.report handler f.toError }
  | .ok sheet =>
    if baseline < Handler.count handler then some { handler }
    else
      match sheet.transform c.functions with
      | none => none
      | some (resolved, diagnostics) =>
        let handler := Handler.reportAll handler diagnostics
        if baseline < Handler.count handler then some { handler }
        else
          let css := resolved.toCss c.options.minify
          let result := if output.fits css then .ok () else .error writeError
          some { handler, written := output.fit css, result }

/-- Compiles a source text to CSS, or gives all diagnostics with a context in front of each. -/
def compileIn (c : Compiler) (files : FileTree) (context : Option String) (source : String) :
    Evaluation String :=
  let handler : Collector := { context }
  match c.compileTo files source {} handler with
  | none => .exhausted
  | some { result := .error e, .. } => .failed e
  | some { handler, written, result := .ok () } =>
    if 0 < Handler.count handler then .failed (.compile handler.messages) else .done written

/-- Compiles a source text to CSS. -/
def compile (c : Compiler) (files : FileTree) (source : String) : Evaluation String :=
  c.compileIn files none source

end Compiler

/-- Compiles a file. Imports are searched from its directory unless the options say otherwise; its name stands in
front of the diagnostics. -/
def compileFile (files : FileTree) (path : Path) (options : Options) : Evaluation String :=
  match files.read path with
  | .error e => .failed (.io ("Failed to read '" ++ path.text ++ "': " ++ e.message))
  | .ok source =>
    let options :=
      match path.parent? with
      | none => options
      | some directory =>
        { options with
          currentDirectory := options.currentDirectory.or (some directory)
          includePaths := if options.includePaths = [] then [directory] else options.includePaths }
    let compiler : Compiler := { options }
    compiler.compileIn files (path.fileName?.map String.ofList) source

end Less
