import Less.Compiler
import Less.Proofs.Outcome
import Less.Proofs.Value
import Less.Proofs.Contents
import Less.Proofs.Steps
import Less.Proofs.Resolved
import Less.Proofs.Bound
import Less.Proofs.AccessFree
import Less.Proofs.Dependency
import Less.Proofs.LazyEager
import Less.Proofs.MixinStack
import Less.Proofs.Tame
import Less.Proofs.Termination
import Less.Proofs.Refusal
import Less.Proofs.Cycle
import Less.Proofs.Spacing
import Less.Proofs.Nesting
import Less.Proofs.Anchored
import Less.Proofs.Diagnostics
import Less.Proofs.Location
import Less.Proofs.Grounded
import Less.Proofs.Parsed
import Less.Proofs.Identifier
import Less.Proofs.Written
import Less.Proofs.ReadWords
import Less.Proofs.ReadWritten
import Less.Proofs.RoundTrip
import Less.Proofs.Splicing
import Less.Proofs.CallerVariables
import Less.Proofs.Placement
import Less.Proofs.Agreement
import Less.Proofs.CallSites
import Less.Proofs.Overload
import Less.Proofs.Everywhere
import Less.Proofs.SameLookups
import Less.Proofs.Twin
import Less.Proofs.ForwardCall
import Less.Proofs.VariableOrder
import Less.Proofs.Siblings
import Less.Proofs.AccessorReads
import Less.Proofs.StageGating
import Less.Proofs.Flattening
import Less.Proofs.SameContent
import Less.Proofs.StringsInValues
import Less.Proofs.ImportRun
import Less.Proofs.ImportGraph
import Less.Proofs.CallContract
import Less.Proofs.InPlace
import Less.Proofs.Naming
import Less.Proofs.Levels
import Less.Proofs.Formula
import Less.Proofs.Kind
import Less.Proofs.Word
import Less.Proofs.Regrouped
import Less.Proofs.Comment
import Less.Proofs.Parentheses
import Less.Proofs.MixinAhead
import Less.Proofs.SelectorIndex
import Less.Proofs.Inlining
import Less.Proofs.UrlImport
import Less.Proofs.InOrder
import Less.Proofs.Pieces
import Less.Proofs.Blame
import Less.Proofs.NumberText
import Less.Proofs.Template
import Less.Proofs.Groups
import Less.Proofs.Rounds
import Less.Proofs.InBounds
import Less.Proofs.Progress
import Less.Proofs.SheetProgress
import Less.Proofs.SelectorKey
import Less.Proofs.SelectorList
import Less.Proofs.ColorText
