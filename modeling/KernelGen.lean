import KernelGen.Text.Blank
import KernelGen.Text.Invisible
import KernelGen.Text.Quoted
import KernelGen.Source.Token
import KernelGen.Source.Tokenize
import KernelGen.Json.Value
import KernelGen.Json.Symbol
import KernelGen.Json.Reader
import KernelGen.Json.Form
import KernelGen.Digest
import KernelGen.Source.Step
import KernelGen.Host.Declaration
import KernelGen.Host.TypeStep
import KernelGen.Host.DeclarationStep
import KernelGen.Schema.Registration
import KernelGen.Schema.Step
import KernelGen.Diagnostic.Cause
import KernelGen.Outcome
import KernelGen.Metadata
import KernelGen.Link
import KernelGen.Graph.Builder
import KernelGen.Graph.Evaluation
import KernelGen.Mapping.Form
import KernelGen.Generator
import KernelGen.Command.Run
import KernelGen.Main
import KernelGen.Proofs.FirstOccurrences
import KernelGen.Proofs.Graph.Order
import KernelGen.Proofs.Graph.Fold
import KernelGen.Proofs.Graph.Building
import KernelGen.Proofs.Graph.Sessions
import KernelGen.Proofs.Graph.Tables
import KernelGen.Proofs.Kernel.Execution
import KernelGen.Proofs.Kernel.Naming
import KernelGen.Proofs.Kernel.BodyParts
import KernelGen.Proofs.Kernel.Meaning
import KernelGen.Proofs.Kernel.Layout
import KernelGen.Proofs.Kernel.Faults
import KernelGen.Proofs.Kernel.Internal
import KernelGen.Proofs.NameTable
import KernelGen.Proofs.Mapping.Expressions
import KernelGen.Proofs.Mapping.Table
import KernelGen.Proofs.Kernel.PageText
import KernelGen.Proofs.Kernel.PageLines
import KernelGen.Proofs.Kernel.SourceFileText
import KernelGen.Proofs.Kernel.Occurrences
import KernelGen.Proofs.Kernel.Scoping
import KernelGen.Proofs.Kernel.Returning
import KernelGen.Proofs.Kernel.OutputNames
import KernelGen.Proofs.Kernel.Drafts
import KernelGen.Proofs.Kernel.Capture
import KernelGen.Proofs.Generator.Claims
import KernelGen.Proofs.Generator.Accounting
import KernelGen.Proofs.Generator.Success
import KernelGen.Proofs.Generator.Unclaimed
import KernelGen.Proofs.Generator.Overloads
import KernelGen.Proofs.Source.Shape
import KernelGen.Proofs.Source.Grammar
import KernelGen.Proofs.Source.Spelling
import KernelGen.Proofs.Source.Gluing
import KernelGen.Proofs.Source.Merging
import KernelGen.Proofs.Source.Strays
import KernelGen.Proofs.Source.Lossless
import KernelGen.Proofs.Source.Ownership
import KernelGen.Proofs.Source.Joining
import KernelGen.Proofs.Source.Lines
import KernelGen.Proofs.Source.Commented
import KernelGen.Proofs.Source.Offsets
import KernelGen.Proofs.Json.Spelling
import KernelGen.Proofs.Json.Document
import KernelGen.Proofs.Json.Form
import KernelGen.Proofs.Json.Nesting
import KernelGen.Proofs.Json.Records
import KernelGen.Proofs.Mapping.Form
import KernelGen.Proofs.Mapping.Written
import KernelGen.Proofs.Mapping.Refusals
import KernelGen.Proofs.Schema.Grammar
import KernelGen.Proofs.Schema.Rendering
import KernelGen.Proofs.Schema.Derivation
import KernelGen.Proofs.Schema.Uniqueness
import KernelGen.Proofs.Schema.Refusals
import KernelGen.Proofs.Host.Constants
import KernelGen.Proofs.Host.Grammar
import KernelGen.Proofs.Host.Rendering
import KernelGen.Proofs.Host.Tokens
import KernelGen.Proofs.Host.Written
import KernelGen.Proofs.Host.Extent
import KernelGen.Proofs.Host.WordRuns
import KernelGen.Proofs.Host.Joining
import KernelGen.Proofs.Host.Commented
import KernelGen.Proofs.Metadata.Table
import KernelGen.Proofs.Metadata.Joining
import KernelGen.Proofs.Metadata.Annotation
import KernelGen.Proofs.Link
import KernelGen.Proofs.Kernel.Prototype
import KernelGen.Proofs.Kernel.SchemaComment
import KernelGen.Proofs.Link.Runs
import KernelGen.Proofs.Link.Markers
import KernelGen.Proofs.Command.FileTree
import KernelGen.Proofs.Command.Action
import KernelGen.Proofs.Command.Job
import KernelGen.Proofs.Command.Batch
import KernelGen.Proofs.Command.Paths
import KernelGen.Proofs.Command.Recheck
