import DelegateSchema.CommandLine
import DelegateSchema.Compile.Attribute
import DelegateSchema.Compile.Basic
import DelegateSchema.Compile.Build
import DelegateSchema.Compile.Config
import DelegateSchema.Compile.Field
import DelegateSchema.Compile.Links
import DelegateSchema.Compile.Widening
import DelegateSchema.Document.Attribute
import DelegateSchema.Document.Declaration
import DelegateSchema.Document.Decoding
import DelegateSchema.Document.Encoding
import DelegateSchema.Document.Expression
import DelegateSchema.Document.FieldType
import DelegateSchema.Document.File
import DelegateSchema.Document.Printer
import DelegateSchema.Document.Record
import DelegateSchema.Document.Source
import DelegateSchema.Generate
import DelegateSchema.Host.Basic
import DelegateSchema.Host.FileTree
import DelegateSchema.Host.Path
import DelegateSchema.Identifier.Basic
import DelegateSchema.Json.Basic
import DelegateSchema.Json.Printer
import DelegateSchema.Json.Reader
import DelegateSchema.Main
import DelegateSchema.Number.Basic
import DelegateSchema.Number.Shortest
import DelegateSchema.Proofs.Identifiers
import DelegateSchema.Proofs.Inheritance
import DelegateSchema.Proofs.Lineage
import DelegateSchema.Registry.Basic
import DelegateSchema.Registry.Builtin
import DelegateSchema.Schema.Basic
import DelegateSchema.Schema.Inheritance
import DelegateSchema.Schema.Keys
import DelegateSchema.Schema.Lineage
import DelegateSchema.Settings.Basic
import DelegateSchema.Settings.DotEnv
import DelegateSchema.Settings.Source
import DelegateSchema.Target.Basic
import DelegateSchema.Target.Handle
import DelegateSchema.Target.Text
import DelegateSchema.Text.Blank
import DelegateSchema.Text.Lowercase
import DelegateSchema.Text.Natural
import DelegateSchema.Tool.Formatter
import DelegateSchema.Tool.Version
import DelegateSchema.Visits
import DelegateSchema.Yaml.Basic
import DelegateSchema.Yaml.Reader
import DelegateSchema.Yaml.Record
import DelegateSchema.Proofs.Resolution
import DelegateSchema.Proofs.Passes
import DelegateSchema.Proofs.Blocks
import DelegateSchema.Proofs.Links
import DelegateSchema.Proofs.Columns
import DelegateSchema.Proofs.Widening
import DelegateSchema.Proofs.Usages
import DelegateSchema.Proofs.RelationNames
import DelegateSchema.Proofs.MergedFields
import DelegateSchema.Proofs.Numbering
import DelegateSchema.Proofs.Reordering
import DelegateSchema.Proofs.RoundTrip
import DelegateSchema.Proofs.Files
import DelegateSchema.Proofs.Generation
import DelegateSchema.Proofs.Truncation
import DelegateSchema.Proofs.Acceptance
import DelegateSchema.Proofs.Flattening
import DelegateSchema.Proofs.DistinctNames
import DelegateSchema.Proofs.ClosedRelations
import DelegateSchema.Proofs.UntouchedModels
import DelegateSchema.Proofs.Compilability
import DelegateSchema.Proofs.Handles
import DelegateSchema.Proofs.InPlace
import DelegateSchema.Proofs.Insertion
import DelegateSchema.Proofs.Walks
import DelegateSchema.Proofs.StoredFields
import DelegateSchema.Proofs.Faults
import DelegateSchema.Proofs.ArgumentText
import DelegateSchema.Proofs.KeyCopies
import DelegateSchema.Proofs.UniqueCopies
import DelegateSchema.Proofs.CopiedMarks
import DelegateSchema.Proofs.CopiedConstraints
import DelegateSchema.Proofs.DistinctLinks
import DelegateSchema.Proofs.InheritedAttributes
import DelegateSchema.Proofs.Comments
import DelegateSchema.Proofs.Shorthand
import DelegateSchema.Proofs.AliasOutcomes
import DelegateSchema.Proofs.AcceptedArguments
import DelegateSchema.Proofs.Grouping
import DelegateSchema.Proofs.VersionOrder
import DelegateSchema.Proofs.VersionText
import DelegateSchema.Proofs.LinkKeys
import DelegateSchema.Proofs.HiddenVariables
import DelegateSchema.Proofs.StoringDelegates
import DelegateSchema.Proofs.StringLiterals
import DelegateSchema.Proofs.Merging
import DelegateSchema.Proofs.FoundDelegates
