import RecordApi.Assembly
import RecordApi.Binding.Handle
import RecordApi.Binding.Operation
import RecordApi.Binding.Resolvers
import RecordApi.Binding.Service
import RecordApi.Collection
import RecordApi.Context
import RecordApi.Counter
import RecordApi.Data.Association
import RecordApi.Data.Datum
import RecordApi.Derivation.Fragment
import RecordApi.Derivation.Inputs
import RecordApi.Descriptor
import RecordApi.Failure
import RecordApi.Files
import RecordApi.Language.Document
import RecordApi.Language.Lexer
import RecordApi.Language.Parts
import RecordApi.Language.Printer
import RecordApi.Language.Reader
import RecordApi.Language.Strings
import RecordApi.Language.Token
import RecordApi.Memory.Cabinet
import RecordApi.Memory.Shelf
import RecordApi.Merge
import RecordApi.Naming
import RecordApi.Number.Decimal
import RecordApi.Number.Double
import RecordApi.Number.Numeral
import RecordApi.Number.Reading
import RecordApi.Options
import RecordApi.Paging.Cursor
import RecordApi.Paging.Window
import RecordApi.Primitives
import RecordApi.Proofs.Actions
import RecordApi.Proofs.Binding.Agreement
import RecordApi.Proofs.Binding.Combination
import RecordApi.Proofs.Binding.Effects
import RecordApi.Proofs.Binding.Gatherings
import RecordApi.Proofs.Binding.Isolation
import RecordApi.Proofs.Binding.KeyValue
import RecordApi.Proofs.Binding.Operations
import RecordApi.Proofs.Binding.RequiredFields
import RecordApi.Proofs.Binding.ResolverMaps
import RecordApi.Proofs.Binding.Timestamps
import RecordApi.Proofs.Derivation.Assembled
import RecordApi.Proofs.Derivation.AssembledTypes
import RecordApi.Proofs.Derivation.DataArguments
import RecordApi.Proofs.Derivation.DerivedInputs
import RecordApi.Proofs.Derivation.EntryPoints
import RecordApi.Proofs.Derivation.Failures
import RecordApi.Proofs.Derivation.FragmentKeys
import RecordApi.Proofs.Derivation.InputGraph
import RecordApi.Proofs.Derivation.Kept
import RecordApi.Proofs.Derivation.Mentions
import RecordApi.Proofs.Derivation.MergedPlaces
import RecordApi.Proofs.Derivation.NamedRoots
import RecordApi.Proofs.Derivation.Namespaces
import RecordApi.Proofs.Derivation.NestedCalls
import RecordApi.Proofs.Derivation.Precedence
import RecordApi.Proofs.Derivation.ReachedInputs
import RecordApi.Proofs.Derivation.Readable
import RecordApi.Proofs.Derivation.Rebuilt
import RecordApi.Proofs.Derivation.Redescribed
import RecordApi.Proofs.Derivation.RememberedInputs
import RecordApi.Proofs.Derivation.Run
import RecordApi.Proofs.Derivation.Sources
import RecordApi.Proofs.Derivation.Traversal
import RecordApi.Proofs.Language.PrintedTypes
import RecordApi.Proofs.Language.Reading
import RecordApi.Proofs.Language.RoundTrip
import RecordApi.Proofs.Language.Spelling
import RecordApi.Proofs.Language.Unreadable
import RecordApi.Proofs.Language.Written
import RecordApi.Proofs.Memory.Shelves
import RecordApi.Proofs.MergeAssociativity
import RecordApi.Proofs.MergeOverlays
import RecordApi.Proofs.MergePlaces
import RecordApi.Proofs.MergeRepeats
import RecordApi.Proofs.MergeSpaces
import RecordApi.Proofs.MergeUnions
import RecordApi.Proofs.Merging
import RecordApi.Proofs.NameSpellings
import RecordApi.Proofs.Number.Exactness
import RecordApi.Proofs.Outcomes
import RecordApi.Proofs.Paging.Cursors
import RecordApi.Proofs.Paging.Windows
import RecordApi.Proofs.Schema.Built
import RecordApi.Proofs.Schema.ExtendedFields
import RecordApi.Proofs.Schema.FilledInputs
import RecordApi.Proofs.Table.Addressing
import RecordApi.Proofs.Table.Aliases
import RecordApi.Proofs.Table.Calls
import RecordApi.Proofs.Table.CellOrder
import RecordApi.Proofs.Table.Coercions
import RecordApi.Proofs.Table.Comparands
import RecordApi.Proofs.Table.FailedWrites
import RecordApi.Proofs.Table.Identifiers
import RecordApi.Proofs.Table.KeptValues
import RecordApi.Proofs.Table.Ledger
import RecordApi.Proofs.Table.Likenesses
import RecordApi.Proofs.Table.Listing
import RecordApi.Proofs.Table.Offsets
import RecordApi.Proofs.Table.PageFlags
import RecordApi.Proofs.Table.Pages
import RecordApi.Proofs.Table.Rows
import RecordApi.Proofs.Table.Sessions
import RecordApi.Proofs.Table.Soundness
import RecordApi.Proofs.Table.Walks
import RecordApi.Proofs.Time.WrittenTexts
import RecordApi.Proofs.TypeTexts
import RecordApi.Proofs.Validation.Members
import RecordApi.Request.Answer
import RecordApi.Request.Arguments
import RecordApi.Request.Collection
import RecordApi.Request.Execution
import RecordApi.Request.Leaf
import RecordApi.Request.Variables
import RecordApi.Schema.Basic
import RecordApi.Schema.Build
import RecordApi.Schema.Check
import RecordApi.Schema.Literal
import RecordApi.Schema.Printer
import RecordApi.Source
import RecordApi.Table.Cell
import RecordApi.Table.Coercion
import RecordApi.Table.Condition
import RecordApi.Table.Conversion
import RecordApi.Table.Model
import RecordApi.Table.Pattern
import RecordApi.Table.Records
import RecordApi.Table.Session
import RecordApi.Text.Base64
import RecordApi.Text.Case
import RecordApi.Text.CaseTable
import RecordApi.Text.CharClass
import RecordApi.Text.Quoted
import RecordApi.Text.Similar
import RecordApi.Time.DateTime
import RecordApi.Time.Reading
import RecordApi.TypeRef
import RecordApi.Validation.Application
import RecordApi.Validation.Declaration
import RecordApi.Validation.Fragments
import RecordApi.Validation.Overlap
import RecordApi.Validation.RequestRules
import RecordApi.Validation.Rule
import RecordApi.Validation.Scope
import RecordApi.Validation.Selection
import RecordApi.Validation.Visit
