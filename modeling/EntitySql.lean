import EntitySql.Artifact
import EntitySql.Artifact.Data
import EntitySql.Assembly
import EntitySql.Cache
import EntitySql.Calendar
import EntitySql.Calendar.Reading
import EntitySql.Compiler
import EntitySql.Condition
import EntitySql.Conversion
import EntitySql.Cursor
import EntitySql.Decimal.Double
import EntitySql.Decimal.Layout
import EntitySql.Decimal.Shortest
import EntitySql.Dialect
import EntitySql.Dialect.Functions
import EntitySql.Dialect.Rendering
import EntitySql.Draft
import EntitySql.Entity
import EntitySql.Error
import EntitySql.Facts
import EntitySql.FieldType
import EntitySql.Grammar.Fold
import EntitySql.Grammar.Rules
import EntitySql.Identifier
import EntitySql.Literal
import EntitySql.Lookup
import EntitySql.Operator
import EntitySql.Pairs
import EntitySql.Parameter
import EntitySql.Proofs.Arguments
import EntitySql.Proofs.Artifacts
import EntitySql.Proofs.Assembled
import EntitySql.Proofs.Attendance
import EntitySql.Proofs.Blindness
import EntitySql.Proofs.Blocks
import EntitySql.Proofs.Caching
import EntitySql.Proofs.CalendarTexts
import EntitySql.Proofs.Carrying
import EntitySql.Proofs.Clauses
import EntitySql.Proofs.Climbing
import EntitySql.Proofs.Collector
import EntitySql.Proofs.Completion
import EntitySql.Proofs.Composition
import EntitySql.Proofs.Containment
import EntitySql.Proofs.Counterparts
import EntitySql.Proofs.DataTexts
import EntitySql.Proofs.DerivedColumns
import EntitySql.Proofs.DerivedTables
import EntitySql.Proofs.Drafting
import EntitySql.Proofs.Edits
import EntitySql.Proofs.Enclosures
import EntitySql.Proofs.Erasure
import EntitySql.Proofs.Escaping
import EntitySql.Proofs.Expansions
import EntitySql.Proofs.Failures
import EntitySql.Proofs.Folding
import EntitySql.Proofs.Formed
import EntitySql.Proofs.Gathering
import EntitySql.Proofs.Grouping
import EntitySql.Proofs.Isolation
import EntitySql.Proofs.JoinConditions
import EntitySql.Proofs.KeptFields
import EntitySql.Proofs.Lexing
import EntitySql.Proofs.LinkAliases
import EntitySql.Proofs.Listing
import EntitySql.Proofs.Memberships
import EntitySql.Proofs.Mirroring
import EntitySql.Proofs.Navigation
import EntitySql.Proofs.Numbering
import EntitySql.Proofs.Operands
import EntitySql.Proofs.Origins
import EntitySql.Proofs.Outcome
import EntitySql.Proofs.Parsed
import EntitySql.Proofs.PartialBinding
import EntitySql.Proofs.Parts
import EntitySql.Proofs.Passes
import EntitySql.Proofs.Placeholders
import EntitySql.Proofs.Progress
import EntitySql.Proofs.Qualifiers
import EntitySql.Proofs.Quoting
import EntitySql.Proofs.Readback
import EntitySql.Proofs.Reader
import EntitySql.Proofs.Reading
import EntitySql.Proofs.Recasting
import EntitySql.Proofs.Recovery
import EntitySql.Proofs.References
import EntitySql.Proofs.Renaming
import EntitySql.Proofs.Renderable
import EntitySql.Proofs.Rendered
import EntitySql.Proofs.Requests
import EntitySql.Proofs.ResultMaps
import EntitySql.Proofs.Revisions
import EntitySql.Proofs.RoundTrip
import EntitySql.Proofs.Scoping
import EntitySql.Proofs.Segments
import EntitySql.Proofs.SelectLists
import EntitySql.Proofs.Selects
import EntitySql.Proofs.Settling
import EntitySql.Proofs.Shape
import EntitySql.Proofs.Signs
import EntitySql.Proofs.Slots
import EntitySql.Proofs.Spelling
import EntitySql.Proofs.Strictness
import EntitySql.Proofs.Termination
import EntitySql.Proofs.Tiling
import EntitySql.Proofs.Walking
import EntitySql.Query.Equality
import EntitySql.Query.Print
import EntitySql.Query.Tree
import EntitySql.Resolution
import EntitySql.Resolution.Columns
import EntitySql.Resolution.Derived
import EntitySql.Resolution.Joins
import EntitySql.Resolution.Parameters
import EntitySql.Resolution.Results
import EntitySql.Resolution.Sources
import EntitySql.Resolution.Sweep
import EntitySql.Schema
import EntitySql.Text.Blank
import EntitySql.Text.Dotted
import EntitySql.Text.Letter
import EntitySql.Text.Reader
import EntitySql.Token
import EntitySql.Token.Scan
import EntitySql.Typing
import EntitySql.Value
import EntitySql.Value.Document
import EntitySql.Value.Numeral
import EntitySql.Value.Text
import EntitySql.Walk
import EntitySql.Walk.Context
import EntitySql.Walk.Node
