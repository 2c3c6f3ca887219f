import GraphSelection.Command
import GraphSelection.Compile
import GraphSelection.Cypher.Basic
import GraphSelection.Cypher.Decode
import GraphSelection.Cypher.Encode
import GraphSelection.Cypher.Text
import GraphSelection.Decimal.Layout
import GraphSelection.Decimal.Shortest
import GraphSelection.Decimal.Unsigned
import GraphSelection.Document.Basic
import GraphSelection.Document.Decode
import GraphSelection.Document.Entries
import GraphSelection.Document.Json
import GraphSelection.Document.Plain
import GraphSelection.Document.Yaml.Place
import GraphSelection.Document.Yaml.Scalar
import GraphSelection.Document.Yaml.Scan
import GraphSelection.Document.Yaml.Tree
import GraphSelection.Failure
import GraphSelection.Main
import GraphSelection.Plan.Condition
import GraphSelection.Plan.Field
import GraphSelection.Plan.Measure
import GraphSelection.Plan.Mutation
import GraphSelection.Plan.Ordering
import GraphSelection.Plan.Outline
import GraphSelection.Program.Computed
import GraphSelection.Program.Condition
import GraphSelection.Program.Context
import GraphSelection.Program.Edges
import GraphSelection.Program.Fields
import GraphSelection.Program.Mutation
import GraphSelection.Program.Pattern
import GraphSelection.Program.Reduction
import GraphSelection.Program.Scope
import GraphSelection.Program.Supply
import GraphSelection.Program.Union
import GraphSelection.Program.Window
import GraphSelection.Request.Basic
import GraphSelection.Request.Principal
import GraphSelection.Request.Selection
import GraphSelection.Resolve.Aggregate
import GraphSelection.Resolve.Aggregation
import GraphSelection.Resolve.Argument
import GraphSelection.Resolve.Arrangement
import GraphSelection.Resolve.Comparison
import GraphSelection.Resolve.Composite
import GraphSelection.Resolve.Condition
import GraphSelection.Resolve.Connection
import GraphSelection.Resolve.Fields
import GraphSelection.Resolve.Guard
import GraphSelection.Resolve.Mutation
import GraphSelection.Resolve.Nested
import GraphSelection.Resolve.Operation
import GraphSelection.Schema.Build
import GraphSelection.Schema.Definition
import GraphSelection.Schema.Dump
import GraphSelection.Schema.Fault
import GraphSelection.Schema.Lookup
import GraphSelection.Schema.Model
import GraphSelection.Schema.Rule
import GraphSelection.Schema.Scalar
import GraphSelection.Settings
import GraphSelection.Text.Base64
import GraphSelection.Text.Blank
import GraphSelection.Text.Capital
import GraphSelection.Text.Lines
import GraphSelection.Text.Quoted
import GraphSelection.Text.Token
import GraphSelection.Proofs.Minting
import GraphSelection.Proofs.Runs
import GraphSelection.Proofs.Ensured
import GraphSelection.Proofs.Partwise
import GraphSelection.Proofs.Scoped.Basic
import GraphSelection.Proofs.Scoped.Calls
import GraphSelection.Proofs.Parts
import GraphSelection.Proofs.Scoped.Conditions
import GraphSelection.Proofs.Scoped.Scopes
import GraphSelection.Proofs.Scoped.Union
import GraphSelection.Proofs.Scoped.Fields
import GraphSelection.Proofs.Scoped.Changes
import GraphSelection.Proofs.Resolved.Conditions
import GraphSelection.Proofs.Resolved.Guards
import GraphSelection.Proofs.Resolved.Entries
import GraphSelection.Proofs.Resolved.Fields
import GraphSelection.Proofs.Resolved.Changes
import GraphSelection.Proofs.WellScoped
import GraphSelection.Proofs.Emitted
import GraphSelection.Proofs.Enforced
import GraphSelection.Proofs.Validated
import GraphSelection.Proofs.Recast
import GraphSelection.Proofs.AskedBy.Conditions
import GraphSelection.Proofs.AskedBy.Fields
import GraphSelection.Proofs.AskedBy.Changes
import GraphSelection.Proofs.AskedBy.Outlines
import GraphSelection.Proofs.Alike.Basic
import GraphSelection.Proofs.Alike.Programs
import GraphSelection.Proofs.Independent
import GraphSelection.Proofs.MissingClaims
import GraphSelection.Proofs.Closed
import GraphSelection.Proofs.Settled.Conditions
import GraphSelection.Proofs.Settled.Fields
import GraphSelection.Proofs.Settled.Changes
import GraphSelection.Proofs.Completed.Scopes
import GraphSelection.Proofs.Completed.Operations
import GraphSelection.Proofs.Total
import GraphSelection.Proofs.Rows.Basic
import GraphSelection.Proofs.Rows.Scopes
import GraphSelection.Proofs.Rows.Operations
import GraphSelection.Proofs.Formed.Basic
import GraphSelection.Proofs.Formed.Grants
import GraphSelection.Proofs.Formed.Scopes
import GraphSelection.Proofs.Formed.Fields
import GraphSelection.Proofs.Formed.Changes
import GraphSelection.Proofs.WellFormed
import GraphSelection.Proofs.Timed
import GraphSelection.Proofs.Accepted
import GraphSelection.Proofs.Nested.Basic
import GraphSelection.Proofs.Nested.Scopes
import GraphSelection.Proofs.Nested.Operations
import GraphSelection.Proofs.Mentioned.Basic
import GraphSelection.Proofs.Mentioned.Scopes
import GraphSelection.Proofs.Mentioned.Programs
import GraphSelection.Proofs.Paged.Requests
import GraphSelection.Proofs.Paged.Programs
import GraphSelection.Proofs.Merged
import GraphSelection.Proofs.Agreement
import GraphSelection.Proofs.Akin.Programs
import GraphSelection.Proofs.Akin.Plans
import GraphSelection.Proofs.Restated.Comparisons
import GraphSelection.Proofs.Restated.Conditions
import GraphSelection.Proofs.Restated.Fields
import GraphSelection.Proofs.Restated.Lookups
import GraphSelection.Proofs.Restated.Changes
import GraphSelection.Proofs.Restated.Operations
import GraphSelection.Proofs.Restating
import GraphSelection.Proofs.MergedColumns
import GraphSelection.Proofs.Shared.Leaves
import GraphSelection.Proofs.Shared.Predicates
import GraphSelection.Proofs.SharedCalls
import GraphSelection.Proofs.Spelled.Forms
import GraphSelection.Proofs.Spelled.Outcomes
import GraphSelection.Proofs.Spelled.Names
import GraphSelection.Proofs.Spelled.Documents
import GraphSelection.Proofs.Spelled.Entries
import GraphSelection.Proofs.Spelled.Aggregations
import GraphSelection.Proofs.Spelled.Conditions
import GraphSelection.Proofs.Spelled.Fields
import GraphSelection.Proofs.Mixed
import GraphSelection.Proofs.Spellings
import GraphSelection.Proofs.Resolved.Origins
import GraphSelection.Proofs.Updates
import GraphSelection.Proofs.Quantified
import GraphSelection.Proofs.Operands
import GraphSelection.Proofs.Levels
import GraphSelection.Proofs.Readings
import GraphSelection.Proofs.Returned
import GraphSelection.Proofs.RuleCounts
import GraphSelection.Proofs.Expanded
import GraphSelection.Proofs.EdgeReadings
import GraphSelection.Proofs.EdgeAnswers
import GraphSelection.Proofs.Permitted
import GraphSelection.Proofs.Conversions
import GraphSelection.Proofs.EdgeKeys
import GraphSelection.Proofs.Restored.Data
import GraphSelection.Proofs.Restored.Selections
import GraphSelection.Proofs.Restored.Documents
import GraphSelection.Proofs.Browsed.CursorTexts
import GraphSelection.Proofs.Browsed.Cursors
import GraphSelection.Proofs.Browsed.Requests
import GraphSelection.Proofs.Browsed.Pages
import GraphSelection.Proofs.Browsed.Visits
import GraphSelection.Proofs.Reread.Tokens
import GraphSelection.Proofs.Reread.Trees
import GraphSelection.Proofs.Reread.Indented
import GraphSelection.Proofs.Reread.Parts
import GraphSelection.Proofs.Reread.Texts
import GraphSelection.Proofs.Reread.Predicates
import GraphSelection.Proofs.Stored.Sites
import GraphSelection.Proofs.Stored.Plans
import GraphSelection.Proofs.Stored.Accesses
import GraphSelection.Proofs.Stored.Scopes
import GraphSelection.Proofs.Stored.Programs
import GraphSelection.Proofs.Delimited
import GraphSelection.Proofs.Hanging.Lines
import GraphSelection.Proofs.Hanging.Tokens
import GraphSelection.Proofs.Hanging.Programs
