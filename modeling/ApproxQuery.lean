import ApproxQuery.Id
import ApproxQuery.Ascending
import ApproxQuery.Query.Basic
import ApproxQuery.Query.Level
import ApproxQuery.Query.Walk
import ApproxQuery.Decimal.Layout
import ApproxQuery.Decimal.Reading
import ApproxQuery.Sql.Dialect
import ApproxQuery.Sql.Literal
import ApproxQuery.Sql.Render
import ApproxQuery.Query.Placeholder
import ApproxQuery.Query.Scope
import ApproxQuery.Data.Basic
import ApproxQuery.Data.CoreSchema
import ApproxQuery.Data.Reading
import ApproxQuery.Query.Decoding
import ApproxQuery.Query.Encoding
import ApproxQuery.AscendingMap
import ApproxQuery.Json.Reader
import ApproxQuery.Json.Text
import ApproxQuery.Scramble.Catalog
import ApproxQuery.Digest
import ApproxQuery.Estimate.Acceptance
import ApproxQuery.Plan.Basic
import ApproxQuery.Plan.Validation
import ApproxQuery.Plan.Build
import ApproxQuery.Plan.Compress
import ApproxQuery.Plan.Invariant
import ApproxQuery.Plan.Block
import ApproxQuery.Config
import ApproxQuery.Plan.Explain
import ApproxQuery.Result
import ApproxQuery.Plan.Prepare
import ApproxQuery.Run.Cancel
import ApproxQuery.Run.Error
import ApproxQuery.Run.Manifest
import ApproxQuery.Run.Wiring
import ApproxQuery.Sql.Statement
import ApproxQuery.Run.Engine
import ApproxQuery.Run.Script
import ApproxQuery.Yaml.Cursor
import ApproxQuery.Yaml.Scalar
import ApproxQuery.Yaml.Token
import ApproxQuery.Yaml.Document
import ApproxQuery.CommandLine
import ApproxQuery.Main
import ApproxQuery.Proofs.AscendingMap
import ApproxQuery.Proofs.Query.Slots
import ApproxQuery.Proofs.Query.Levels
import ApproxQuery.Proofs.Query.Filling
import ApproxQuery.Proofs.Query.Graft
import ApproxQuery.Proofs.Plan.Blocks
import ApproxQuery.Proofs.Plan.Closing
import ApproxQuery.Proofs.Plan.Compression
import ApproxQuery.Proofs.Plan.Conversion
import ApproxQuery.Proofs.Plan.Decomposition
import ApproxQuery.Proofs.Plan.Expansion
import ApproxQuery.Proofs.Estimate.Increment
import ApproxQuery.Proofs.Run.Reads
import ApproxQuery.Proofs.Run.Queues
import ApproxQuery.Proofs.Estimate.Rows
import ApproxQuery.Proofs.Estimate.Scaling
import ApproxQuery.Proofs.Query.Fillable
import ApproxQuery.Proofs.Query.Lookalike
import ApproxQuery.Proofs.Plan.Origins
import ApproxQuery.Proofs.Plan.Fillable
import ApproxQuery.Proofs.Plan.Preparation
import ApproxQuery.Proofs.Plan.Leaves
import ApproxQuery.Proofs.Plan.Mergeable
import ApproxQuery.Proofs.Plan.Settling
import ApproxQuery.Proofs.Plan.Completion
import ApproxQuery.Proofs.Plan.Reporting
import ApproxQuery.Proofs.Run.Sending
import ApproxQuery.Proofs.Plan.Rewrites
import ApproxQuery.Proofs.Plan.Stale
import ApproxQuery.Proofs.Run.Cleanup
import ApproxQuery.Proofs.Run.Account
import ApproxQuery.Proofs.Run.Outcome
import ApproxQuery.Proofs.Query.Scope
import ApproxQuery.Proofs.Plan.Scope
import ApproxQuery.Proofs.Run.Scope
import ApproxQuery.Proofs.Estimate.Chains
import ApproxQuery.Proofs.Estimate.Changes
import ApproxQuery.Proofs.Run.Abort
import ApproxQuery.Proofs.Query.Places
import ApproxQuery.Proofs.Plan.Positions
import ApproxQuery.Proofs.Plan.Agreement
import ApproxQuery.Proofs.Sql.Reader
import ApproxQuery.Proofs.Sql.Recovery
import ApproxQuery.Proofs.Sql.Regrouping
import ApproxQuery.Proofs.Query.Canonical
import ApproxQuery.Proofs.Query.Dangling
import ApproxQuery.Proofs.Query.Exchange
import ApproxQuery.Proofs.Sql.Renderable
import ApproxQuery.Proofs.Plan.Checking
import ApproxQuery.Proofs.Run.Estimates
import ApproxQuery.Proofs.CommandLine
import ApproxQuery.Proofs.Plan.Cycles
import ApproxQuery.Proofs.Query.Visits
