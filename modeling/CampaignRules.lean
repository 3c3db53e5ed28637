import CampaignRules.Bytes
import CampaignRules.Clock
import CampaignRules.CommandLine.Output
import CampaignRules.CommandLine.Run
import CampaignRules.CommandLine.Usage
import CampaignRules.Config
import CampaignRules.Engine
import CampaignRules.Error
import CampaignRules.Expr.Basic
import CampaignRules.Expr.Eval
import CampaignRules.Expr.Operator
import CampaignRules.Expr.Reads
import CampaignRules.Expr.Recording
import CampaignRules.Expr.Registry
import CampaignRules.Expr.Trace
import CampaignRules.Expr.Validation
import CampaignRules.Graph.Arena
import CampaignRules.Graph.Basic
import CampaignRules.Graph.Build
import CampaignRules.Graph.Cache
import CampaignRules.Graph.Component
import CampaignRules.Graph.Cycles
import CampaignRules.Graph.Order
import CampaignRules.Graph.Reach
import CampaignRules.Graph.Update
import CampaignRules.Graph.WriteChain
import CampaignRules.Json.Basic
import CampaignRules.Json.Coercion
import CampaignRules.Json.Equality
import CampaignRules.Json.Parser
import CampaignRules.Json.Pointer
import CampaignRules.Json.Printer
import CampaignRules.Json.Token
import CampaignRules.Log
import CampaignRules.Main
import CampaignRules.Number.Binary64
import CampaignRules.Number.Numeral
import CampaignRules.Number.Shortest
import CampaignRules.Patch.Apply
import CampaignRules.Patch.Check
import CampaignRules.Patch.Diff
import CampaignRules.Patch.Operation
import CampaignRules.Patch.Problem
import CampaignRules.Patch.Variables
import CampaignRules.Proofs.Bytes
import CampaignRules.Proofs.CommandLine.Failure
import CampaignRules.Proofs.Engine.Agreement
import CampaignRules.Proofs.Engine.Refusal
import CampaignRules.Proofs.Expr.Arithmetic
import CampaignRules.Proofs.Expr.Comparison
import CampaignRules.Proofs.Expr.Failure
import CampaignRules.Proofs.Expr.Iteration
import CampaignRules.Proofs.Expr.Laziness
import CampaignRules.Proofs.Expr.Observation
import CampaignRules.Proofs.Expr.Operands
import CampaignRules.Proofs.Expr.Reading
import CampaignRules.Proofs.Expr.Reads
import CampaignRules.Proofs.Expr.Recording
import CampaignRules.Proofs.Expr.Simulation
import CampaignRules.Proofs.Expr.StrictEquality
import CampaignRules.Proofs.Expr.Substring
import CampaignRules.Proofs.Expr.Texts
import CampaignRules.Proofs.Expr.Trace
import CampaignRules.Proofs.Expr.Validation
import CampaignRules.Proofs.Expr.WireForm
import CampaignRules.Proofs.Expr.WireReads
import CampaignRules.Proofs.Failure
import CampaignRules.Proofs.Graph.Arena
import CampaignRules.Proofs.Graph.Cache
import CampaignRules.Proofs.Graph.Component
import CampaignRules.Proofs.Graph.Content
import CampaignRules.Proofs.Graph.CycleMember
import CampaignRules.Proofs.Graph.CycleSearch
import CampaignRules.Proofs.Graph.Growth
import CampaignRules.Proofs.Graph.Insertion
import CampaignRules.Proofs.Graph.Invariant
import CampaignRules.Proofs.Graph.Loops
import CampaignRules.Proofs.Graph.Order
import CampaignRules.Proofs.Graph.Reach
import CampaignRules.Proofs.Graph.Rebuild
import CampaignRules.Proofs.Graph.Records
import CampaignRules.Proofs.Graph.Refresh
import CampaignRules.Proofs.Graph.Removal
import CampaignRules.Proofs.Graph.Update
import CampaignRules.Proofs.Graph.WriteChain
import CampaignRules.Proofs.Json.Display
import CampaignRules.Proofs.Json.Equality
import CampaignRules.Proofs.Json.Members
import CampaignRules.Proofs.Json.Number
import CampaignRules.Proofs.Json.Numeric
import CampaignRules.Proofs.Json.Path
import CampaignRules.Proofs.Json.Pointer
import CampaignRules.Proofs.Json.Printer
import CampaignRules.Proofs.Json.Reading
import CampaignRules.Proofs.Json.StrictEquality
import CampaignRules.Proofs.Json.TextEnd
import CampaignRules.Proofs.Json.Texts
import CampaignRules.Proofs.Json.Token
import CampaignRules.Proofs.Number.Bits
import CampaignRules.Proofs.Number.Rounding
import CampaignRules.Proofs.Number.Shortest
import CampaignRules.Proofs.Number.Value
import CampaignRules.Proofs.Patch.Changes
import CampaignRules.Proofs.Patch.Commute
import CampaignRules.Proofs.Patch.Difference
import CampaignRules.Proofs.Patch.Failure
import CampaignRules.Proofs.Patch.Fields
import CampaignRules.Proofs.Patch.Move
import CampaignRules.Proofs.Patch.Protection
import CampaignRules.Proofs.Patch.Syntax
import CampaignRules.Proofs.Patch.Undo
import CampaignRules.Proofs.Patch.Variables
import CampaignRules.Proofs.Patch.Writes
import CampaignRules.Proofs.Record.Entity
import CampaignRules.Proofs.Record.Field
import CampaignRules.Proofs.Record.RoundTrip
import CampaignRules.Proofs.Resolution.Attempt
import CampaignRules.Proofs.Resolution.Failure
import CampaignRules.Proofs.Resolution.Guard
import CampaignRules.Proofs.Resolution.Loadable
import CampaignRules.Proofs.Resolution.Once
import CampaignRules.Proofs.Resolution.Protection
import CampaignRules.Proofs.Resolution.Relevance
import CampaignRules.Proofs.Resolution.Sequence
import CampaignRules.Proofs.Resolution.Stages
import CampaignRules.Proofs.Resolution.Summary
import CampaignRules.Proofs.Rpc.Session
import CampaignRules.Proofs.Snapshot
import CampaignRules.Proofs.Task
import CampaignRules.Proofs.Tool.Evaluation
import CampaignRules.Proofs.Tool.Failure
import CampaignRules.Proofs.Utf8
import CampaignRules.Record.Condition
import CampaignRules.Record.Effect
import CampaignRules.Record.Entity
import CampaignRules.Record.EntityRef
import CampaignRules.Record.Field
import CampaignRules.Recorded
import CampaignRules.Resolution.Action
import CampaignRules.Resolution.Outcome
import CampaignRules.Resolution.Run
import CampaignRules.Rpc.Request
import CampaignRules.Rpc.Response
import CampaignRules.Rpc.Session
import CampaignRules.Snapshot
import CampaignRules.Task
import CampaignRules.Tool.Basic
import CampaignRules.Tool.Catalogue
import CampaignRules.Tool.Expression
import CampaignRules.Tool.Graph
import CampaignRules.Tool.Patch
import CampaignRules.Tool.Resolution
import CampaignRules.Utf8
