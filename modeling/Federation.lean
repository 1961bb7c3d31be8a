import Federation.Ascending
import Federation.SortedMap
import Federation.Capability.Grammar
import Federation.Decimal.Shortest
import Federation.Json.Reader
import Federation.Json.Printer
import Federation.Workflow.Graph
import Federation.Workflow.Builder
import Federation.Workflow.Segment
import Federation.Connector
import Federation.Statement
import Federation.Planner.Config
import Federation.Registry.Snapshot
import Federation.Registry.Catalog
import Federation.Plan
import Federation.Planner
import Federation.Wire.Plan
import Federation.Proofs.Collect
import Federation.Proofs.Agree
import Federation.Proofs.Registry.Capture
import Federation.Proofs.Registry.Attachments
import Federation.Proofs.Registry.History
import Federation.Proofs.Registry.Tables
import Federation.Proofs.Registry.Questions
import Federation.Proofs.Workflow.Links
import Federation.Proofs.Workflow.Stretch
import Federation.Proofs.Planner.Coverage
import Federation.Proofs.Planner.Branches
import Federation.Proofs.Planner.Verdict
import Federation.Proofs.Planner.Choice
import Federation.Proofs.Planner.Native
import Federation.Proofs.Planner.Parts
import Federation.Proofs.Planner.Assignment
import Federation.Proofs.Planner.Stages
import Federation.Proofs.Planner.Outcome
import Federation.Proofs.Planner.Rearranged
import Federation.Proofs.Planner.Order
import Federation.Proofs.Planner.Whole
import Federation.Proofs.Planner.Feasible
import Federation.Proofs.Planner.Uncovered
import Federation.Proofs.Planner.Refusal
import Federation.Proofs.Planner.Failure
import Federation.Proofs.Planner.Reached
import Federation.Proofs.Planner.Unambiguous
import Federation.Proofs.Planner.Storage
import Federation.Proofs.Planner.Dispatch
import Federation.Proofs.Planner.Home
import Federation.Proofs.Meaning.Value
import Federation.Proofs.Meaning.Execution
import Federation.Proofs.Planner.Division
import Federation.Proofs.Planner.JoinTree
import Federation.Proofs.Planner.Lookup
import Federation.Proofs.Planner.Arrivals
import Federation.Proofs.Planner.Local
import Federation.Proofs.Planner.Subtree
import Federation.Proofs.Planner.Address
import Federation.Proofs.Planner.Merging
import Federation.Proofs.Planner.Unattached
import Federation.Proofs.Planner.Elsewhere
import Federation.Proofs.Planner.Growth
import Federation.Proofs.Planner.Settings
import Federation.Proofs.Workflow.Building
import Federation.Proofs.Workflow.Editing
import Federation.Proofs.Workflow.Attempts
import Federation.Proofs.Workflow.Convergence
import Federation.Proofs.Wire.Reading
import Federation.Proofs.Wire.Workflow
import Federation.Proofs.Wire.Plan
import Federation.Proofs.Json.Text
import Federation.Proofs.Wire.Registry
import Federation.Proofs.Workflow.Replay
import Federation.Proofs.Text.Cutting
import Federation.Proofs.Text.Words
import Federation.Proofs.Text.Names
import Federation.Proofs.Text.Tags
import Federation.Proofs.Text.Offender
import Federation.Proofs.Capability.Membership
