import CellGraph.Bytes.Hex
import CellGraph.Cell.Basic
import CellGraph.Cell.Canonical
import CellGraph.Cell.Decoding
import CellGraph.Cell.Encoding
import CellGraph.Cell.Equality
import CellGraph.Cell.Map
import CellGraph.Cell.Size
import CellGraph.Cell.Text
import CellGraph.Digest
import CellGraph.Digest.Blake3
import CellGraph.Fault
import CellGraph.Index
import CellGraph.Json.Number
import CellGraph.Json.Reading
import CellGraph.Json.Syntax
import CellGraph.Knowledge
import CellGraph.Link.Resolution
import CellGraph.Proofs.Cell.Alike
import CellGraph.Proofs.Cell.Ascending
import CellGraph.Proofs.Cell.CanonicalForm
import CellGraph.Proofs.Cell.Canonicity
import CellGraph.Proofs.Cell.Comparison
import CellGraph.Proofs.Cell.Completion
import CellGraph.Proofs.Cell.Entry
import CellGraph.Proofs.Cell.Equality
import CellGraph.Proofs.Cell.Estimate
import CellGraph.Proofs.Cell.FiniteMap
import CellGraph.Proofs.Cell.Labels
import CellGraph.Proofs.Cell.Named
import CellGraph.Proofs.Cell.Parallel
import CellGraph.Proofs.Cell.ReadBack
import CellGraph.Proofs.Cell.Reread
import CellGraph.Proofs.Cell.RoundTrip
import CellGraph.Proofs.Cell.Sound
import CellGraph.Proofs.Cell.Truncation
import CellGraph.Proofs.Cell.UniqueParsing
import CellGraph.Proofs.Cell.Validity
import CellGraph.Proofs.Computation.Craft
import CellGraph.Proofs.Computation.Ends
import CellGraph.Proofs.Computation.EndsWhere
import CellGraph.Proofs.Computation.Guards
import CellGraph.Proofs.Computation.Law
import CellGraph.Proofs.Computation.Run
import CellGraph.Proofs.Graph.Emission
import CellGraph.Proofs.Graph.Resolution
import CellGraph.Proofs.Knowledge.Coherent
import CellGraph.Proofs.Knowledge.Law
import CellGraph.Proofs.Query.Recovery
import CellGraph.Proofs.Query.Replication
import CellGraph.Proofs.Query.Stop
import CellGraph.Proofs.Reader.Bounds
import CellGraph.Proofs.Reader.Quantity
import CellGraph.Proofs.Reader.Scan
import CellGraph.Proofs.Reader.WrittenForms
import CellGraph.Proofs.Report.Cells
import CellGraph.Proofs.Session.Backends
import CellGraph.Proofs.Session.Basic
import CellGraph.Proofs.Session.Chronicle
import CellGraph.Proofs.Session.Invariant
import CellGraph.Proofs.Session.Labelled
import CellGraph.Proofs.Session.Requests
import CellGraph.Proofs.Session.Upkept
import CellGraph.Proofs.Session.ValidatedLookup
import CellGraph.Proofs.Stake.Accepted
import CellGraph.Proofs.Stake.Conservation
import CellGraph.Proofs.Stake.Delegations
import CellGraph.Proofs.Stake.Delegators
import CellGraph.Proofs.Stake.HistoryIndependence
import CellGraph.Proofs.Stake.Inspection
import CellGraph.Proofs.Stake.Ledger
import CellGraph.Proofs.Stake.Payouts
import CellGraph.Proofs.Stake.Proportions
import CellGraph.Proofs.Stake.Replica
import CellGraph.Proofs.Stake.Rewards
import CellGraph.Proofs.Stake.Traps
import CellGraph.Proofs.Store.Completeness
import CellGraph.Proofs.Store.Copies
import CellGraph.Proofs.Store.DepositLaw
import CellGraph.Proofs.Store.Deposits
import CellGraph.Proofs.Store.Entries
import CellGraph.Proofs.Store.Expansion
import CellGraph.Proofs.Store.Orderly
import CellGraph.Proofs.Store.Origin
import CellGraph.Proofs.Store.OriginLaw
import CellGraph.Proofs.Store.Read
import CellGraph.Proofs.Store.References
import CellGraph.Proofs.Walk.Agenda
import CellGraph.Proofs.Walk.Agreement
import CellGraph.Proofs.Walk.Arrival
import CellGraph.Proofs.Walk.Closure
import CellGraph.Proofs.Walk.Course
import CellGraph.Proofs.Walk.CourseRun
import CellGraph.Proofs.Walk.Delivery
import CellGraph.Proofs.Walk.Descendants
import CellGraph.Proofs.Walk.Effects
import CellGraph.Proofs.Walk.Interruption
import CellGraph.Proofs.Walk.Invariant
import CellGraph.Proofs.Walk.NestedGraph
import CellGraph.Proofs.Walk.Order
import CellGraph.Proofs.Walk.Reload
import CellGraph.Proofs.Walk.Schedule
import CellGraph.Proofs.Walk.Success
import CellGraph.Proofs.Walk.Trace
import CellGraph.Quantity
import CellGraph.Reader
import CellGraph.Report
import CellGraph.Samples.Fixture
import CellGraph.Samples.Golden
import CellGraph.Scan
import CellGraph.Settings
import CellGraph.Stake.Holdings
import CellGraph.Stake.Update
import CellGraph.Stake.Validity
import CellGraph.Stake.Valuation
import CellGraph.Status
import CellGraph.Store.Basic
import CellGraph.Store.Fault
import CellGraph.Store.Handle
import CellGraph.Store.Walk
import CellGraph.Tag
import CellGraph.Text.Utf8
