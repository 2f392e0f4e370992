import Downline.Config.Document
import Downline.Database.Script
import Downline.Main
import Downline.Store.Rehearsal
import Downline.Store.Tree.Lemmas
import Downline.Proofs.Ancestry
import Downline.Proofs.Logins
import Downline.Proofs.Inheritance
import Downline.Proofs.Discovery
import Downline.Proofs.Forest
import Downline.Proofs.Forest.Growth
import Downline.Proofs.Memory
import Downline.Proofs.Census
import Downline.Proofs.Program
import Downline.Proofs.Config.Keys
import Downline.Proofs.Config.Overriding
import Downline.Proofs.Digits
import Downline.Proofs.Json.Layout
import Downline.Proofs.Json.Reading
import Downline.Proofs.Json.Decoding
import Downline.Proofs.Timestamp
import Downline.Proofs.Uuid
import Downline.Proofs.Journal
import Downline.Proofs.Journal.Reports
import Downline.Proofs.Journal.Lookup
import Downline.Proofs.Journal.Saves
import Downline.Proofs.Interference
import Downline.Proofs.Outages
import Downline.Proofs.Propagation.Groups
import Downline.Proofs.Propagation.Filling
import Downline.Proofs.Propagation.Runs
import Downline.Proofs.Propagation.Exact
import Downline.Proofs.Propagation.Repair
import Downline.Proofs.Propagation.Accounting
import Downline.Proofs.Propagation.Provenance
import Downline.Proofs.Rekey.Plan
import Downline.Proofs.Rekey.Moves
import Downline.Proofs.Rekey.Progress
import Downline.Proofs.Rekey.Runs
import Downline.Proofs.Rekey.Views
import Downline.Proofs.Rekey.Crew
import Downline.Proofs.Rekey.InFlight
import Downline.Proofs.Rekey.Containment
import Downline.Proofs.Rekey.Counting
import Downline.Proofs.Rekey.EarlyStop
import Downline.Proofs.Rekey.Balance
import Downline.Proofs.Rekey.Accounting
import Downline.Proofs.Rekey.Chains
import Downline.Proofs.Rekey.Pass
import Downline.Proofs.Rekey.Convergence
import Downline.Proofs.Rekey.PassBound
import Downline.Proofs.Rekey.Uncontested
import Downline.Proofs.Rekey.Order
import Downline.Proofs.Maintenance.Runs
import Downline.Proofs.Maintenance.NonOverwrite
import Downline.Proofs.Maintenance.ClosedForm
import Downline.Proofs.Discovery.Walks
import Downline.Proofs.Discovery.Rounds
import Downline.Proofs.Maintenance.Breakdowns
import Downline.Proofs.Entity
import Downline.Proofs.Rekey.Agreement
import Downline.Proofs.Rekey.Refusals
import Downline.Proofs.Paths
import Downline.Proofs.GuardedWrites
import Downline.Proofs.Database.PathColumns
import Downline.Proofs.Propagation.Isolation
import Downline.Proofs.Propagation.Requests
import Downline.Proofs.Rekey.Thinning
import Downline.Proofs.Rekey.TaskIsolation
import Downline.Proofs.Maintenance.Counters
