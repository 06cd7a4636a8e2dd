import LockManager.Fault
import LockManager.Handle
import LockManager.Json.Basic
import LockManager.Json.Records
import LockManager.Json.Report
import LockManager.Json.Settings
import LockManager.Proofs.Exclusion
import LockManager.Proofs.Settlement
import LockManager.Session
import LockManager.Toml.Settings
import LockManager.Proofs.Wakeups
import LockManager.Proofs.Nesting
import LockManager.Proofs.Refusals
import LockManager.Proofs.Tickets
import LockManager.Proofs.Pledges
import LockManager.Proofs.Threads
import LockManager.Proofs.Deadlock
import LockManager.Proofs.Ownership
import LockManager.Proofs.Locality
import LockManager.Proofs.Replay
import LockManager.Proofs.Releases
import LockManager.Proofs.ReleaseLists
import LockManager.Proofs.Termination
import LockManager.Proofs.Exchanges
import LockManager.Proofs.Spans
import LockManager.Proofs.Contexts
import LockManager.Proofs.Undo
import LockManager.Proofs.Hierarchy
import LockManager.Proofs.Encoding
import LockManager.Proofs.RootContext
