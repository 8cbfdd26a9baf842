import Interlock.Table
import Interlock.Program
import Interlock.System
import Interlock.System.Race
import Interlock.Text.Unprintable
import Interlock.Text.Quoted
import Interlock.Text.Diagnostic
import Interlock.Text.Bytes
import Interlock.Decimal.Binary
import Interlock.Decimal.Fixed
import Interlock.Decimal.Shortest
import Interlock.Fault
import Interlock.Register.Basic
import Interlock.Register.Interference
import Interlock.Register.Numeral
import Interlock.Register.Counter
import Interlock.Register.Flag
import Interlock.Register.Field
import Interlock.Slot.Basic
import Interlock.Slot.Interference
import Interlock.FieldSet
import Interlock.Json.Number
import Interlock.Json.Token
import Interlock.Json.Record
import Interlock.Monitor.Mailbox
import Interlock.Monitor.WaitSet
import Interlock.Monitor.Lock
import Interlock.Monitor.Basic
import Interlock.Monitor.Timeout
import Interlock.Monitor.Wait
import Interlock.Monitor.Call
import Interlock.Monitor.Action
import Interlock.Monitor.Settings
import Interlock.Latch
import Interlock.BoundedQueue
import Interlock.Session.Command
import Interlock.Session
import Interlock.Workload
import Interlock.Bench.Folder
import Interlock.Bench.Results
import Interlock.Bench.Estimates
import Interlock.Bench.Table
import Interlock.Bench.Report
import Interlock.Bench.CommandLine
import Interlock.Main
import Interlock.Proofs.Monitor.Position
import Interlock.Proofs.Monitor.Sleepers
import Interlock.Proofs.Monitor.Identity
import Interlock.Proofs.Monitor.Tenure
import Interlock.Proofs.Monitor.Ownership
import Interlock.Proofs.WaitSet
import Interlock.Proofs.Monitor.Phase
import Interlock.Proofs.Monitor.Enrolment
import Interlock.Proofs.Monitor.Accounting
import Interlock.Proofs.Monitor.Guarded
import Interlock.Proofs.Monitor.Testing
import Interlock.Proofs.Monitor.Tickets
import Interlock.Proofs.Fifo
import Interlock.Proofs.Register
import Interlock.Proofs.Counter
import Interlock.Proofs.Flag
import Interlock.Proofs.Slot
import Interlock.Proofs.Opening
import Interlock.Proofs.Monitor.Restoration
import Interlock.Proofs.Footprint
import Interlock.Proofs.Monitor.Lifetime
import Interlock.Proofs.Monitor.Mail
import Interlock.Proofs.Monitor.Interrupts
import Interlock.Proofs.Monitor.Parking
import Interlock.Proofs.Retry
import Interlock.Proofs.LockFree
import Interlock.Proofs.Field
import Interlock.Proofs.Monitor.Conditions
import Interlock.Proofs.Latch
import Interlock.Proofs.FieldSet
import Interlock.Proofs.Slot.Interference
import Interlock.Proofs.Refusal
import Interlock.Proofs.Monitor.Deadline
import Interlock.Proofs.Monitor.Verdict
import Interlock.Proofs.Register.Interference
import Interlock.Proofs.Decimal
import Interlock.Proofs.Decimal.Fixed
import Interlock.Proofs.Decimal.Float
import Interlock.Proofs.Decimal.Quotient
import Interlock.Proofs.Decimal.Whole
import Interlock.Proofs.Numeral
import Interlock.Proofs.Register.Shares
import Interlock.Proofs.Counter.Saturation
import Interlock.Proofs.Counter.Exactness
import Interlock.Proofs.Counter.Ladder
import Interlock.Proofs.Text
import Interlock.Proofs.Json.Grammar
import Interlock.Proofs.Json.Literal
import Interlock.Proofs.Json.Token
import Interlock.Proofs.Json.Lexeme
import Interlock.Proofs.Json.Record
import Interlock.Proofs.Json.Number
import Interlock.Proofs.Json.Document
import Interlock.Proofs.Json.Float
import Interlock.Proofs.Json.Accuracy
import Interlock.Proofs.Bench.Results
import Interlock.Proofs.Bench.Folder
import Interlock.Proofs.Bench.Estimates
import Interlock.Proofs.Bench.Collection
import Interlock.Proofs.Bench.Report
import Interlock.Proofs.Bench.Failure
import Interlock.Proofs.Bench.Table
import Interlock.Proofs.Bench.Layout
import Interlock.Proofs.Bench.Duration
import Interlock.Proofs.Monitor.Settings
import Interlock.Proofs.History
import Interlock.Proofs.Monitor.Group
import Interlock.Proofs.Monitor.Leak
