import KeyValueServer.Bytes
import KeyValueServer.Command.Code
import KeyValueServer.Command.Line
import KeyValueServer.Error
import KeyValueServer.Text.Blank
import KeyValueServer.Text.Combining
import KeyValueServer.Text.Numeral
import KeyValueServer.Text.Printable
import KeyValueServer.Text.Quoted
import KeyValueServer.Text.Utf8
import KeyValueServer.Wire.Buffer
import KeyValueServer.Wire.Codec
import KeyValueServer.Wire.Token
import KeyValueServer.Client.Exchange
import KeyValueServer.Sync.Contention
import KeyValueServer.Sync.Guarded
import KeyValueServer.Store.Access
import KeyValueServer.Store.Dump
import KeyValueServer.Server.Answer
import KeyValueServer.Store.Fingerprint
import KeyValueServer.Server.Serve
import KeyValueServer.Connection.Arena
import KeyValueServer.Toml.DateTime
import KeyValueServer.Toml.Document
import KeyValueServer.Config.File
import KeyValueServer.Trace.Level
import KeyValueServer.Trace.Line
import KeyValueServer.Connection.Waiter
import KeyValueServer.Store.Traffic
import KeyValueServer.Connection.Network
import KeyValueServer.Server.Engine
import KeyValueServer.Server.Workers
import KeyValueServer.Client.Connection
import KeyValueServer.Console.Dialogue
import KeyValueServer.Console.Options
import KeyValueServer.Server.Launch
import KeyValueServer.Console.Programs
import KeyValueServer.Main
import KeyValueServer.Proofs.Sync.Effect
import KeyValueServer.Proofs.Sync.Roster
import KeyValueServer.Proofs.Sync.Exclusion
import KeyValueServer.Proofs.Sync.Parking
import KeyValueServer.Proofs.Sync.Serialization
import KeyValueServer.Proofs.Sync.Refusal
import KeyValueServer.Proofs.Sync.Counting
import KeyValueServer.Proofs.Store.Calls
import KeyValueServer.Proofs.Store.Lookup
import KeyValueServer.Proofs.Server.Frames
import KeyValueServer.Proofs.Server.Serving
import KeyValueServer.Proofs.Store.Refinement
import KeyValueServer.Proofs.Wire.RoundTrip
import KeyValueServer.Proofs.Traffic.Linearizability
import KeyValueServer.Proofs.Client.Answers
import KeyValueServer.Proofs.Client.Reception
import KeyValueServer.Proofs.Client.Conversation
import KeyValueServer.Proofs.Traffic.Progress
import KeyValueServer.Proofs.Traffic.Alone
import KeyValueServer.Proofs.Wire.Acceptance
import KeyValueServer.Proofs.Connection.EventRing
import KeyValueServer.Proofs.Connection.Naming
import KeyValueServer.Proofs.Connection.Places
import KeyValueServer.Proofs.Connection.Installations
import KeyValueServer.Proofs.Connection.Reports
import KeyValueServer.Proofs.Server.Turns
import KeyValueServer.Proofs.Workers.Tenure
import KeyValueServer.Proofs.Workers.Effect
import KeyValueServer.Proofs.Workers.Tenancy
import KeyValueServer.Proofs.Workers.Reachable
import KeyValueServer.Proofs.Workers.Ownership
import KeyValueServer.Proofs.Workers.Whereabouts
import KeyValueServer.Proofs.Workers.Attention
import KeyValueServer.Proofs.Workers.Readiness
import KeyValueServer.Proofs.Workers.Order
import KeyValueServer.Proofs.Workers.Rounds
import KeyValueServer.Proofs.Workers.Polling
import KeyValueServer.Proofs.Workers.Vigil
import KeyValueServer.Proofs.Store.Retirement
import KeyValueServer.Proofs.Server.LockBalance
import KeyValueServer.Proofs.Custody.Waiting
import KeyValueServer.Proofs.Workers.Duty
import KeyValueServer.Proofs.Store.Refusal
import KeyValueServer.Proofs.Custody.Deposits
import KeyValueServer.Proofs.Server.Peers
import KeyValueServer.Proofs.Wire.Room
import KeyValueServer.Proofs.Wire.ByteLog
import KeyValueServer.Proofs.Connection.BoundedQueue
import KeyValueServer.Proofs.Server.Processing
import KeyValueServer.Proofs.Server.Backlog
import KeyValueServer.Proofs.Console.Reports
import KeyValueServer.Proofs.Server.Draining
import KeyValueServer.Proofs.Config.Saving
import KeyValueServer.Proofs.Server.Launching
