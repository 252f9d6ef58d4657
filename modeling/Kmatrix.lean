import Kmatrix.Lib.Base64
import Kmatrix.Lib.Keyed
import Kmatrix.Lib.Newest
import Kmatrix.Lib.Walk
import Kmatrix.Storage.AtRest
import Kmatrix.Storage.Edits
import Kmatrix.Storage.Replay
import Kmatrix.Sync.Replay
import Kmatrix.Sync.Rerun
import Kmatrix.Sync.Restore
import Kmatrix.Sync.History
import Kmatrix.Sync.Authentic
import Kmatrix.E2ee.Json
import Kmatrix.E2ee.Sha256
import Kmatrix.Lib.Trace
import Kmatrix.Sas.Machine
import Kmatrix.Sas.Consent
import Kmatrix.Sas.Commitment
import Kmatrix.Sas.Soundness
import Kmatrix.Sas.Ownership
import Kmatrix.E2ee.Effects
import Kmatrix.E2ee.Sessions
import Kmatrix.E2ee.Megolm
import Kmatrix.Daemon.Send
import Kmatrix.Daemon.Sharing
import Kmatrix.E2ee.Secrets
import Kmatrix.Daemon.Secrets
import Kmatrix.E2ee.ToDevice
import Kmatrix.E2ee.Provenance
import Kmatrix.Daemon.Procs
import Kmatrix.Daemon.Backlog
import Kmatrix.Daemon.Paging
import Kmatrix.Daemon.Gaps
import Kmatrix.Daemon.Naming
import Kmatrix.Daemon.Downgrade
import Kmatrix.Ipc.Client
import Kmatrix.Ipc.Lifetime
import Kmatrix.Ipc.Framing
import Kmatrix.Storage.RoundTrip
import Kmatrix.Storage.Upgrade
import Kmatrix.E2ee.Stored
import Kmatrix.E2ee.History
import Kmatrix.Sync.Binding
import Kmatrix.Daemon.Accounts
import Kmatrix.Daemon.Status
import Kmatrix.Daemon.Credentials
import Kmatrix.Daemon.Wipes
import Kmatrix.E2ee.OneTimeKeys
import Kmatrix.E2ee.Redelivery
import Kmatrix.E2ee.Sending
import Kmatrix.E2ee.Delivery
import Kmatrix.Daemon.Transactions
import Kmatrix.E2ee.Imports
import Kmatrix.E2ee.Uploads
import Kmatrix.Sas.Ephemeral
import Kmatrix.E2ee.Steady
import Kmatrix.Sync.Unlocked
import Kmatrix.Lib.Window
import Kmatrix.Sync.Repair
import Kmatrix.Ipc.Reassembly
import Kmatrix.Daemon.Audience
import Kmatrix.E2ee.Recovery
import Kmatrix.E2ee.Restart
import Kmatrix.Sync.Publish
import Kmatrix.E2ee.Isolation
import Kmatrix.Daemon.Exhaustion
import Kmatrix.Daemon.Recipients
import Kmatrix.Daemon.Overtaking
import Kmatrix.Daemon.Names
import Kmatrix.Daemon.GivenNames
import Kmatrix.Daemon.Renames
import Kmatrix.Daemon.Sweeping
import Kmatrix.Lib.Batching
import Kmatrix.Sync.MemberNames
import Kmatrix.Sync.Previews
import Kmatrix.Lib.Tail
import Kmatrix.Storage.Recent
import Kmatrix.Daemon.Headcount
import Kmatrix.Sas.Expiry
import Kmatrix.Ipc.Answers
import Kmatrix.Ui.Order
import Kmatrix.Ipc.Correlation
import Kmatrix.E2ee.Base58
import Kmatrix.E2ee.Entries
import Kmatrix.E2ee.Canonical
import Kmatrix.E2ee.Fips
import Kmatrix.Storage.Sealed
import Kmatrix.Api.Date
import Kmatrix.Api.Base
import Kmatrix.Api.Segment
import Kmatrix.Lib.Processes
import Kmatrix.Ipc.PortFile
import Kmatrix.Daemon.Instances
import Kmatrix.Daemon.Exclusive
import Kmatrix.Daemon.Startable
import Kmatrix.Daemon.SyncLoop
import Kmatrix.Ui.Connection
import Kmatrix.Sas.Emoji
import Kmatrix.Sas.Prompt
import Kmatrix.Sync.SenderNames
import Kmatrix.Lib.Ddl
import Kmatrix.Storage.Columns
import Kmatrix.E2ee.Published
