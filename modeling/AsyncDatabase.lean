import AsyncDatabase.Library.Run
import AsyncDatabase.Library.Refinement
import AsyncDatabase.Library.Monitors
import AsyncDatabase.Library.Bytes
import AsyncDatabase.Library.Utf8
import AsyncDatabase.Library.JsonText
import AsyncDatabase.Library.Maps
import AsyncDatabase.Library.Throwing
import AsyncDatabase.Record
import AsyncDatabase.Partition
import AsyncDatabase.Table
import AsyncDatabase.Schema
import AsyncDatabase.Repository
import AsyncDatabase.Base64
import AsyncDatabase.Url
import AsyncDatabase.Scan
import AsyncDatabase.Router.Message
import AsyncDatabase.Node
import AsyncDatabase.Membership
import AsyncDatabase.Router.Tables
import AsyncDatabase.Router.Records
import AsyncDatabase.Router.Scans
import AsyncDatabase.Repository.Effect
import AsyncDatabase.Reopening
import AsyncDatabase.Atomicity
import AsyncDatabase.Fence
import AsyncDatabase.Restart
import AsyncDatabase.Interleaving
import AsyncDatabase.Absence
import AsyncDatabase.Repository.Counting
import AsyncDatabase.Copy
import AsyncDatabase.Acknowledged
import AsyncDatabase.Library.Newest
import AsyncDatabase.Merging
import AsyncDatabase.Operations
import AsyncDatabase.Versions
import AsyncDatabase.Dependencies
import AsyncDatabase.Deletes
import AsyncDatabase.Counts
import AsyncDatabase.Vouching
import AsyncDatabase.Importing
import AsyncDatabase.Repository.Scanning
import AsyncDatabase.Reconcile
import AsyncDatabase.Router.Session
import AsyncDatabase.ReadBack
import AsyncDatabase.Repository.Calls
import AsyncDatabase.Paging
import AsyncDatabase.Library.Chains
import AsyncDatabase.Router.Sent
import AsyncDatabase.Bouncing
import AsyncDatabase.Router.Forwarder
import AsyncDatabase.ScanThrough
import AsyncDatabase.Watching
import AsyncDatabase.FailedReads
import AsyncDatabase.ClearDown
import AsyncDatabase.Elsewhere
import AsyncDatabase.Remembering
import AsyncDatabase.Owners
import AsyncDatabase.Holders
import AsyncDatabase.Etcd
import AsyncDatabase.PartitionText
import AsyncDatabase.Leaders
import AsyncDatabase.Leading
import AsyncDatabase.OwnTerms
import AsyncDatabase.Stamps
import AsyncDatabase.Pieces
import AsyncDatabase.Router.Forwarding
import AsyncDatabase.Converging
import AsyncDatabase.ZoneCopies
import AsyncDatabase.Exporting
import AsyncDatabase.Walking
import AsyncDatabase.Bringing
import AsyncDatabase.Filling
import AsyncDatabase.Starting
import AsyncDatabase.Striping
import AsyncDatabase.Raising
import AsyncDatabase.Relay
import AsyncDatabase.Carrying
import AsyncDatabase.Serving
import AsyncDatabase.Connections
import AsyncDatabase.Leases
import AsyncDatabase.Registering
