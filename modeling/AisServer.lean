import AisServer.Lib.Run
import AisServer.Lib.Calendar
import AisServer.Lib.Heap
import AisServer.Lib.Text
import AisServer.Stream.Reorder
import AisServer.Lib.TtlCache
import AisServer.Nmea.Payload
import AisServer.Nmea.Sentence
import AisServer.Stream.Dedup
import AisServer.Stream.Events
import AisServer.Stream.Pipeline
import AisServer.Stream.Conservation
import AisServer.Stream.Timing
import AisServer.Ingest.Registry
import AisServer.Ingest.Lines
import AisServer.Ingest.Accounting
import AisServer.Lib.Wal
import AisServer.Store.Database
import AisServer.Store.Backup
import AisServer.Forward.Tcp
import AisServer.Forward.Order
import AisServer.Forward.Manager
import AisServer.Forward.Wire
import AisServer.Lib.Json
import AisServer.Web.Endpoints
import AisServer.Web.App
import AisServer.Web.ForcedChange
import AisServer.Ingest.Counters
import AisServer.Ingest.Framing
import AisServer.Forward.Feed
import AisServer.Forward.Http
import AisServer.Forward.Udp
import AisServer.Forward.Accounting
import AisServer.Forward.Reconcile
import AisServer.Stream.Window
import AisServer.Nmea.Canonical
import AisServer.Stream.Fragments
import AisServer.Config.Merge
import AisServer.Config.Load
import AisServer.Web.StoredEndpoints
import AisServer.Lib.DateTime
import AisServer.Nmea.Header
import AisServer.Lib.Decimal
import AisServer.Nmea.Render
import AisServer.Stream.Rendered
import AisServer.Nmea.Corruption
import AisServer.Stream.Overflow
import AisServer.Ingest.Terminators
import AisServer.Ingest.TagBlocks
import AisServer.Forward.Loop
import AisServer.Forward.Replaced
import AisServer.Forward.TestEndpoint
import AisServer.Web.TestButton
import AisServer.Web.EndpointWrites
import AisServer.Host.DiskCheck
import AisServer.Host.NetCheck
import AisServer.Lib.LastSeen
import AisServer.Lib.Recent
import AisServer.Stream.Stats
import AisServer.Stream.Recent
import AisServer.Config.MergeLaw
import AisServer.Config.SecretKey
import AisServer.Lib.Sorted
import AisServer.Store.Prune
import AisServer.Host.Wifi
import AisServer.Ingest.Listener
import AisServer.Lib.Markup
import AisServer.Ingest.Keys
import AisServer.Web.LiveView
import AisServer.Forward.Delivery
import AisServer.Forward.Dispatch
import AisServer.Ingest.SessionLog
import AisServer.Main.EndToEnd
import AisServer.Main.Maintenance
import AisServer.Main.Relay
import AisServer.Main.Shutdown
import AisServer.Stream.OutputLoop
import AisServer.Tools.Replay
import AisServer.Forward.Capacity
import AisServer.Lib.Turns
import AisServer.Main.EndpointSync
import AisServer.Main.Memory
import AisServer.Web.Accounts
import AisServer.Forward.Batches
import AisServer.Forward.Recovery
import AisServer.Host.Gateway
import AisServer.Main.Chronology
import AisServer.Web.LiveStream
