import Telemetry.Settings.Log
import Telemetry.Agent.Config
import Telemetry.Collector.Config
import Telemetry.Storage.Backend
import Telemetry.Backup.Restore
import Telemetry.Backup.Task
import Telemetry.Collector.Session
import Telemetry.Host.Poll
import Telemetry.Agent.Run
import Telemetry.Agent.Pool
import Telemetry.Main
import Telemetry.Proofs.SortedMap
import Telemetry.Proofs.Staging
import Telemetry.Proofs.Writes
import Telemetry.Proofs.Batch
import Telemetry.Proofs.Rows
import Telemetry.Proofs.Entries
import Telemetry.Proofs.Accounts
import Telemetry.Proofs.Path
import Telemetry.Proofs.Reopen
import Telemetry.Proofs.Utf8
import Telemetry.Proofs.Validity
import Telemetry.Proofs.Save
import Telemetry.Proofs.Service
import Telemetry.Proofs.Exchange
import Telemetry.Proofs.Rounding
import Telemetry.Proofs.Shortest
import Telemetry.Proofs.Quoted
import Telemetry.Proofs.Numeral
import Telemetry.Proofs.NumberText
import Telemetry.Proofs.RecordText
import Telemetry.Proofs.Lines
import Telemetry.Proofs.Restart
import Telemetry.Proofs.Bytes
import Telemetry.Proofs.Limit
import Telemetry.Proofs.Packing
import Telemetry.Proofs.Cipher
import Telemetry.Proofs.Signature
import Telemetry.Proofs.Framing
import Telemetry.Proofs.BatchText
import Telemetry.Proofs.Retry
import Telemetry.Proofs.Delivery
import Telemetry.Proofs.Transparency
import Telemetry.Proofs.Gate
import Telemetry.Proofs.Pool
import Telemetry.Proofs.Progress
import Telemetry.Proofs.Posting
import Telemetry.Proofs.Crash
import Telemetry.Proofs.Response
import Telemetry.Proofs.Target
import Telemetry.Proofs.Conversion
import Telemetry.Proofs.Status
import Telemetry.Proofs.Reading
import Telemetry.Proofs.Writing
import Telemetry.Proofs.ValueText
import Telemetry.Proofs.Page
import Telemetry.Proofs.Layers
import Telemetry.Proofs.Configuration
import Telemetry.Proofs.Bounds
import Telemetry.Proofs.Cores
import Telemetry.Proofs.Magnitude
import Telemetry.Proofs.Sources
import Telemetry.Proofs.Polling
import Telemetry.Proofs.Lossless
import Telemetry.Proofs.Sealing
import Telemetry.Proofs.Gains
import Telemetry.Proofs.Replay
import Telemetry.Proofs.Spelling
import Telemetry.Proofs.Grammar
import Telemetry.Proofs.Layout
import Telemetry.Proofs.Precedence
import Telemetry.Proofs.Markup
import Telemetry.Proofs.DurationText
import Telemetry.Proofs.Locality
import Telemetry.Proofs.Member
import Telemetry.Proofs.Keyed
import Telemetry.Proofs.Usage
import Telemetry.Agent.Reporter
import Telemetry.Proofs.Interval
import Telemetry.Proofs.Shutdown
import Telemetry.Proofs.Schedule
import Telemetry.Proofs.Clock
