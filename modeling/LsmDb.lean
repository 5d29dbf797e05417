import LsmDb.Lib.SortedMap
import LsmDb.Lib.Overlay
import LsmDb.Lib.LittleEndian
import LsmDb.Core.Record
import LsmDb.Core.Deps
import LsmDb.Core.MemTable
import LsmDb.Core.Wire
import LsmDb.Sstable.Format
import LsmDb.Sstable.Layout
import LsmDb.Sstable.Bloom
import LsmDb.Sstable.Reader
import LsmDb.Sstable.RoundTrip
import LsmDb.Sstable.Accept
import LsmDb.Engine.Merge
import LsmDb.Engine.Cache
import LsmDb.Engine.Scan
import LsmDb.Engine.Manifest
import LsmDb.Engine.LogRecord
import LsmDb.Engine.World
import LsmDb.Engine.Effects
import LsmDb.Engine.Programs
import LsmDb.Engine.System
import LsmDb.Proof.Invariant
import LsmDb.Proof.Safety
import LsmDb.Proof.Frame
import LsmDb.Proof.Lock
import LsmDb.Proof.History
import LsmDb.Proof.Build
import LsmDb.Proof.Writing
import LsmDb.Proof.Commit
import LsmDb.Proof.Handles
import LsmDb.Engine.Agreement
import LsmDb.Engine.Alone
import LsmDb.Proof.Sequence
import LsmDb.Proof.Sidecars
import LsmDb.Proof.Flushing
import LsmDb.Proof.Reading
import LsmDb.Proof.Compacting
import LsmDb.Proof.Opening
import LsmDb.Proof.Recovery
import LsmDb.Proof.Reachable
import LsmDb.Engine.Schedule
import LsmDb.Proof.Directory
import LsmDb.Proof.Stages
import LsmDb.Proof.Compaction
import LsmDb.Proof.Progress
import LsmDb.Proof.Accepted
import LsmDb.Proof.Answers
import LsmDb.Proof.Crashes
import LsmDb.Proof.Failures
import LsmDb.Proof.Extremes
import LsmDb.Proof.Recovered
import LsmDb.Engine.Clock
import LsmDb.Proof.Protocol
import LsmDb.Proof.Buffer
import LsmDb.Engine.MergeErrors
import LsmDb.Engine.Ranges
import LsmDb.Engine.Replay
import LsmDb.Sstable.Blocks
import LsmDb.Engine.Naming
import LsmDb.Proof.Requests
import LsmDb.Proof.Refinement
import LsmDb.Proof.Liveness
import LsmDb.Proof.Mailbox
import LsmDb.Proof.Histories
import LsmDb.Proof.Tidy
import LsmDb.Proof.Cost
import LsmDb.Proof.Written
import LsmDb.Proof.Filters
