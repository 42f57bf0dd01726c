import GraphR.Library.Bytes
import GraphR.Library.Faults
import GraphR.Library.SortedMap
import GraphR.Library.Selection
import GraphR.Format.Basic
import GraphR.Format.Container
import GraphR.Format.ContainerFile
import GraphR.Format.ContainerRoundTrip
import GraphR.Format.BaseFile
import GraphR.Format.Wal.Encode
import GraphR.Format.Wal.Views
import GraphR.Format.Wal.Record
import GraphR.Format.Wal.Sealed
import GraphR.Format.Wal.OpLayout
import GraphR.Format.Wal.OpTables
import GraphR.Format.Wal.RoundTrip
import GraphR.Format.Wal.Calls
import GraphR.Format.Wal.Cut
import GraphR.Format.Wal.Safe
import GraphR.Format.Wal.Placed
import GraphR.Format.Wal.Frames
import GraphR.Store.Ttl
import GraphR.Store.Overlay
import GraphR.Store.Snapshot
import GraphR.Store.Base
import GraphR.Store.Live
import GraphR.Store.Image
import GraphR.Store.Safe
import GraphR.Store.Open
import GraphR.Store.Overflow
import GraphR.Store.Compact
import GraphR.Store.Writer
import GraphR.Store.Single
import GraphR.Store.Staging
import GraphR.Store.Reference
import GraphR.Store.Refinement
import GraphR.Store.ReferenceRun
import GraphR.Store.Tombstone
import GraphR.Store.Placement
import GraphR.Library.Run
import GraphR.Library.Simulation
import GraphR.Store.History
import GraphR.Store.NewDocument
import GraphR.Store.SideSets
import GraphR.Store.SidePlacement
import GraphR.Store.SideCalls
import GraphR.Store.EdgeSets
import GraphR.Store.NamedAttrs
import GraphR.Store.CommitPath
import GraphR.Store.TtlBounds
import GraphR.Library.Settle
import GraphR.Store.Retry
import GraphR.Store.Reach
import GraphR.Store.Due
import GraphR.Store.Transpose
import GraphR.Store.Interval
import GraphR.Multi.Files
import GraphR.Library.Chunks
import GraphR.Multi.Arena
import GraphR.Multi.AppendOnly
import GraphR.Multi.Step
import GraphR.Multi.Log
import GraphR.Multi.Invariant
import GraphR.Multi.Frame
import GraphR.Multi.Moment
import GraphR.Multi.ImageStore
import GraphR.Multi.Disk
import GraphR.Multi.CatchUp
import GraphR.Multi.Sync
import GraphR.Multi.Loose
import GraphR.Multi.Locked
import GraphR.Multi.Effect
import GraphR.Multi.Safety
import GraphR.Multi.Durability
import GraphR.Multi.Calm
import GraphR.Multi.Serializability
import GraphR.Multi.Generations
import GraphR.Multi.SharedLock
import GraphR.Multi.Turnstile
import GraphR.Multi.Queued
import GraphR.Multi.Replace
import GraphR.Store.Walk
import GraphR.Format.Wal.Tail
import GraphR.Store.Tail
import GraphR.Library.Bfs
import GraphR.Library.Lookup
import GraphR.Store.Text
import GraphR.Store.Lexicon
import GraphR.Store.Vocabulary
import GraphR.Store.Query
import GraphR.Store.Scoring
import GraphR.Store.Ranking
import GraphR.Store.Answers
import GraphR.Store.SearchReads
import GraphR.Store.Findable
import GraphR.Store.Tiers
import GraphR.Store.SearchImage
import GraphR.Store.SizedImage
import GraphR.Store.QuerySafe
import GraphR.Library.Leb128
import GraphR.Format.Postings
import GraphR.Library.Tables
import GraphR.Library.Places
import GraphR.Store.Render
import GraphR.Store.Rendered
import GraphR.Store.RenderedRows
import GraphR.Store.RenderedLexicon
import GraphR.Store.RenderAccepted
import GraphR.Store.RenderedBase
import GraphR.Store.RenderedReader
import GraphR.Store.RenderedSearch
import GraphR.Store.RenderedFile
import GraphR.Store.Recompact
import GraphR.Store.Twice
import GraphR.Format.Wal.Frames
import GraphR.Store.OnDisk
import GraphR.Store.CrashSafe
import GraphR.Store.Survivors
import GraphR.Store.PageRank
