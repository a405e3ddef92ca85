import SymbolIndex.Binary
import SymbolIndex.Cache.Envelope
import SymbolIndex.Cache.Format
import SymbolIndex.Cache.Payload
import SymbolIndex.Cache.SlotName
import SymbolIndex.Cache.Snapshots
import SymbolIndex.Cache.Store
import SymbolIndex.CommandLine
import SymbolIndex.CommandLine.Invocation
import SymbolIndex.CommandLine.Report
import SymbolIndex.CommandLine.Words
import SymbolIndex.CompileCommands
import SymbolIndex.Config
import SymbolIndex.Database
import SymbolIndex.Database.Apply
import SymbolIndex.Database.Query
import SymbolIndex.Delta
import SymbolIndex.Disk
import SymbolIndex.Engine
import SymbolIndex.Engine.Dump
import SymbolIndex.Engine.Fixture
import SymbolIndex.Error
import SymbolIndex.Glob
import SymbolIndex.Glob.Pattern
import SymbolIndex.Hash.XXH3
import SymbolIndex.IncludeGraph
import SymbolIndex.Json
import SymbolIndex.Json.Document
import SymbolIndex.Json.Shape
import SymbolIndex.Lru
import SymbolIndex.Main
import SymbolIndex.Ordered.Map
import SymbolIndex.Ordered.Set
import SymbolIndex.Ownership
import SymbolIndex.Path
import SymbolIndex.Path.Lexical
import SymbolIndex.PathFilter
import SymbolIndex.Pipeline
import SymbolIndex.Pipeline.Counters
import SymbolIndex.Pipeline.Freshness
import SymbolIndex.Pipeline.Merge
import SymbolIndex.Pipeline.State
import SymbolIndex.Pipeline.Tracker
import SymbolIndex.Pipeline.Work
import SymbolIndex.Project
import SymbolIndex.Record
import SymbolIndex.Record.Json
import SymbolIndex.Remap
import SymbolIndex.Sessions
import SymbolIndex.Snapshot
import SymbolIndex.Snapshot.Binary
import SymbolIndex.Snapshot.Json
import SymbolIndex.Symbol.Binary
import SymbolIndex.Symbol.Id
import SymbolIndex.Symbol.Info
import SymbolIndex.Symbol.Json
import SymbolIndex.Symbol.Kind
import SymbolIndex.Symbol.Location
import SymbolIndex.Symbol.PerCategory
import SymbolIndex.Text.Blank
import SymbolIndex.Text.Bytes
import SymbolIndex.Text.CaseTable
import SymbolIndex.Text.Digits
import SymbolIndex.Text.Lowercase
import SymbolIndex.Text.ShellWords
import SymbolIndex.Timestamps
import SymbolIndex.Workspace
import SymbolIndex.Yaml.Cursor
import SymbolIndex.Yaml.Node
import SymbolIndex.Yaml.Plain
import SymbolIndex.Yaml.Scalar
import SymbolIndex.Yaml.Shape
import SymbolIndex.Yaml.Spelling
import SymbolIndex.Yaml.Token
import SymbolIndex.Proofs.Delta
import SymbolIndex.Proofs.Database.Contributions
import SymbolIndex.Proofs.Database.Sound
import SymbolIndex.Proofs.Database.Answers
import SymbolIndex.Proofs.Cache.Store
import SymbolIndex.Proofs.IncludeGraph
import SymbolIndex.Proofs.Path
import SymbolIndex.Proofs.Pipeline.Changed
import SymbolIndex.Proofs.Binary
import SymbolIndex.Proofs.Cache.Envelope
import SymbolIndex.Proofs.Cache.SlotName
import SymbolIndex.Proofs.Cache.Slots
import SymbolIndex.Proofs.Cache.Snapshots
import SymbolIndex.Proofs.Ownership
import SymbolIndex.Proofs.Pipeline.Merged
import SymbolIndex.Proofs.Database.Edits
import SymbolIndex.Proofs.Database.Reachable
import SymbolIndex.Proofs.Database.Repetition
import SymbolIndex.Proofs.Database.Batches
import SymbolIndex.Proofs.Database.Handover
import SymbolIndex.Proofs.Pipeline.Restart
import SymbolIndex.Proofs.Cache.RoundTrip
import SymbolIndex.Proofs.Cache.Interleaving
import SymbolIndex.Proofs.Pipeline.Traffic
import SymbolIndex.Proofs.Pipeline.Traced
import SymbolIndex.Proofs.Pipeline.Uncached
import SymbolIndex.Proofs.Cache.Attested
import SymbolIndex.Proofs.Cache.Transparent
import SymbolIndex.Proofs.Lru
import SymbolIndex.Proofs.Lru.Recency
import SymbolIndex.Proofs.Pipeline.Moves
import SymbolIndex.Proofs.Pipeline.Outcomes
import SymbolIndex.Proofs.Pipeline.Provenance
import SymbolIndex.Proofs.Pipeline.Replayed
import SymbolIndex.Proofs.Pipeline.Promises
import SymbolIndex.Proofs.Pipeline.Returned
import SymbolIndex.Proofs.Pipeline.Batching
import SymbolIndex.Proofs.Remap.Categories
import SymbolIndex.Proofs.Pipeline.Gauges
import SymbolIndex.Proofs.Pipeline.Abreast
import SymbolIndex.Proofs.Pipeline.Failing
import SymbolIndex.Proofs.Pipeline.Reported
import SymbolIndex.Proofs.Remap.Fields
import SymbolIndex.Proofs.Remap.Unsigned
import SymbolIndex.Proofs.Database.Listing
import SymbolIndex.Proofs.Database.Locality
import SymbolIndex.Proofs.Database.Includes
import SymbolIndex.Proofs.IncludeGraph.Nodes
import SymbolIndex.Proofs.Binary.Prefix
import SymbolIndex.Proofs.Cache.Truncation
import SymbolIndex.Proofs.Cache.Header
import SymbolIndex.Proofs.Cache.Separation
import SymbolIndex.Proofs.Json.Prefix
import SymbolIndex.Proofs.Ownership.Exclusive
import SymbolIndex.Proofs.Engine.Dump
import SymbolIndex.Proofs.Path.Encoded
import SymbolIndex.Proofs.Path.Normal
import SymbolIndex.Proofs.CompileCommands
