import SymbolIndex.Cache.Snapshots
import SymbolIndex.Config
import SymbolIndex.Database.Apply
import SymbolIndex.Engine
import SymbolIndex.Ownership
import SymbolIndex.Pipeline.Counters
import SymbolIndex.Pipeline.Tracker
import SymbolIndex.Project
import SymbolIndex.Timestamps

/-! The state of an indexing pipeline: a worker turns requests into changes of single files, and a
merger applies them to the database. -/

namespace SymbolIndex

/-- One file's part in the outcome of a job. -/
structure FileChange where
  path : Path
  delta : FileDelta
  /-- The snapshot that the delta was computed against. -/
  basedOn : Option Snapshot
  /-- What to save once the delta is applied; nothing for what came from the cache. -/
  cacheEntry : Option CachedSnapshot
  /-- The time on disk of what was indexed; none for editor contents. -/
  modified : Option Timestamp
  deriving DecidableEq

/-- A finished job on its way to the merger, with the claims that it holds until then. -/
structure Outcome where
  path : Path
  files : List FileChange := []
  error : Option FileError := none
  fromCache : Bool := false
  claims : Claims := {}
  deriving DecidableEq

inductive MergeMessage
  | job (outcome : Outcome)
  /-- Take back all that a file contributes. -/
  | remove (path : Path)
  deriving DecidableEq

/-- What an observer sees of the worker. -/
inductive PipelineEvent
  | job (path : Path)
  | extract (path : Path) (args : List String) (unsaved : Buffers)
  deriving DecidableEq

structure PipelineSettings where
  cacheRead : Bool := true
  cacheWrite : Bool := true
  mergeBatchSize : Nat := 32
  deriving DecidableEq, Inhabited

/-- The job that the worker has taken up. -/
structure JobInHand where
  path : Path
  interactive : Bool
  deriving DecidableEq, Inhabited

structure Pipeline (σ : Type) where
  disk : Disk
  engine : σ
  project : Project
  filter : PathFilter
  settings : PipelineSettings
  snapshots : SnapshotCache
  timestamps : Timestamps := ∅
  ownership : Ownership := ∅
  unsaved : Buffers := ∅
  db : Database := {}
  counters : Counters := {}
  tracker : Tracker := {}
  /-- Requests that are taken before all others. -/
  interactive : List Path := []
  background : List Path := []
  inHand : Option JobInHand := none
  /-- What waits for the merger, the oldest first. -/
  outbox : List MergeMessage := []
  /-- What all merges together have done to the database. -/
  merged : ApplyStats := {}
  /-- The latest event first. -/
  journal : List PipelineEvent := []

namespace Pipeline

variable {σ : Type}

/-- An idle pipeline with an empty database, for the project below `root`. -/
def new (disk : Disk) (engine : σ) (config : Config) (root : Path) (project : Project) :
    Except Error (Pipeline σ) := do
  config.validate
  let filter ← config.pathFilter
  let store : CacheStore := ⟨config.cacheDirFor root, config.cacheFormat, snapshotSchema⟩
  let snapshots ← (SnapshotCache.new? store config.snapshotCacheCapacity).mapError fun e =>
    .internal e.message
  return {
    disk, engine, project, filter, snapshots
    settings := ⟨config.cacheRead, config.cacheWrite, config.mergeBatchSize⟩ }

def log (p : Pipeline σ) (e : PipelineEvent) : Pipeline σ := { p with journal := e :: p.journal }

/-- The canonical spelling of a path. -/
def normalize (p : Pipeline σ) (path : Path) : Path := path.normalize (some p.disk.cwd)

/-- Put a path into the queue of its priority. -/
def send (p : Pipeline σ) (path : Path) (interactive : Bool) : Pipeline σ :=
  if interactive then { p with interactive := p.interactive ++ [path] }
  else { p with background := p.background ++ [path] }

/-- No request and no removal is waiting or under way. -/
def isIdle (p : Pipeline σ) : Bool := p.tracker.isIdle

end Pipeline

end SymbolIndex
