import SymbolIndex.Pipeline.Freshness
import SymbolIndex.Pipeline.State
import SymbolIndex.Remap

/-! The worker: it takes up a job, answers it from the cache or runs the engine, and computes what is
to be changed in the database. -/

namespace SymbolIndex

namespace Pipeline

variable {σ : Type}

/-- A change to a snapshot, computed against what the database holds for its file. -/
def change (p : Pipeline σ) (snapshot : Snapshot) (cacheEntry : Option CachedSnapshot)
    (modified : Option Timestamp) : FileChange :=
  let basedOn := p.db.snapshot? snapshot.path
  ⟨snapshot.path, .between basedOn snapshot, basedOn, cacheEntry, modified⟩

/-- A change to what the cache holds for a file. -/
def replayed (p : Pipeline σ) (e : CachedSnapshot) : FileChange :=
  p.change e.payload none (some e.modified)

/-- A job while a worker is busy with it: the pipeline, its claims and its changes so far. -/
structure Progress (σ : Type) where
  pipeline : Pipeline σ
  claims : Claims := {}
  files : List FileChange := []

namespace Progress

def start (p : Pipeline σ) : Progress σ := { pipeline := p }

def add (w : Progress σ) (f : FileChange) : Progress σ := { w with files := w.files ++ [f] }

/-- Claim a path for the job. -/
def claim (w : Progress σ) (path : Path) : Progress σ × Bool :=
  let (ownership, claims, held) := w.claims.claim w.pipeline.ownership path
  ({ w with pipeline := { w.pipeline with ownership }, claims }, held)

/-- Leave a file to the job that holds it. -/
def skip (w : Progress σ) : Progress σ :=
  { w with pipeline := { w.pipeline with counters := w.pipeline.counters.addFilesSkipped 1 } }

/-- Whether the database holds the version of a file with a given time. -/
def isCurrent (w : Progress σ) (path : Path) (modified : Timestamp) : Bool :=
  w.pipeline.timestamps.find? path = some modified

/-- Replay the cache entry of a file, if the database holds another version. -/
def replayMain (w : Progress σ) (e : CachedSnapshot) : Progress σ :=
  if w.isCurrent e.payload.path e.modified then w
  else match w.claim e.payload.path with
    | (w, true) => w.add (w.pipeline.replayed e)
    | (w, false) => w.skip

/-- Replay the entry of an include, if it matches the file on disk and the database holds another
version. -/
def replayInclude (w : Progress σ) (path : Path) : Progress σ :=
  match w.claim path with
  | (w, false) => w.skip
  | (w, true) =>
    let (snapshots, entry) := w.pipeline.snapshots.takeOrLoad w.pipeline.disk path
    let w := { w with pipeline := { w.pipeline with snapshots } }
    match entry with
    | none => w
    | some e =>
      if w.pipeline.disk.modified? path = some e.modified && !w.isCurrent path e.modified then
        w.add (w.pipeline.replayed e)
      else w

/-- Replay a file and each of its direct includes. -/
def replay (w : Progress σ) (e : CachedSnapshot) : Progress σ :=
  e.payload.dependencies.keys.foldl replayInclude (w.replayMain e)

end Progress

/-- Remap a record, with the project's arguments where it gives none. -/
def remapRecord (p : Pipeline σ) (args : List String) (r : Record) : Snapshot :=
  let snapshot := (r.remap (some p.disk.cwd) p.db.categoryOf?).1
  if snapshot.args = [] then { snapshot with args } else snapshot

/-- Claim the files of records; those that another job holds are skipped. -/
def Progress.claimRecords (w : Progress σ) (records : List Record) : Progress σ × List Record :=
  records.foldl (fun (state : Progress σ × List Record) r =>
    match state.1.claim (state.1.pipeline.normalize r.path) with
    | (w, true) => (w, state.2 ++ [r])
    | (w, false) => (w.skip, state.2)) (w, [])

/-- The change that a record makes. Editor contents never reach the cache or the known times. -/
def recordChange (p : Pipeline σ) (args : List String) (unsaved : Buffers) (r : Record) :
    FileChange :=
  let snapshot := p.remapRecord args r
  if unsaved.contains snapshot.path then p.change snapshot none none
  else p.change snapshot (some ⟨snapshot.modified, r.text, snapshot⟩) (some snapshot.modified)

/-- The outcome of a job whose engine delivered records. -/
def indexRecords (p : Pipeline σ) (path : Path) (args : List String) (records : List Record) :
    Pipeline σ × Outcome :=
  let (w, claimed) := (Progress.start p).claimRecords records
  let files := claimed.map (w.pipeline.recordChange args w.pipeline.unsaved)
  (w.pipeline, { path, files, claims := w.claims })

variable [Engine σ]

/-- Run the engine on a file. -/
def extract (p : Pipeline σ) (path : Path) (args : List String) : Pipeline σ × Outcome :=
  let (engine, extraction) := Engine.extract p.engine p.disk path args p.unsaved
  let p := { p with engine }.log (.extract path args p.unsaved)
  match extraction with
  | .records records => p.indexRecords path args records
  | .failed message => (p, { path, error := some (.engineFailed path message) })
  | .crashed message => (p, { path, error := some (.internal path message) })

/-- The cache entry of a file, if the cache is read at all. -/
def lookUp (p : Pipeline σ) (path : Path) : Pipeline σ × Option CachedSnapshot :=
  if p.settings.cacheRead then
    let (snapshots, entry) := p.snapshots.tryLoad p.disk path
    ({ p with snapshots }, entry)
  else (p, none)

/-- Carry a job out, up to the point where its changes can be merged. -/
def process (p : Pipeline σ) (path : Path) (interactive : Bool) : Pipeline σ × Outcome :=
  let args := p.project.argsFor path
  let (p, cached) := p.lookUp path
  match Freshness.check p.disk path args interactive cached (p.unsaved.contains path) with
  | .vanished => (p, { path, error := some (.vanished path) })
  | .fresh entry =>
    let w := (Progress.start p).replay entry
    (w.pipeline, { path, files := w.files, claims := w.claims, fromCache := true })
  | .changed => p.extract path args

/-- Hand an outcome over to the merger. -/
def submit (p : Pipeline σ) (outcome : Outcome) : Pipeline σ :=
  { p with
    tracker := p.tracker.setState outcome.path .mergeQueued
    counters := p.counters.jobMergeQueued
    outbox := p.outbox ++ [.job outcome] }

/-- Carry out the job in hand. -/
def work (p : Pipeline σ) : Pipeline σ :=
  match p.inHand with
  | none => p
  | some job =>
    let (p, outcome) := { p with inHand := none }.process job.path job.interactive
    p.submit outcome

omit [Engine σ] in
/-- Take the next entry out of the queues, an interactive one if there is any. -/
def receive? (p : Pipeline σ) : Option (Pipeline σ × Path) :=
  match p.interactive, p.background with
  | path :: interactive, _ => some ({ p with interactive }, path)
  | [], path :: background => some ({ p with background }, path)
  | [], [] => none

omit [Engine σ] in
/-- Start the job of a queue entry. An entry is stale when its job was started from the other queue;
it is discarded. -/
def begin (p : Pipeline σ) (path : Path) : Pipeline σ :=
  match p.tracker.start path with
  | none => p
  | some (tracker, interactive) =>
    { p with
      tracker
      counters := p.counters.jobStarted
      inHand := some ⟨path, interactive⟩ }.log (.job path)

omit [Engine σ] in
/-- Take up the next job, if the worker's hands are free. -/
def takeUpWithin : (fuel : Nat) → Pipeline σ → Pipeline σ
  | 0, p => p
  | fuel + 1, p =>
    if p.inHand.isSome then p
    else match p.receive? with
      | none => p
      | some (p, path) => takeUpWithin fuel (p.begin path)

omit [Engine σ] in
def takeUp (p : Pipeline σ) : Pipeline σ :=
  takeUpWithin (p.interactive.length + p.background.length) p

end Pipeline

end SymbolIndex
