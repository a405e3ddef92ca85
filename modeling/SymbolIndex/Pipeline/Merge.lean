import SymbolIndex.Pipeline.State

/-! The merger: the only writer of the database. It applies the changes of a batch of jobs and then
does the bookkeeping for each of them.

The database refuses a removal that leaves something of its file behind. A build that checks its
assertions stops there, as `applyChange?` and what is made of it do; without the checks the file is
forgotten all the same. `applyChange` does neither: it drops the change. The worker sends no change that
is refused. -/

namespace SymbolIndex

namespace Pipeline

variable {σ : Type}

def applied (p : Pipeline σ) (result : Database × ApplyStats) : Pipeline σ :=
  { p with db := result.1, merged := p.merged.add result.2 }

/-- Apply a change, brought up to date first if the file was merged in between. A refused change is
dropped, where a build either stops or goes on with it. -/
def applyChange (p : Pipeline σ) (f : FileChange) : Pipeline σ :=
  match p.db.apply [p.db.rebase f.delta f.basedOn] with
  | .ok result => p.applied result
  | .error _ => p

/-- Apply a change; a refusal stops the merger. -/
def applyChange? (p : Pipeline σ) (f : FileChange) : Except LeftBehind (Pipeline σ) :=
  (p.db.apply [p.db.rebase f.delta f.basedOn]).map p.applied

/-- Take a file off the record. A refused removal is dropped, as a refused change is. -/
def removeFile (p : Pipeline σ) (path : Path) : Pipeline σ :=
  match p.db.removeFile path with
  | some (.ok result) => p.applied result
  | _ => p

def removeFile? (p : Pipeline σ) (path : Path) : Except LeftBehind (Pipeline σ) :=
  match p.db.removeFile path with
  | some result => result.map p.applied
  | none => .ok p

def applyMessage (p : Pipeline σ) : MergeMessage → Pipeline σ
  | .job outcome => outcome.files.foldl applyChange p
  | .remove path => p.removeFile path

def applyMessage? (p : Pipeline σ) : MergeMessage → Except LeftBehind (Pipeline σ)
  | .job outcome => outcome.files.foldlM applyChange? p
  | .remove path => p.removeFile? path

/-- Note the time of a merged file, or forget it for editor contents. -/
def noteTime (p : Pipeline σ) (f : FileChange) : Pipeline σ :=
  { p with timestamps := match f.modified with
      | some time => p.timestamps.insert f.path time
      | none => p.timestamps.erase f.path }

/-- Save a merged file, if it is to be saved. -/
def saveEntry (p : Pipeline σ) (f : FileChange) : Pipeline σ :=
  match f.cacheEntry with
  | none => p
  | some entry =>
    if p.settings.cacheWrite then
      match p.snapshots.save p.disk f.path entry with
      | (snapshots, disk, .ok ()) => { p with snapshots, disk }
      | (snapshots, disk, .error e) =>
        { p with snapshots, disk, counters := p.counters.recordError (.cacheWrite f.path e) }
    else p

def finishFile (p : Pipeline σ) (f : FileChange) : Pipeline σ := (p.noteTime f).saveEntry f

/-- Retire a job, or queue it again if it is to run once more. -/
def complete (p : Pipeline σ) (path : Path) : Pipeline σ :=
  match p.tracker.finish path with
  | (tracker, none) => { p with tracker }
  | (tracker, some interactive) =>
    { p with tracker, counters := p.counters.jobQueued }.send path interactive

def finishJob (p : Pipeline σ) (outcome : Outcome) : Pipeline σ :=
  let p := { p with counters := p.counters.addFilesApplied outcome.files.length }
  let p := outcome.files.foldl finishFile p
  let p := { p with ownership := outcome.claims.drop p.ownership }
  let counters := match outcome.error with
    | some e => p.counters.jobFailed e
    | none => p.counters.jobApplied outcome.fromCache
  { p with counters }.complete outcome.path

/-- A removed file is forgotten in the cache, too. -/
def finishRemoval (p : Pipeline σ) (path : Path) : Pipeline σ :=
  let (snapshots, disk, _) := p.snapshots.remove p.disk path
  { p with
    timestamps := p.timestamps.erase path
    snapshots, disk
    tracker := p.tracker.endRemoval }

def finishMessage (p : Pipeline σ) : MergeMessage → Pipeline σ
  | .job outcome => p.finishJob outcome
  | .remove path => p.finishRemoval path

/-- Apply all of a batch, then do the bookkeeping. -/
def mergeBatch (p : Pipeline σ) (batch : List MergeMessage) : Pipeline σ :=
  batch.foldl finishMessage (batch.foldl applyMessage p)

/-- A batch is only finished if none of its changes is refused. -/
def mergeBatch? (p : Pipeline σ) (batch : List MergeMessage) : Except LeftBehind (Pipeline σ) :=
  (batch.foldlM applyMessage? p).map (batch.foldl finishMessage)

/-- Merge what waits, at most a batch of it. -/
def merge (p : Pipeline σ) : Pipeline σ :=
  let size := p.settings.mergeBatchSize
  { p with outbox := p.outbox.drop size }.mergeBatch (p.outbox.take size)

end Pipeline

end SymbolIndex
