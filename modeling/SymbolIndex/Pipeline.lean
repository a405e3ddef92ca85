import SymbolIndex.Database.Query
import SymbolIndex.Pipeline.Merge
import SymbolIndex.Pipeline.Work

/-! Requests to a pipeline, and running it until it is idle. -/

namespace SymbolIndex

/-- The answer to a request. -/
inductive Enqueued
  | accepted
  | coalesced
  | filtered
  deriving DecidableEq, Inhabited

namespace Pipeline

variable {σ : Type}

/-- Ask for a file to be indexed. -/
def enqueue (p : Pipeline σ) (path : Path) (interactive : Bool) : Pipeline σ × Enqueued :=
  let path := p.normalize path
  if (p.filter.rejection? path).isSome then
    ({ p with counters := p.counters.requestFiltered }, .filtered)
  else match p.tracker.accept path interactive with
    | (tracker, .accepted) =>
      ({ p with tracker, counters := p.counters.jobQueued }.send path interactive, .accepted)
    | (tracker, .coalesced upgraded) =>
      let p := { p with tracker, counters := p.counters.requestCoalesced }
      (if upgraded then p.send path true else p, .coalesced)

/-- Ask for several files, and count the answers that satisfy a test. -/
def enqueueAll (p : Pipeline σ) (paths : List Path) (interactive : Bool) (counts : Enqueued → Bool) :
    Pipeline σ × Nat :=
  paths.foldl (fun (state : Pipeline σ × Nat) path =>
    let (p, answer) := state.1.enqueue path interactive
    (p, state.2 + if counts answer then 1 else 0)) (p, 0)

/-- Ask for every project file; how many new jobs that makes. -/
def indexProject (p : Pipeline σ) : Pipeline σ × Nat :=
  p.enqueueAll p.project.files false (· = .accepted)

/-- A file changed on disk: ask for it and for all that include it, directly or through others, as far
as they belong to the project; how many were not filtered. -/
def notifyChanged (p : Pipeline σ) (path : Path) : Pipeline σ × Nat :=
  let path := p.normalize path
  let p := { p with timestamps := p.timestamps.erase path }
  let targets := (path :: p.db.dependents path).filter p.project.contains
  p.enqueueAll targets false (· ≠ .filtered)

/-- Hold editor contents of a file that differ from the disk. -/
def setUnsaved (p : Pipeline σ) (path : Path) (text : String) : Pipeline σ :=
  { p with unsaved := p.unsaved.insert (p.normalize path) text }

def clearUnsaved (p : Pipeline σ) (path : Path) : Pipeline σ :=
  { p with unsaved := p.unsaved.erase (p.normalize path) }

/-- A file left the project: take back what it contributes. -/
def notifyRemoved (p : Pipeline σ) (path : Path) : Pipeline σ :=
  let path := p.normalize path
  { p with
    tracker := p.tracker.beginRemoval
    unsaved := p.unsaved.erase path
    outbox := p.outbox ++ [.remove path] }

def jobState? (p : Pipeline σ) (path : Path) : Option JobState :=
  (p.tracker.jobs.find? (p.normalize path)).map (·.state)

/-- The events since the journal was read last, the oldest first. -/
def readJournal (p : Pipeline σ) : Pipeline σ × List PipelineEvent :=
  ({ p with journal := [] }, p.journal.reverse)

/-- Merge all that waits. -/
def mergeAll : (fuel : Nat) → Pipeline σ → Pipeline σ
  | 0, p => p
  | fuel + 1, p => if p.outbox.isEmpty then p else mergeAll fuel p.merge

def flush (p : Pipeline σ) : Pipeline σ := mergeAll p.outbox.length p

variable [Engine σ]

/-- Carry out the job in hand and merge it before the next one is taken up. -/
def step (p : Pipeline σ) : Pipeline σ := p.work.flush.takeUp

def run : (fuel : Nat) → Pipeline σ → Pipeline σ
  | 0, p => p
  | fuel + 1, p => if p.inHand.isNone then p else run fuel p.step

/-- Run until nothing is left to do. A job runs once for its queue entry and once more if requests
arrived meanwhile. -/
def settle (p : Pipeline σ) : Pipeline σ :=
  run (p.interactive.length + p.background.length + 2 * p.tracker.jobs.size) p.flush.takeUp

end Pipeline

end SymbolIndex
