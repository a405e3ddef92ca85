import SymbolIndex.Path
import SymbolIndex.Ordered.Map

/-! The jobs that are queued or running, at most one for a path. A request for a queued path joins the
queued job; a request for a running path makes the job run once more when it is done. Each function
here is one critical section. -/

namespace SymbolIndex

inductive JobState
  | queued
  | parsing
  | remapping
  | diffing
  | mergeQueued
  | applied
  | failed
  deriving DecidableEq, Inhabited

namespace JobState

def all : List JobState :=
  [.queued, .parsing, .remapping, .diffing, .mergeQueued, .applied, .failed]

def name : JobState → String
  | .queued => "queued"
  | .parsing => "parsing"
  | .remapping => "remapping"
  | .diffing => "diffing"
  | .mergeQueued => "merge-queued"
  | .applied => "applied"
  | .failed => "failed"

def isTerminal (s : JobState) : Bool := s = .applied || s = .failed

/-- A worker has taken the job up and its changes are not merged yet. -/
def isRunning (s : JobState) : Bool := s != .queued && !s.isTerminal

end JobState

structure Job where
  state : JobState := .queued
  /-- Extract the file even if it has not changed. -/
  interactive : Bool
  /-- A request arrived while the job was running. -/
  rerun : Bool := false
  /-- One of these requests was interactive. -/
  rerunInteractive : Bool := false
  deriving DecidableEq, Inhabited

/-- What becomes of a request. -/
inductive Admission
  | accepted
  /-- It joined a job; `upgraded` if it made a queued job interactive. -/
  | coalesced (upgraded : Bool)
  deriving DecidableEq, Inhabited

structure Tracker where
  jobs : OrderedMap Path Job := ∅
  /-- Removals that were asked for and not carried out yet. -/
  removals : Nat := 0
  deriving DecidableEq, Inhabited

namespace Tracker

def isIdle (t : Tracker) : Bool := t.jobs.isEmpty && t.removals = 0

def put (t : Tracker) (p : Path) (job : Job) : Tracker := { t with jobs := t.jobs.insert p job }

/-- Take in a request. -/
def accept (t : Tracker) (p : Path) (interactive : Bool) : Tracker × Admission :=
  match t.jobs.find? p with
  | none => (t.put p { interactive }, .accepted)
  | some job =>
    if job.state = .queued then
      (t.put p { job with interactive := job.interactive || interactive },
        .coalesced (interactive && !job.interactive))
    else
      (t.put p { job with rerun := true, rerunInteractive := job.rerunInteractive || interactive },
        .coalesced false)

/-- Start the queued job of a path and give its priority; none if no job of the path is queued. -/
def start (t : Tracker) (p : Path) : Option (Tracker × Bool) :=
  match t.jobs.find? p with
  | some job =>
    if job.state = .queued then some (t.put p { job with state := .parsing }, job.interactive)
    else none
  | none => none

def setState (t : Tracker) (p : Path) (state : JobState) : Tracker :=
  match t.jobs.find? p with
  | some job => t.put p { job with state }
  | none => t

/-- Retire a job. If requests arrived while it ran, it is queued again with the priority that is
given back. -/
def finish (t : Tracker) (p : Path) : Tracker × Option Bool :=
  match t.jobs.find? p with
  | some job =>
    if job.rerun then (t.put p { interactive := job.rerunInteractive }, some job.rerunInteractive)
    else ({ t with jobs := t.jobs.erase p }, none)
  | none => (t, none)

def beginRemoval (t : Tracker) : Tracker := { t with removals := t.removals + 1 }

def endRemoval (t : Tracker) : Tracker := { t with removals := t.removals - 1 }

end Tracker

end SymbolIndex
