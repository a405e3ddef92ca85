import SymbolIndex.Error

/-! Counters of a pipeline. Gauges go up and down as jobs move on, and never below zero; totals only
grow. -/

namespace SymbolIndex

structure Counters where
  /-- Jobs that wait in a queue. -/
  queued : Nat := 0
  /-- Jobs that a worker is busy with. -/
  parsing : Nat := 0
  /-- Jobs whose changes wait to be merged. -/
  merging : Nat := 0
  applied : Nat := 0
  failed : Nat := 0
  /-- Jobs that were answered without the engine. -/
  fromCache : Nat := 0
  /-- Requests that joined a job. -/
  coalesced : Nat := 0
  /-- Requests that the path filter rejected. -/
  filtered : Nat := 0
  filesApplied : Nat := 0
  /-- Files that were left to the job that holds them. -/
  filesSkipped : Nat := 0
  /-- The oldest first. -/
  errors : List FileError := []
  deriving DecidableEq, Inhabited

namespace Counters

def jobQueued (c : Counters) : Counters := { c with queued := c.queued + 1 }

def jobStarted (c : Counters) : Counters :=
  { c with queued := c.queued - 1, parsing := c.parsing + 1 }

def jobMergeQueued (c : Counters) : Counters :=
  { c with parsing := c.parsing - 1, merging := c.merging + 1 }

def recordError (c : Counters) (e : FileError) : Counters := { c with errors := c.errors ++ [e] }

def jobApplied (c : Counters) (fromCache : Bool) : Counters :=
  { c with
    merging := c.merging - 1
    applied := c.applied + 1
    fromCache := c.fromCache + if fromCache then 1 else 0 }

def jobFailed (c : Counters) (e : FileError) : Counters :=
  { c with merging := c.merging - 1, failed := c.failed + 1 }.recordError e

def requestCoalesced (c : Counters) : Counters := { c with coalesced := c.coalesced + 1 }

def requestFiltered (c : Counters) : Counters := { c with filtered := c.filtered + 1 }

def addFilesApplied (c : Counters) (count : Nat) : Counters :=
  { c with filesApplied := c.filesApplied + count }

def addFilesSkipped (c : Counters) (count : Nat) : Counters :=
  { c with filesSkipped := c.filesSkipped + count }

end Counters

end SymbolIndex
