import SymbolIndex.Proofs.Cache.Store
import SymbolIndex.Proofs.Ownership
import SymbolIndex.Proofs.Pipeline.Batching

/-! Two pipelines abreast. They know the same about files, but the second has one job that the first
has not. What is asked for or merged for other jobs changes both alike. -/

namespace SymbolIndex

/-- How far a job has come that is not merged yet. -/
inductive Stage
  | waiting
  | running
  | reported
  deriving DecidableEq

namespace Counters

/-- The counters without the gauges, and without what is counted when requests join a job or files
are left to others. -/
def totals (c : Counters) : Counters :=
  { c with queued := 0, parsing := 0, merging := 0, coalesced := 0, filesSkipped := 0 }

/-- The second counters know of one job more, which is at some stage. Gauges stop at zero, so it is
taken off the jobs that are to be merged, not added. -/
structure Ahead (stage : Stage) (a b : Counters) : Prop where
  queued : b.queued = a.queued + if stage = .waiting then 1 else 0
  parsing : b.parsing = a.parsing + if stage = .running then 1 else 0
  merging : b.merging - (if stage = .reported then 1 else 0) = a.merging
  totals : b.totals = a.totals

variable {stage : Stage} {a b : Counters}

theorem Ahead.jobQueued (h : Ahead stage a b) : Ahead stage a.jobQueued b.jobQueued := by
  refine ⟨?_, h.parsing, h.merging, h.totals⟩
  change b.queued + 1 = a.queued + 1 + _
  rw [h.queued, Nat.add_right_comm]

theorem Ahead.requestFiltered (h : Ahead stage a b) :
    Ahead stage a.requestFiltered b.requestFiltered :=
  ⟨h.queued, h.parsing, h.merging, congrArg (·.requestFiltered) h.totals⟩

theorem Ahead.requestCoalesced (h : Ahead stage a b) :
    Ahead stage a.requestCoalesced b.requestCoalesced :=
  ⟨h.queued, h.parsing, h.merging, h.totals⟩

theorem Ahead.addFilesApplied (h : Ahead stage a b) (count : Nat) :
    Ahead stage (a.addFilesApplied count) (b.addFilesApplied count) :=
  ⟨h.queued, h.parsing, h.merging, congrArg (·.addFilesApplied count) h.totals⟩

theorem Ahead.recordError (h : Ahead stage a b) (e : FileError) :
    Ahead stage (a.recordError e) (b.recordError e) :=
  ⟨h.queued, h.parsing, h.merging, congrArg (·.recordError e) h.totals⟩

theorem totals_jobApplied (c : Counters) (fromCache : Bool) :
    (c.jobApplied fromCache).totals = { c.totals with
      applied := c.totals.applied + 1
      fromCache := c.totals.fromCache + if fromCache then 1 else 0 } := rfl

theorem totals_jobFailed (c : Counters) (e : FileError) :
    (c.jobFailed e).totals = { c.totals with
      failed := c.totals.failed + 1
      errors := c.totals.errors ++ [e] } := rfl

theorem Ahead.jobApplied (h : Ahead stage a b) (fromCache : Bool) :
    Ahead stage (a.jobApplied fromCache) (b.jobApplied fromCache) := by
  refine ⟨h.queued, h.parsing, ?_, ?_⟩
  · change b.merging - 1 - _ = a.merging - 1
    rw [Nat.sub_right_comm, h.merging]
  · rw [totals_jobApplied, totals_jobApplied, h.totals]

theorem Ahead.jobFailed (h : Ahead stage a b) (e : FileError) :
    Ahead stage (a.jobFailed e) (b.jobFailed e) := by
  refine ⟨h.queued, h.parsing, ?_, ?_⟩
  · change b.merging - 1 - _ = a.merging - 1
    rw [Nat.sub_right_comm, h.merging]
  · rw [totals_jobFailed, totals_jobFailed, h.totals]

end Counters

namespace SnapshotCache

/-- What a save does beyond memory depends on the store and the disk alone. -/
theorem save_congr {c c' : SnapshotCache} {d d' : Disk} (h : c'.store = c.store) (hd : d' = d)
    (p : Path) (e : CachedSnapshot) :
    (c'.save d' p e).1.store = (c.save d p e).1.store ∧ (c'.save d' p e).2 = (c.save d p e).2 := by
  unfold save
  rw [h, hd]
  generalize c.store.save d p e = saved
  obtain ⟨d', _ | _⟩ := saved
  · exact ⟨h, rfl⟩
  · exact ⟨rfl, rfl⟩

end SnapshotCache

namespace Pipeline

variable {σ : Type}

/-- Two pipelines that know the same, except for what the cache has in memory. -/
structure Alike (a b : Pipeline σ) : Prop where
  db : b.db = a.db
  merged : b.merged = a.merged
  timestamps : b.timestamps = a.timestamps
  disk : b.disk = a.disk
  store : b.snapshots.store = a.snapshots.store
  unsaved : b.unsaved = a.unsaved
  settings : b.settings = a.settings
  filter : b.filter = a.filter
  ownership : ∀ file, b.ownership.contains file = a.ownership.contains file

theorem Alike.refl (p : Pipeline σ) : p.Alike p :=
  ⟨rfl, rfl, rfl, rfl, rfl, rfl, rfl, rfl, fun _ => rfl⟩

theorem Alike.normalize {a b : Pipeline σ} (h : a.Alike b) (file : Path) :
    b.normalize file = a.normalize file := by
  rw [Pipeline.normalize, Pipeline.normalize, h.disk]

/-- Such pipelines, of which the second has one job more, for a path. -/
structure Abreast (path : Path) (stage : Stage) (a b : Pipeline σ) : Prop extends a.Alike b where
  counters : a.counters.Ahead stage b.counters
  elsewhere : a.tracker.AgreesOff path b.tracker

variable {path : Path} {stage : Stage} {a b : Pipeline σ}

theorem Abreast.saveEntry (h : Abreast path stage a b) (f : FileChange) :
    Abreast path stage (a.saveEntry f) (b.saveEntry f) := by
  unfold Pipeline.saveEntry
  cases f.cacheEntry with
  | none => exact h
  | some entry =>
    have hwrite : b.settings.cacheWrite = a.settings.cacheWrite := by rw [h.settings]
    have hsave := SnapshotCache.save_congr h.store h.disk f.path entry
    dsimp only
    generalize a.snapshots.save a.disk f.path entry = one at hsave
    generalize b.snapshots.save b.disk f.path entry = other at hsave
    obtain ⟨snapshots, disk, result⟩ := one
    obtain ⟨snapshots', disk', result'⟩ := other
    obtain ⟨hstore, hrest⟩ := hsave
    cases hrest
    cases hw : a.settings.cacheWrite with
    | false => simpa only [hwrite, hw, Bool.false_eq_true, if_false] using h
    | true =>
      simp only [hwrite, hw, if_true]
      cases result with
      | ok _ => exact { h with store := hstore, disk := rfl }
      | error e =>
        exact { h with store := hstore, disk := rfl, counters := h.counters.recordError _ }

theorem Abreast.finishFile (h : Abreast path stage a b) (f : FileChange) :
    Abreast path stage (a.finishFile f) (b.finishFile f) := by
  have htimes : (b.noteTime f).timestamps = (a.noteTime f).timestamps := by
    rw [noteTime, noteTime, h.timestamps]
  have hnoted : Abreast path stage (a.noteTime f) (b.noteTime f) := { h with timestamps := htimes }
  exact hnoted.saveEntry f

theorem Abreast.foldl_finishFile (h : Abreast path stage a b) (files : List FileChange) :
    Abreast path stage (files.foldl Pipeline.finishFile a) (files.foldl Pipeline.finishFile b) := by
  induction files generalizing a b with
  | nil => exact h
  | cons f rest ih => exact ih (h.finishFile f)

theorem Abreast.complete (h : Abreast path stage a b) {file : Path}
    (hf : file.same path = false) : Abreast path stage (a.complete file) (b.complete file) := by
  obtain ⟨htracker, hrerun⟩ := h.elsewhere.finish hf
  rw [Pipeline.complete, Pipeline.complete]
  generalize a.tracker.finish file = one at htracker hrerun
  generalize b.tracker.finish file = other at htracker hrerun
  obtain ⟨tracker, rerun⟩ := one
  obtain ⟨tracker', rerun'⟩ := other
  dsimp only at htracker hrerun
  subst hrerun
  cases rerun' with
  | none => exact { h with elsewhere := htracker }
  | some interactive =>
    cases interactive <;>
      exact { h with counters := h.counters.jobQueued, elsewhere := htracker }

/-- The message is not about the job of a path. -/
def Spares (m : MergeMessage) (path : Path) : Prop :=
  ∀ file, outcomePath? m = some file → file.same path = false

theorem Abreast.finishMessage (h : Abreast path stage a b) {m : MergeMessage}
    (hm : Spares m path) : Abreast path stage (a.finishMessage m) (b.finishMessage m) := by
  cases m with
  | job outcome =>
    have hcounted : Abreast path stage
        { a with counters := a.counters.addFilesApplied outcome.files.length }
        { b with counters := b.counters.addFilesApplied outcome.files.length } :=
      { h with counters := h.counters.addFilesApplied _ }
    have hfiles := hcounted.foldl_finishFile outcome.files
    rw [Pipeline.finishMessage, Pipeline.finishMessage, finishJob, finishJob]
    dsimp only
    generalize outcome.files.foldl Pipeline.finishFile _ = a' at hfiles ⊢
    generalize outcome.files.foldl Pipeline.finishFile _ = b' at hfiles ⊢
    have hdropped : ∀ file, (outcome.claims.drop b'.ownership).contains file =
        (outcome.claims.drop a'.ownership).contains file := by
      intro file
      rw [Claims.contains_drop, Claims.contains_drop, hfiles.ownership]
    refine Abreast.complete ?_ (hm outcome.path rfl)
    cases outcome.error with
    | some e =>
      exact { hfiles with ownership := hdropped, counters := hfiles.counters.jobFailed e }
    | none =>
      exact { hfiles with
        ownership := hdropped, counters := hfiles.counters.jobApplied outcome.fromCache }
  | remove file =>
    have htimes : b.timestamps.erase file = a.timestamps.erase file := by rw [h.timestamps]
    have hdisk : (b.snapshots.store.remove b.disk file).1 =
        (a.snapshots.store.remove a.disk file).1 := by rw [h.store, h.disk]
    have hremovals : b.tracker.removals - 1 = a.tracker.removals - 1 := by
      rw [h.elsewhere.removals]
    rw [Pipeline.finishMessage, Pipeline.finishMessage]
    unfold finishRemoval SnapshotCache.remove
    generalize a.snapshots.store.remove a.disk file = one at hdisk
    generalize b.snapshots.store.remove b.disk file = other at hdisk
    obtain ⟨disk, _⟩ := one
    obtain ⟨disk', _⟩ := other
    exact { h with
      timestamps := htimes
      disk := hdisk
      store := h.store
      elsewhere := ⟨h.elsewhere.jobs, hremovals⟩ }

theorem Abreast.foldl_finishMessage (h : Abreast path stage a b) {batch : List MergeMessage}
    (hb : ∀ m ∈ batch, Spares m path) :
    Abreast path stage (batch.foldl Pipeline.finishMessage a)
      (batch.foldl Pipeline.finishMessage b) := by
  induction batch generalizing a b with
  | nil => exact h
  | cons m rest ih =>
    obtain ⟨hm, hrest⟩ := List.forall_mem_cons.mp hb
    exact ih (h.finishMessage hm) hrest

theorem Abreast.mergeBatch (h : Abreast path stage a b) {batch : List MergeMessage}
    (hb : ∀ m ∈ batch, Spares m path) :
    Abreast path stage (a.mergeBatch batch) (b.mergeBatch batch) := by
  have hfinish := h.foldl_finishMessage hb
  have hdb : a.onto b b.outbox = b := by rw [onto, ← h.db, ← h.merged]
  have happly : batch.foldl applyMessage b = (batch.foldl applyMessage a).onto b b.outbox := by
    rw [← foldl_applyMessage_onto, hdb]
  rw [mergeBatch_eq_onto, mergeBatch_eq_onto b, happly]
  exact { hfinish with db := rfl, merged := rfl }

/-- A request for another path is answered alike. -/
theorem Abreast.enqueue (h : Abreast path stage a b) {file : Path}
    (hf : (a.normalize file).same path = false) (interactive : Bool) :
    Abreast path stage (a.enqueue file interactive).1 (b.enqueue file interactive).1 := by
  obtain ⟨htracker, hadmission⟩ := h.elsewhere.accept hf interactive
  have hrejection : b.filter.rejection? (a.normalize file) =
      a.filter.rejection? (a.normalize file) := by rw [h.filter]
  rw [Pipeline.enqueue, Pipeline.enqueue, h.normalize]
  dsimp only
  rw [hrejection]
  generalize a.normalize file = q at htracker hadmission ⊢
  split
  next => exact { h with counters := h.counters.requestFiltered }
  next =>
    generalize a.tracker.accept q interactive = one at htracker hadmission
    generalize b.tracker.accept q interactive = other at htracker hadmission
    obtain ⟨tracker, admission⟩ := one
    obtain ⟨tracker', admission'⟩ := other
    dsimp only at htracker hadmission
    subst hadmission
    cases admission' with
    | accepted =>
      cases interactive <;>
        exact { h with counters := h.counters.jobQueued, elsewhere := htracker }
    | coalesced upgraded =>
      cases upgraded <;>
        exact { h with counters := h.counters.requestCoalesced, elsewhere := htracker }

end Pipeline

end SymbolIndex
