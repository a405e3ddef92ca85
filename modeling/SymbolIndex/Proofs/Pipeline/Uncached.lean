import SymbolIndex.Proofs.Pipeline.Batching
import SymbolIndex.Proofs.Pipeline.Changed
import SymbolIndex.Proofs.Pipeline.Merged

/-! Indexing without reading the cache. A job diffs all its records against one state of the database
and has them applied later, in a batch; what is on record afterwards is nevertheless what a ledger
holds that is written record by record. -/

namespace SymbolIndex

/-- What is asked of a pipeline that has nothing left to do. Meanwhile the disk may change. -/
inductive Call
  | enqueue (path : Path) (interactive : Bool)
  | notifyRemoved (path : Path)
  | setUnsaved (path : Path) (text : String)
  | clearUnsaved (path : Path)
  | changeDisk (disk : Disk)

/-- The snapshot that is held for every file, and what indexing a file depends on. -/
@[ext] structure Ledger (σ : Type) where
  project : Project
  filter : PathFilter
  store : CacheStore
  cacheWrite : Bool
  engine : σ
  disk : Disk
  unsaved : Buffers
  held : Path → Option Snapshot

namespace Ledger

variable {σ : Type}

/-- A record takes the place of what is held for its file, and is saved unless an editor holds the
file. -/
def write (args : List String) (m : Ledger σ) (r : Record) : Ledger σ :=
  let path := r.path.normalize (some m.disk.cwd)
  let e := r.entry m.disk.cwd args
  { m with
    held := assign m.held path e.payload
    disk := if m.cacheWrite && !m.unsaved.contains path then (m.store.save m.disk path e).1
      else m.disk }

def extract [Engine σ] (m : Ledger σ) (path : Path) : Ledger σ :=
  let args := m.project.argsFor path
  match Engine.extract m.engine m.disk path args m.unsaved with
  | (engine, .records records) => records.foldl (write args) { m with engine }
  | (engine, _) => { m with engine }

/-- Index a file, unless it is gone and no editor holds it. -/
def job [Engine σ] (m : Ledger σ) (path : Path) : Ledger σ :=
  if m.unsaved.contains path || (m.disk.modified? path).isSome then m.extract path else m

def perform [Engine σ] (m : Ledger σ) : Call → Ledger σ
  | .enqueue path _ =>
    let path := path.normalize (some m.disk.cwd)
    if m.filter.allows path then m.job path else m
  | .notifyRemoved path =>
    let path := path.normalize (some m.disk.cwd)
    { m with
      unsaved := m.unsaved.erase path
      held := fun q => if q.same path then none else m.held q
      disk := (m.store.remove m.disk path).1 }
  | .setUnsaved path text =>
    { m with unsaved := m.unsaved.insert (path.normalize (some m.disk.cwd)) text }
  | .clearUnsaved path => { m with unsaved := m.unsaved.erase (path.normalize (some m.disk.cwd)) }
  | .changeDisk disk => { m with disk }

theorem cwd_write (args : List String) (m : Ledger σ) (r : Record) :
    (m.write args r).disk.cwd = m.disk.cwd := by
  rw [write]
  dsimp only
  split
  next => exact m.store.cwd_save _ _ _
  next => rfl

theorem foldl_write (args : List String) (m : Ledger σ) (records : List Record) :
    ∃ disk, records.foldl (write args) m = { m with
      disk := disk
      held := records.foldl (fun held r =>
        assign held (r.entry m.disk.cwd args).payload.path (r.entry m.disk.cwd args).payload)
          m.held } := by
  induction records generalizing m with
  | nil => exact ⟨_, rfl⟩
  | cons r rest ih =>
    obtain ⟨disk, hrest⟩ := ih (m.write args r)
    rw [cwd_write] at hrest
    rw [List.foldl_cons, List.foldl_cons, hrest, (r.entry_frame m.disk.cwd args).1]
    exact ⟨disk, rfl⟩

end Ledger

namespace Pipeline

variable {σ : Type}

def ledger (p : Pipeline σ) : Ledger σ where
  project := p.project
  filter := p.filter
  store := p.snapshots.store
  cacheWrite := p.settings.cacheWrite
  engine := p.engine
  disk := p.disk
  unsaved := p.unsaved
  held := p.db.snapshot?

/-- The cache is not read, and no file is claimed. -/
structure Uncached (p : Pipeline σ) : Prop where
  batch : 0 < p.settings.mergeBatchSize
  cacheRead : p.settings.cacheRead = false
  consistent : p.db.Consistent
  unclaimed : ∀ q, p.ownership.contains q = false

structure AtRest (p : Pipeline σ) : Prop extends p.Uncached where
  hand : p.inHand = none
  outbox : p.outbox = []
  interactive : p.interactive = []
  background : p.background = []
  removals : p.tracker.removals = 0
  jobs : ∀ q, p.tracker.jobs.find? q = none

/-- One job is in hand, and no other is asked for or under way. -/
structure Occupied (p : Pipeline σ) (job : JobInHand) : Prop extends p.Uncached where
  hand : p.inHand = some job
  outbox : p.outbox = []
  interactive : p.interactive = []
  background : p.background = []
  removals : p.tracker.removals = 0
  running : ∃ held, p.tracker.jobs.find? job.path = some held ∧ held.rerun = false
  alone : ∀ q, q.same job.path = false → p.tracker.jobs.find? q = none

theorem recordChange_eq (p : Pipeline σ) (args : List String) (unsaved : Buffers) (r : Record) :
    ∃ entry t, p.recordChange args unsaved r =
      p.change (r.entry p.disk.cwd args).payload entry t := by
  rw [recordChange, remapRecord_eq]
  split <;> exact ⟨_, _, rfl⟩

theorem recordChange_saved (p : Pipeline σ) (args : List String) (unsaved : Buffers) (r : Record) :
    (p.recordChange args unsaved r).path = r.path.normalize (some p.disk.cwd) ∧
      (p.recordChange args unsaved r).cacheEntry =
        if unsaved.contains (r.path.normalize (some p.disk.cwd)) then none
        else some (r.entry p.disk.cwd args) := by
  rw [recordChange, remapRecord_eq, ← (r.entry_frame p.disk.cwd args).1]
  split <;> exact ⟨rfl, rfl⟩

theorem saveEntry_frame (p : Pipeline σ) (f : FileChange) :
    (p.saveEntry f).snapshots.store = p.snapshots.store ∧
      (p.saveEntry f).settings = p.settings ∧
      (p.saveEntry f).disk = if p.settings.cacheWrite then
          f.cacheEntry.elim p.disk fun e => (p.snapshots.store.save p.disk f.path e).1
        else p.disk := by
  unfold saveEntry
  cases f.cacheEntry with
  | none => exact ⟨rfl, rfl, (ite_self _).symm⟩
  | some e =>
    obtain ⟨hstore, hdisk⟩ := p.snapshots.save_frame p.disk f.path e
    dsimp only [Option.elim_some]
    rw [← hdisk]
    generalize p.snapshots.save p.disk f.path e = saved at hstore
    obtain ⟨snapshots, disk, result⟩ := saved
    split
    next => cases result <;> exact ⟨hstore, rfl, rfl⟩
    next => exact ⟨rfl, rfl, rfl⟩

theorem finishFile_saves (p : Pipeline σ) (f : FileChange) :
    (p.finishFile f).snapshots.store = p.snapshots.store ∧
      (p.finishFile f).settings = p.settings ∧
      (p.finishFile f).disk = if p.settings.cacheWrite then
          f.cacheEntry.elim p.disk fun e => (p.snapshots.store.save p.disk f.path e).1
        else p.disk :=
  (p.noteTime f).saveEntry_frame f

theorem foldl_finishFile_disk (p₀ : Pipeline σ) (args : List String) {p : Pipeline σ}
    {m : Ledger σ} {unsaved : Buffers} (hstore : p.snapshots.store = m.store)
    (hwrite : p.settings.cacheWrite = m.cacheWrite) (hdisk : p.disk = m.disk)
    (hunsaved : m.unsaved = unsaved) (hcwd : p₀.disk.cwd = m.disk.cwd) (records : List Record) :
    ((records.map (p₀.recordChange args unsaved)).foldl finishFile p).snapshots.store = m.store ∧
      ((records.map (p₀.recordChange args unsaved)).foldl finishFile p).disk =
        (records.foldl (Ledger.write args) m).disk := by
  induction records generalizing p m with
  | nil => exact ⟨hstore, hdisk⟩
  | cons r rest ih =>
    obtain ⟨hpath, hentry⟩ := p₀.recordChange_saved args unsaved r
    obtain ⟨hs, hsettings, hd⟩ := p.finishFile_saves (p₀.recordChange args unsaved r)
    -- What an editor holds has no entry to save, and the ledger does not save it either.
    have hwritten : (p.finishFile (p₀.recordChange args unsaved r)).disk =
        (m.write args r).disk := by
      rw [hd, hpath, hentry, hwrite, hdisk, hstore, hcwd, Ledger.write, hunsaved]
      cases m.cacheWrite <;> cases unsaved.contains (r.path.normalize (some m.disk.cwd)) <;> simp
    exact ih (m := m.write args r) (hs.trans hstore) (hsettings ▸ hwrite) hwritten hunsaved
      (hcwd.trans (m.cwd_write args r).symm)

/-- A job without the cache calls the engine unless its file is gone, and gets every file that the
engine has a record for. -/
theorem Uncached.process [Engine σ] {p : Pipeline σ} (h : p.Uncached) (file : Path)
    (interactive : Bool) :
    ∃ engine journal ownership outcome, ∃ records : List Record,
      p.process file interactive = ({ p with
        engine := engine
        journal := journal
        ownership := ownership }, outcome) ∧
      outcome.path = file ∧ outcome.claims.Covers ownership ∧
      outcome.files =
        records.map (p.recordChange (p.project.argsFor file) p.unsaved) ∧
      p.ledger.job file = records.foldl (Ledger.write (p.project.argsFor file))
        { p.ledger with engine := engine } := by
  have hcovers := Claims.covers_of_unclaimed h.unclaimed {}
  have hlook : p.lookUp file = (p, none) := by
    rw [lookUp, h.cacheRead]
    rfl
  have hcheck : Freshness.check p.disk file (p.project.argsFor file) interactive none
      (p.unsaved.contains file) =
        if p.unsaved.contains file || (p.disk.modified? file).isSome then .changed
        else .vanished := by
    unfold Freshness.check
    cases p.unsaved.contains file <;> cases p.disk.modified? file <;> rfl
  rw [Pipeline.process, hlook]
  dsimp only
  rw [hcheck]
  by_cases hfound : (p.unsaved.contains file || (p.disk.modified? file).isSome) = true
  · have hjob : p.ledger.job file = p.ledger.extract file := if_pos hfound
    rw [if_pos hfound, hjob, Ledger.extract]
    dsimp only [ledger]
    rw [extract]
    generalize Engine.extract p.engine p.disk file (p.project.argsFor file) p.unsaved = extracted
    obtain ⟨engine, answer⟩ := extracted
    cases answer with
    | failed message => exact ⟨engine, _, _, _, [], rfl, rfl, hcovers, rfl, rfl⟩
    | crashed message => exact ⟨engine, _, _, _, [], rfl, rfl, hcovers, rfl, rfl⟩
    | records records =>
      let asked : Pipeline σ :=
        log { p with engine := engine } (.extract file (p.project.argsFor file) p.unsaved)
      obtain ⟨ownership, claims, hclaim, hcovers⟩ :=
        claimRecords_of_covers (g := .start asked) hcovers records
      refine ⟨engine, asked.journal, ownership, { path := file, claims := claims, files := _ },
        records, ?_, rfl, hcovers, rfl, rfl⟩
      change asked.indexRecords file (p.project.argsFor file) records = _
      rw [indexRecords, hclaim]
      rfl
  · rw [if_neg hfound]
    exact ⟨_, _, _, _, [], rfl, rfl, hcovers, rfl, if_neg hfound⟩

/-- The changes of a job were computed side by side. Merged, they come to what the records come to
one after the other. -/
theorem merge_records (p₀ : Pipeline σ) {p : Pipeline σ} (h : p.db.Consistent)
    (hcwd : p₀.disk.cwd = p.disk.cwd) {args : List String} {records : List Record}
    {outcome : Outcome}
    (hfiles : outcome.files = records.map (p₀.recordChange args p.unsaved)) :
    ∃ disk snapshots timestamps counters db merged, ∃ q : Pipeline σ,
      (p.applyMessage (.job outcome)).finishJob outcome = q.complete outcome.path ∧
      q = { p with
        disk := disk
        snapshots := snapshots
        timestamps := timestamps
        counters := counters
        db := db
        merged := merged
        ownership := outcome.claims.drop p.ownership } ∧
      q.db.Consistent ∧ q.ledger = records.foldl (Ledger.write args) p.ledger := by
  -- All changes are applied before the first file is saved. The ledger interleaves the two, but
  -- neither depends on the other.
  obtain ⟨db, merged, happlied, hconsistent, hheld⟩ :=
    foldl_applyChange p₀ (p₀.recordChange_eq args p.unsaved) h records
  obtain ⟨disk, snapshots, timestamps, counters, counters', hfold, -, hfinish⟩ :=
    finishJob_frame { p with db := db, merged := merged } outcome
  obtain ⟨hstore, hdisk⟩ := foldl_finishFile_disk p₀ args (m := p.ledger) (p := { p with
    db := db
    merged := merged
    counters := p.counters.addFilesApplied outcome.files.length }) rfl rfl rfl
    (show p.ledger.unsaved = p.unsaved from rfl) hcwd records
  obtain ⟨disk', hwritten⟩ := p.ledger.foldl_write args records
  rw [← hfiles, hfold] at hstore hdisk
  refine ⟨disk, snapshots, timestamps, counters', db, merged, _, ?_, rfl, hconsistent, ?_⟩
  · rw [applyMessage, hfiles, happlied]
    exact hfinish
  · rw [hwritten] at hdisk ⊢
    rw [hcwd] at hheld
    exact Ledger.ext rfl rfl hstore rfl rfl hdisk rfl hheld

theorem removeFile?_frame {p : Pipeline σ} (h : p.db.Consistent) (path : Path) :
    ∃ db merged, p.removeFile? path = .ok { p with db := db, merged := merged } ∧ db.Consistent ∧
      ∀ q, db.snapshot? q = if q.same path then none else p.db.snapshot? q := by
  rw [removeFile?]
  cases hs : p.db.snapshot? path with
  | none =>
    refine ⟨p.db, p.merged, by rw [Database.removeFile, hs]; rfl, h, fun q => ?_⟩
    split
    next hq => rw [Database.snapshot?_congr p.db hq, hs]
    next => rfl
  | some s =>
    obtain ⟨out, hout, hm, _⟩ := h.removeFile hs
    refine ⟨out.1, _, by rw [hout]; rfl, hm.consistent, fun q => ?_⟩
    have hsame : (FileDelta.removal s).path.same q = q.same path := by
      rw [Path.same_comm q path, Path.same_congr (h.snapshot?_path hs)]
      rfl
    rw [hm.snapshot?, hsame]
    rfl

theorem finishRemoval_eq (p : Pipeline σ) (path : Path) : p.finishRemoval path = { p with
    timestamps := p.timestamps.erase path
    snapshots := p.snapshots.invalidate path
    disk := (p.snapshots.store.remove p.disk path).1
    tracker := p.tracker.endRemoval } := by
  unfold finishRemoval SnapshotCache.remove
  generalize p.snapshots.store.remove p.disk path = removed
  rfl

section Run

variable [Engine σ] {p : Pipeline σ}

omit [Engine σ] in
theorem AtRest.takeUp_eq (h : p.AtRest) : p.takeUp = p := by
  rw [takeUp, h.interactive, h.background]
  rfl

theorem AtRest.run_eq (h : p.AtRest) (fuel : Nat) : Pipeline.run fuel p = p := by
  cases fuel with
  | zero => rfl
  | succ fuel =>
    rw [Pipeline.run, h.hand]
    rfl

theorem AtRest.settle_eq (h : p.AtRest) : p.settle = p := by
  rw [settle, flush_of_outbox h.outbox, h.takeUp_eq, h.run_eq]

theorem AtRest.settle_keep (h : p.AtRest) (disk : Disk) (unsaved : Buffers) (counters : Counters) :
    (settle { p with disk := disk, unsaved := unsaved, counters := counters }).AtRest ∧
      (settle { p with disk := disk, unsaved := unsaved, counters := counters }).ledger =
        { p.ledger with disk := disk, unsaved := unsaved } := by
  have hrest : AtRest { p with disk := disk, unsaved := unsaved, counters := counters } :=
    ⟨⟨h.batch, h.cacheRead, h.consistent, h.unclaimed⟩, h.hand, h.outbox, h.interactive,
      h.background, h.removals, h.jobs⟩
  rw [hrest.settle_eq]
  exact ⟨hrest, rfl⟩

theorem Occupied.flush_work {job : JobInHand} (h : p.Occupied job) :
    p.work.flush.AtRest ∧ p.work.flush.ledger = p.ledger.job job.path := by
  let free : Pipeline σ := { p with inHand := none }
  have hfree : free.Uncached := ⟨h.batch, h.cacheRead, h.consistent, h.unclaimed⟩
  obtain ⟨engine, journal, ownership, outcome, records, hprocess, hpath, hcovers, hfiles, hjob⟩ :=
    hfree.process job.path job.interactive
  -- No request came in while the job ran, so it is retired and not queued again.
  obtain ⟨held, hheld, hrerun⟩ := h.running
  obtain ⟨tracker, hfinish, hremovals, hjobs⟩ :=
    Tracker.finish_setState hheld hrerun .mergeQueued
  let submitted : Pipeline σ := { free with
    engine := engine
    journal := journal
    ownership := ownership
    tracker := p.tracker.setState job.path .mergeQueued
    counters := p.counters.jobMergeQueued
    outbox := [] }
  have hwork : p.work = { submitted with outbox := [.job outcome] } := by
    rw [work, h.hand]
    dsimp only
    rw [hprocess, submit, hpath]
    dsimp only [free]
    rw [h.outbox]
    rfl
  obtain ⟨_, _, _, _, _, _, q, hmerge, hq, hconsistent, hledger⟩ :=
    merge_records (p := submitted) free h.consistent rfl hfiles
  have hflush : p.work.flush = { q with tracker := tracker } := by
    rw [hwork, flush_single (p := { submitted with outbox := [.job outcome] }) h.batch rfl]
    change (submitted.applyMessage (.job outcome)).finishJob outcome = _
    rw [hmerge, complete, hpath]
    have htracker : q.tracker = p.tracker.setState job.path .mergeQueued := by rw [hq]
    rw [htracker, hfinish]
  rw [hflush]
  refine ⟨?_, hledger.trans hjob.symm⟩
  rw [hq] at hconsistent ⊢
  refine ⟨⟨h.batch, h.cacheRead, hconsistent, hcovers.drop⟩, rfl, rfl, h.interactive,
    h.background, hremovals.trans h.removals, fun r => ?_⟩
  dsimp only
  rw [hjobs]
  cases hs : job.path.same r with
  | true => rfl
  | false => exact h.alone r (by rw [Path.same_comm, hs])

theorem Occupied.run_eq {job : JobInHand} (h : p.Occupied job) (fuel : Nat) :
    Pipeline.run (fuel + 1) p = p.work.flush := by
  obtain ⟨hrest, _⟩ := h.flush_work
  rw [Pipeline.run, h.hand, step, hrest.takeUp_eq, hrest.run_eq]
  rfl

omit [Engine σ] in
theorem takeUp_send (hh : p.inHand = none) (hi : p.interactive = []) (hb : p.background = [])
    (path : Path) (interactive : Bool) : (p.send path interactive).takeUp = p.begin path := by
  obtain ⟨q, rfl⟩ : ∃ q : Pipeline σ, p = { q with interactive := [], background := [] } := by
    refine ⟨p, ?_⟩
    cases p
    cases hi
    cases hb
    rfl
  cases interactive <;>
  · change takeUpWithin 1 _ = _
    rw [takeUpWithin]
    dsimp only [send]
    rw [hh]
    rfl

theorem AtRest.settle_enqueue (h : p.AtRest) {path : Path} (interactive : Bool)
    (ha : p.filter.allows (p.normalize path) = true) :
    (p.enqueue path interactive).1.settle.AtRest ∧
      (p.enqueue path interactive).1.settle.ledger = p.ledger.job (p.normalize path) := by
  have hn : p.filter.rejection? (p.normalize path) = none := by
    simpa [PathFilter.allows] using ha
  rw [Pipeline.enqueue]
  dsimp only
  rw [hn, Option.isSome_none, if_neg Bool.false_ne_true, Tracker.accept, h.jobs]
  dsimp only
  generalize p.normalize path = path
  let queued : Tracker := p.tracker.put path { interactive }
  let started : Tracker := queued.put path { interactive, state := .parsing }
  have hstart : queued.start path = some (started, interactive) := by
    rw [Tracker.start, Tracker.find?_put_self]
    rfl
  let counted : Pipeline σ := { p with tracker := queued, counters := p.counters.jobQueued }
  have htake : (counted.send path interactive).takeUp = log { counted with
      tracker := started
      counters := counted.counters.jobStarted
      inHand := some ⟨path, interactive⟩ } (.job path) := by
    rw [takeUp_send (p := counted) h.hand h.interactive h.background, Pipeline.begin, hstart]
  have hoccupied : (counted.send path interactive).takeUp.Occupied ⟨path, interactive⟩ := by
    rw [htake]
    refine ⟨⟨h.batch, h.cacheRead, h.consistent, h.unclaimed⟩, rfl, h.outbox, h.interactive,
      h.background, h.removals, ?_, fun q hq => ?_⟩
    · exact ⟨_, by rw [log, Tracker.find?_put_self], rfl⟩
    · dsimp only [log, started, queued]
      rw [Tracker.find?_put, Tracker.find?_put, hq]
      exact h.jobs q
  have hsent := counted.send_fields path interactive
  obtain ⟨fuel, hfuel⟩ : ∃ fuel, (counted.send path interactive).interactive.length +
      (counted.send path interactive).background.length +
        2 * (counted.send path interactive).tracker.jobs.size = fuel + 1 := by
    refine Nat.exists_eq_succ_of_ne_zero ?_
    cases interactive <;> simp [send]
  obtain ⟨hrest, hledger⟩ := hoccupied.flush_work
  change (counted.send path interactive).settle.AtRest ∧ _
  rw [settle, flush_of_outbox (hsent.2.2.2.1.trans h.outbox), hfuel, hoccupied.run_eq]
  exact ⟨hrest, hledger.trans (by rw [htake]; rfl)⟩

theorem AtRest.settle_notifyRemoved (h : p.AtRest) (path : Path) :
    (p.notifyRemoved path).settle.AtRest ∧
      (p.notifyRemoved path).settle.ledger = p.ledger.perform (.notifyRemoved path) := by
  let asked : Pipeline σ := { p with
    tracker := p.tracker.beginRemoval
    unsaved := p.unsaved.erase (p.normalize path)
    outbox := [] }
  have hasked : p.notifyRemoved path =
      { asked with outbox := [.remove (p.normalize path)] } := by
    rw [notifyRemoved, h.outbox]
    rfl
  obtain ⟨db, merged, hremove, hconsistent, hsnapshot⟩ :=
    removeFile?_frame (p := asked) h.consistent (p.normalize path)
  have hflush : (p.notifyRemoved path).flush = { asked with
      db := db
      merged := merged
      timestamps := p.timestamps.erase (p.normalize path)
      snapshots := p.snapshots.invalidate (p.normalize path)
      disk := (p.snapshots.store.remove p.disk (p.normalize path)).1
      tracker := p.tracker.beginRemoval.endRemoval } := by
    rw [hasked, flush_single (p := { asked with outbox := [.remove (p.normalize path)] }) h.batch
      rfl]
    change (asked.removeFile (p.normalize path)).finishRemoval (p.normalize path) = _
    rw [restricts_removeFile.eq hremove, finishRemoval_eq]
  have hperform : p.ledger.perform (.notifyRemoved path) = { p.ledger with
      unsaved := p.unsaved.erase (p.normalize path)
      held := fun q => if q.same (p.normalize path) then none else p.db.snapshot? q
      disk := (p.snapshots.store.remove p.disk (p.normalize path)).1 } := rfl
  rw [settle, hflush, hperform]
  generalize (p.snapshots.store.remove p.disk (p.normalize path)).1 = disk
  have hrest : AtRest { asked with
      db := db
      merged := merged
      timestamps := p.timestamps.erase (p.normalize path)
      snapshots := p.snapshots.invalidate (p.normalize path)
      disk := disk
      tracker := p.tracker.beginRemoval.endRemoval } :=
    ⟨⟨h.batch, h.cacheRead, hconsistent, h.unclaimed⟩, h.hand, rfl, h.interactive, h.background,
      h.removals, h.jobs⟩
  rw [hrest.takeUp_eq, hrest.run_eq]
  exact ⟨hrest, Ledger.ext rfl rfl rfl rfl rfl rfl rfl (funext hsnapshot)⟩

def perform (p : Pipeline σ) : Call → Pipeline σ
  | .enqueue path interactive => (p.enqueue path interactive).1.settle
  | .notifyRemoved path => (p.notifyRemoved path).settle
  | .setUnsaved path text => (p.setUnsaved path text).settle
  | .clearUnsaved path => (p.clearUnsaved path).settle
  | .changeDisk disk => settle { p with disk }

theorem AtRest.perform (h : p.AtRest) (call : Call) :
    (p.perform call).AtRest ∧ (p.perform call).ledger = p.ledger.perform call := by
  cases call with
  | enqueue path interactive =>
    cases ha : p.filter.allows (p.normalize path) with
    | true =>
      obtain ⟨hrest, hledger⟩ := h.settle_enqueue interactive ha
      exact ⟨hrest, hledger.trans (if_pos ha).symm⟩
    | false =>
      have hfiltered : (p.enqueue path interactive).1 =
          { p with counters := p.counters.requestFiltered } := by
        have hr : (p.filter.rejection? (p.normalize path)).isSome = true := by
          rwa [PathFilter.allows, Option.isNone_eq_false_iff] at ha
        rw [enqueue]
        dsimp only
        rw [if_pos hr]
      obtain ⟨hrest, hledger⟩ := h.settle_keep p.disk p.unsaved p.counters.requestFiltered
      rw [Pipeline.perform, hfiltered]
      exact ⟨hrest, hledger.trans (if_neg (Bool.eq_false_iff.mp ha)).symm⟩
  | notifyRemoved path => exact h.settle_notifyRemoved path
  | setUnsaved path text =>
    exact h.settle_keep p.disk (p.unsaved.insert (p.normalize path) text) p.counters
  | clearUnsaved path => exact h.settle_keep p.disk (p.unsaved.erase (p.normalize path)) p.counters
  | changeDisk disk => exact h.settle_keep disk p.unsaved p.counters

theorem AtRest.foldl_perform (h : p.AtRest) (calls : List Call) :
    (calls.foldl Pipeline.perform p).AtRest ∧
      (calls.foldl Pipeline.perform p).ledger = calls.foldl Ledger.perform p.ledger := by
  induction calls generalizing p with
  | nil => exact ⟨h, rfl⟩
  | cons call rest ih =>
    obtain ⟨hrest, hledger⟩ := h.perform call
    rw [List.foldl_cons, List.foldl_cons, ← hledger]
    exact ih hrest

omit [Engine σ] in
theorem AtRest.isIdle (h : p.AtRest) : p.isIdle = true :=
  Tracker.isIdle_iff.mpr ⟨h.jobs, h.removals⟩

omit [Engine σ] in
theorem atRest_new {disk : Disk} {engine : σ} {config : Config} {root : Path} {project : Project}
    (h : Pipeline.new disk engine config root project = .ok p) (hc : config.cacheRead = false) :
    p.AtRest ∧ p.db = .empty := by
  obtain ⟨hb, hp⟩ := new_eq h
  rw [hp]
  exact ⟨⟨⟨hb, hc, Database.consistent_empty, fun _ => rfl⟩, rfl, rfl, rfl, rfl, rfl, fun _ => rfl⟩,
    rfl⟩

/-- Without the cache, after any calls the pipeline is idle and has on record what a ledger holds that
starts empty and is written record by record, and what files contribute to symbols is what these
snapshots say. -/
theorem uncached_records_ledger {disk : Disk} {engine : σ} {config : Config} {root : Path}
    {project : Project} (hnew : Pipeline.new disk engine config root project = .ok p)
    (hc : config.cacheRead = false) (calls : List Call) :
    let q := calls.foldl Pipeline.perform p
    let m := calls.foldl Ledger.perform { p.ledger with held := fun _ => none }
    q.isIdle = true ∧
      (∀ path, q.db.snapshot? path = m.held path) ∧
      (∀ c id path, q.db.contributionOf? c id path =
        ((m.held path).bind fun s => s.find? c id).map SymbolView.tidy) ∧
      ∀ c id d, q.db.definitionIn? c id = some d →
        d.contributions.isEmpty = false ∧
        ∀ file v, d.contributions.find? file = some v →
          ∃ path, q.db.fileId? path = some file ∧ q.db.contributionOf? c id path = some v := by
  obtain ⟨hrest, hempty⟩ := atRest_new hnew hc
  have hledger : ({ p.ledger with held := fun _ => none } : Ledger σ) = p.ledger := by
    rw [ledger, hempty]
    rfl
  intro q m
  obtain ⟨hq, hm⟩ := hrest.foldl_perform calls
  have hheld : q.db.snapshot? = m.held := by
    dsimp only [m]
    rw [hledger, ← hm]
    rfl
  refine ⟨hq.isIdle, congrFun hheld, fun c id path => ?_, fun c id d hd => ⟨?_, fun file v hv => ?_⟩⟩
  · rw [hq.consistent.contributionOf?, hheld]
  · exact hq.consistent.sound.backed c id d hd
  · obtain ⟨path, s, hfile, hs, hv⟩ := hq.consistent.contributor hd hv
    exact ⟨path, hfile, by rw [hq.consistent.contributionOf?, hs, Option.bind_some, hv]⟩

end Run

section Repeated

def repeatingEngine : FixtureEngine :=
  ({} : FixtureEngine).setRecords ⟨"/W/b.cc"⟩ [chainRecord "/W/a.h" chainTime [] "F",
    chainRecord "/W/b.cc" chainTime [] "main", chainRecord "/W/a.h" (chainTime + 1) [] "G"]

set_option maxRecDepth 10000 in
/-- The second record of the header is on record, and the source file is not after its removal. -/
theorem last_record_kept : ∃ (p : Pipeline FixtureEngine) (calls : List Call),
    (calls.foldl Pipeline.perform p).isIdle = true ∧
      ((calls.foldl Pipeline.perform p).db.snapshot? ⟨"/W/a.h"⟩).map
        (fun s => (s.modified, s.args)) = some (chainTime + 1, ["clang"]) ∧
      (calls.foldl Pipeline.perform p).db.snapshot? ⟨"/W/b.cc"⟩ = none := by
  let calls : List Call := [.setUnsaved ⟨"/W/a.h"⟩ "x", .enqueue ⟨"/W/b.cc"⟩ true,
    .clearUnsaved ⟨"/W/a.h"⟩, .notifyRemoved ⟨"/W/./b.cc"⟩]
  have hrun : (Pipeline.new chainDisk repeatingEngine { cacheRead := false } ⟨"/W"⟩
      (.fixed [⟨"/W/b.cc"⟩] ["clang"])).toOption.any (fun p => decide (
        ((calls.foldl Ledger.perform { p.ledger with held := fun _ => none }).held
          ⟨"/W/a.h"⟩).map (fun s => (s.modified, s.args)) = some (chainTime + 1, ["clang"]) ∧
        (calls.foldl Ledger.perform { p.ledger with held := fun _ => none }).held
          ⟨"/W/b.cc"⟩ = none)) = true := by
    decide +kernel
  obtain ⟨p, hnew, hp⟩ := exists_of_any hrun
  obtain ⟨hheader, hsource⟩ := of_decide_eq_true hp
  obtain ⟨hidle, hheld, -⟩ := uncached_records_ledger hnew rfl calls
  refine ⟨p, calls, hidle, ?_, ?_⟩
  · rw [hheld, hheader]
  · rw [hheld, hsource]

end Repeated

end Pipeline

end SymbolIndex
