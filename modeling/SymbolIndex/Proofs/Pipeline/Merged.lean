import SymbolIndex.Proofs.Database.Rebase
import SymbolIndex.Proofs.Pipeline.Serving

/-! A job that is merged. Its changes go to the database, then the times and the cache follow; if no
save fails, the pipeline follows the replica as it is after the file was served. -/

namespace SymbolIndex

namespace Pipeline

variable {σ : Type}

theorem applyChange_spec (p₀ : Pipeline σ) {p : Pipeline σ} (h : p.db.Consistent) (s : Snapshot)
    (entry : Option CachedSnapshot) (t : Option Timestamp) :
    ∃ db merged, p.applyChange (p₀.change s entry t) = { p with db := db, merged := merged } ∧
      db.Consistent ∧ ∀ q, db.snapshot? q = assign p.db.snapshot? s.path s q := by
  obtain ⟨out, hout, hm⟩ := h.index s
  rw [Database.index] at hout
  have hrebase := p.db.rebase_between (p₀.db.snapshot? s.path) s
  rw [applyChange, change, hrebase, hout]
  refine ⟨out.1, _, rfl, hm.consistent, fun q => ?_⟩
  rw [hm.snapshot?, assign, Path.same_comm q s.path]
  rfl

/-- The changes of one job were computed against one state of the database. Each is brought up to date
before it is applied, so that the last one of a file wins. -/
theorem foldl_applyChange (p₀ : Pipeline σ) {α : Type} {f : α → Snapshot} {g : α → FileChange}
    (hg : ∀ a, ∃ entry t, g a = p₀.change (f a) entry t) {p : Pipeline σ} (h : p.db.Consistent)
    (l : List α) :
    ∃ db merged, (l.map g).foldl applyChange p = { p with db := db, merged := merged } ∧
      db.Consistent ∧
      db.snapshot? = l.foldl (fun held a => assign held (f a).path (f a)) p.db.snapshot? := by
  induction l generalizing p with
  | nil => exact ⟨_, _, rfl, h, rfl⟩
  | cons a rest ih =>
    obtain ⟨entry, t, ha⟩ := hg a
    obtain ⟨db, merged, hfirst, hc, hs⟩ := applyChange_spec p₀ h (f a) entry t
    obtain ⟨db', merged', hrest, hc', hs'⟩ := ih (p := { p with db := db, merged := merged }) hc
    refine ⟨db', merged', ?_, hc', ?_⟩
    · rw [List.map_cons, List.foldl_cons, ha, hfirst]
      exact hrest
    · rw [hs', List.foldl_cons, ← funext hs]

theorem foldl_put_held (l : List (Snapshot × Option CachedSnapshot)) (m : Replica) :
    (l.foldl Replica.put m).held =
      l.foldl (fun held c => assign held c.1.path c.1) m.held :=
  (List.foldl_hom Replica.held fun _ _ => rfl).symm

/-- No save has failed. -/
def Unharmed (p : Pipeline σ) : Prop := ∀ e ∈ p.counters.errors, e.kind ≠ .cacheWrite

theorem Unharmed.mono {a b : Pipeline σ} (h : b.Unharmed)
    (he : a.counters.errors ⊆ b.counters.errors) : a.Unharmed := fun e ha => h e (he ha)

/-- The times and the cache agree with a replica. -/
structure Stocked (w : Setting) (p : Pipeline σ) (m : Replica) : Prop where
  cacheWrite : p.settings.cacheWrite = true
  store : p.snapshots.store = w.store
  disk : w.disk.Extends p.disk
  cache : p.snapshots.Holds p.disk m.kept
  times : ∀ q, p.timestamps.find? q = (m.held q).map (·.modified)
  honest : w.Honest m

variable {w : Setting} {p : Pipeline σ} {m : Replica}

theorem finishFile_frame (p : Pipeline σ) (f : FileChange) :
    ∃ disk snapshots timestamps counters, p.finishFile f = { p with
      disk := disk
      snapshots := snapshots
      timestamps := timestamps
      counters := counters } := by
  unfold finishFile saveEntry
  split
  next => exact ⟨_, _, _, _, rfl⟩
  next =>
    split
    next => split <;> exact ⟨_, _, _, _, rfl⟩
    next => exact ⟨_, _, _, _, rfl⟩

/-- A file that comes with an entry is noted and its entry saved. -/
theorem finishFile_entry (hw : p.settings.cacheWrite = true) (p₀ : Pipeline σ) (e : CachedSnapshot)
    {snapshots : SnapshotCache} {disk : Disk} {result : Except CacheError Unit}
    (hres : p.snapshots.save p.disk e.payload.path e = (snapshots, disk, result)) :
    p.finishFile (p₀.change e.payload (some e) (some e.payload.modified)) = { p with
      timestamps := p.timestamps.insert e.payload.path e.payload.modified
      snapshots := snapshots
      disk := disk
      counters := match result with
        | .ok _ => p.counters
        | .error cause => p.counters.recordError (.cacheWrite e.payload.path cause) } := by
  cases result <;> simp [Pipeline.finishFile, saveEntry, noteTime, change, hw, hres]

/-- No other entry of the replica is kept where a genuine entry goes. -/
theorem Stocked.apart (h : Stocked w p m) (ht : w.Truthful) {e : CachedSnapshot}
    (he : w.Genuine e) {q : Path} {e' : CachedSnapshot} (hq : m.kept q = some e')
    (hcanonical : p.disk.cwd.Canonical q)
    (hslot : CacheStore.slotName q = CacheStore.slotName e.payload.path) : q = e.payload.path := by
  obtain ⟨hsame, he'⟩ := h.honest.kept q e' hq
  have hcwd : p.disk.cwd = w.disk.cwd := h.disk.cwd
  have hpath := (hcwd ▸ hcanonical).eq_of_same ht.cwd he'.canonical hsame
  rw [hpath] at hslot ⊢
  exact ht.apart _ _ he'.recorded he.recorded hslot

theorem Stocked.finishFile (h : Stocked w p m) (ht : w.Truthful)
    {c : Snapshot × Option CachedSnapshot} (hc : w.Backed c) (p₀ : Pipeline σ)
    (hsaved : (p.finishFile (p₀.change c.1 c.2 (some c.1.modified))).Unharmed) :
    Stocked w (p.finishFile (p₀.change c.1 c.2 (some c.1.modified))) (m.put c) := by
  have hhonest := h.honest.put hc
  have htimes : ∀ q, (p.timestamps.insert c.1.path c.1.modified).find? q =
      ((m.put c).held q).map (·.modified) := by
    intro q
    rw [OrderedMap.find?_insert, h.times]
    change _ = (if q.same c.1.path = true then some c.1 else m.held q).map _
    simp only [Path.compare_eq_iff]
    split <;> rfl
  obtain ⟨s, saved⟩ := c
  obtain ⟨e, he, rfl, hs⟩ := hc
  rcases hs with hs | hs <;> dsimp only at hs <;> subst hs
  · exact ⟨h.cacheWrite, h.store, h.disk, h.cache, htimes, hhonest⟩
  · have hcwd : p.disk.cwd = w.disk.cwd := h.disk.cwd
    have hd : p.disk.cwd.isAbsolute = true := hcwd ▸ ht.cwd
    rcases hres : p.snapshots.save p.disk e.payload.path e with ⟨snapshots, disk, result⟩
    rw [finishFile_entry h.cacheWrite p₀ e hres] at hsaved ⊢
    cases result with
    | error cause =>
      refine absurd rfl (hsaved (.cacheWrite e.payload.path cause) ?_)
      exact List.mem_append_right _ List.mem_cons_self
    | ok _ =>
      obtain ⟨hcache, hstore, hsave⟩ := h.cache.save hd (hcwd.symm ▸ he.canonical)
        (fun _ _ hq => h.apart ht he hq) (h.store.symm ▸ he.fits) hres
      have hdisk : w.disk.Extends disk := CacheStore.extends_save (h.store.symm ▸ ht.vacant)
        h.disk (he.canonical.text_ne ht.cwd) hsave
      exact ⟨h.cacheWrite, hstore.trans h.store, hdisk, hcache, htimes, hhonest⟩

theorem Stocked.foldl_finishFile (h : Stocked w p m) (ht : w.Truthful) (p₀ : Pipeline σ)
    {l : List (Snapshot × Option CachedSnapshot)} (hl : ∀ c ∈ l, w.Backed c)
    (hsaved : ((p₀.changes l).foldl Pipeline.finishFile p).Unharmed) :
    Stocked w ((p₀.changes l).foldl Pipeline.finishFile p) (l.foldl Replica.put m) := by
  induction l generalizing p m with
  | nil => exact h
  | cons c rest ih =>
    obtain ⟨hc, hrest⟩ := List.forall_mem_cons.mp hl
    rw [changes, List.map_cons, List.foldl_cons, ← changes] at hsaved ⊢
    obtain ⟨_, _, _, _, _, _, _, _, hsettled, herrors⟩ := settled_foldl settled_finishFile
      (p₀.changes rest) (p.finishFile (p₀.change c.1 c.2 (some c.1.modified)))
    refine ih (h.finishFile ht hc p₀ (hsaved.mono ?_)) hrest hsaved
    rw [hsettled]
    exact herrors

theorem foldl_finishFile_frame (p : Pipeline σ) (files : List FileChange) :
    ∃ disk snapshots timestamps counters, files.foldl finishFile p = { p with
      disk := disk
      snapshots := snapshots
      timestamps := timestamps
      counters := counters } := by
  induction files generalizing p with
  | nil => exact ⟨_, _, _, _, rfl⟩
  | cons f rest ih =>
    obtain ⟨_, _, _, _, hf⟩ := p.finishFile_frame f
    obtain ⟨_, _, _, _, hrest⟩ := ih (p.finishFile f)
    rw [List.foldl_cons, hrest, hf]
    exact ⟨_, _, _, _, rfl⟩

/-- A finished job gives up its claims. The rest is what finishing its files does. -/
theorem finishJob_frame (p : Pipeline σ) (outcome : Outcome) :
    ∃ disk snapshots timestamps counters counters',
      outcome.files.foldl finishFile { p with
          counters := p.counters.addFilesApplied outcome.files.length } = { p with
        disk := disk
        snapshots := snapshots
        timestamps := timestamps
        counters := counters } ∧
      counters.errors ⊆ counters'.errors ∧
      p.finishJob outcome = Pipeline.complete { p with
        disk := disk
        snapshots := snapshots
        timestamps := timestamps
        counters := counters'
        ownership := outcome.claims.drop p.ownership } outcome.path := by
  obtain ⟨disk, snapshots, timestamps, counters, hfold⟩ := foldl_finishFile_frame { p with
    counters := p.counters.addFilesApplied outcome.files.length } outcome.files
  refine ⟨disk, snapshots, timestamps, counters, outcome.error.elim
    (counters.jobApplied outcome.fromCache) counters.jobFailed, hfold, ?_, ?_⟩
  · cases outcome.error with
    | none => exact fun _ he => he
    | some e => exact fun _ he => List.mem_append_left _ he
  · rw [finishJob]
    dsimp only
    rw [hfold]
    cases outcome.error <;> rfl

theorem complete_frame (p : Pipeline σ) (path : Path) :
    ∃ tracker interactive background counters, p.complete path = { p with
      tracker := tracker
      interactive := interactive
      background := background
      counters := counters } ∧ counters.errors = p.counters.errors := by
  rw [complete]
  split
  next => exact ⟨_, _, _, _, rfl, rfl⟩
  next interactive _ => cases interactive <;> exact ⟨_, _, _, _, rfl, rfl⟩

theorem mem_errors_finishJob {p : Pipeline σ} {outcome : Outcome} {e : FileError}
    (h : outcome.error = some e) : e ∈ (p.finishJob outcome).counters.errors := by
  rw [finishJob, h]
  obtain ⟨_, _, _, _, hcomplete, herrors⟩ := complete_frame _ outcome.path
  rw [hcomplete, herrors]
  exact List.mem_append_right _ List.mem_cons_self

theorem flush_single {p : Pipeline σ} {message : MergeMessage}
    (hb : 0 < p.settings.mergeBatchSize) (hout : p.outbox = [message]) :
    p.flush = (applyMessage { p with outbox := [] } message).finishMessage message := by
  have htake : [message].take p.settings.mergeBatchSize = [message] :=
    List.take_of_length_le hb
  have hdrop : [message].drop p.settings.mergeBatchSize = [] := List.drop_of_length_le hb
  rw [flush, hout, List.length_singleton, mergeAll, hout, mergeAll, merge, hout, htake, hdrop]
  rfl

variable [Engine σ]

theorem Follows.finishJob (h : Follows w p m) (ht : w.Truthful) {file : Path}
    {r : Pipeline σ × Outcome} (hr : Served w p m file r) {q : Pipeline σ}
    (hq : ∃ journal counters tracker inHand outbox, q = { p with
      snapshots := r.1.snapshots
      ownership := r.1.ownership
      engine := r.1.engine
      journal := journal
      counters := counters
      tracker := tracker
      inHand := inHand
      outbox := outbox })
    (hsaved : ((r.2.files.foldl applyChange q).finishJob r.2).Unharmed) :
    Follows w ((r.2.files.foldl applyChange q).finishJob r.2) (w.serve m file) := by
  obtain ⟨l, hfiles, hbacked, hserve⟩ := hr.files
  obtain ⟨_, _, _, _, _, hq⟩ := hq
  have hdb : q.db = p.db := by rw [hq]
  obtain ⟨db, merged, happlied, hconsistent, hheld⟩ := foldl_applyChange p
    (fun c => ⟨c.2, some c.1.modified, rfl⟩) (hdb.symm ▸ h.consistent) l
  rw [← changes] at happlied
  have hrecorded : ∀ q, db.snapshot? q = (l.foldl Replica.put m).held q := by
    intro q
    rw [hheld, foldl_put_held, hdb, funext h.recorded]
  let base : Pipeline σ := { q with
    db := db
    merged := merged
    counters := q.counters.addFilesApplied (p.changes l).length }
  obtain ⟨disk, snapshots, timestamps, counters, counters', hfold, herrors, hfinish⟩ :=
    finishJob_frame { q with db := db, merged := merged } r.2
  rw [hfiles] at hfold
  change (p.changes l).foldl Pipeline.finishFile base = _ at hfold
  let settled : Pipeline σ := { base with
    disk := disk
    snapshots := snapshots
    timestamps := timestamps
    counters := counters
    ownership := r.2.claims.drop q.ownership }
  change _ = Pipeline.complete { settled with counters := counters' } r.2.path at hfinish
  obtain ⟨_, _, _, _, hcomplete, hkept⟩ :=
    complete_frame { settled with counters := counters' } r.2.path
  rw [hfiles, happlied, hfinish, hcomplete] at hsaved ⊢
  have hstocked : Stocked w base m := by
    refine ⟨?_, ?_, ?_, ?_, ?_, h.honest⟩ <;> dsimp only [base] <;> rw [hq]
    · exact h.cacheWrite
    · exact hr.store
    · exact h.disk
    · exact hr.cache
    · exact h.times
  have hfolded : ((p.changes l).foldl Pipeline.finishFile base).Unharmed := by
    rw [hfold]
    intro e he
    refine hsaved e ?_
    rw [hkept]
    exact herrors he
  have hmerged := hstocked.foldl_finishFile ht p hbacked hfolded
  rw [hfold, hserve] at hmerged
  rw [hserve] at hrecorded
  have hunclaimed : ∀ path, (r.2.claims.drop q.ownership).contains path = false := by
    have hcovers := hr.covers
    rw [hq]
    exact hcovers.drop
  have hrest : settled.project = w.project ∧ settled.settings.cacheRead = true ∧
      Steady w.answer settled.engine ∧ ∀ path, settled.unsaved.contains path = false := by
    dsimp only [settled, base]
    rw [hq]
    exact ⟨h.project, h.cacheRead, hr.engine, h.unsaved⟩
  exact ⟨hrest.1, hrest.2.1, hmerged.cacheWrite, hrest.2.2.1, hrest.2.2.2, hunclaimed,
    hmerged.store, hmerged.disk, hmerged.cache, hconsistent, hrecorded, hmerged.times,
    hmerged.honest⟩

theorem Follows.takeUp (h : Follows w p m) : Follows w p.takeUp m := by
  obtain ⟨_, _, _, _, _, _, htake, _⟩ :=
    takeUpWithin_spec (p.interactive.length + p.background.length) p
  rw [Pipeline.takeUp, htake]
  exact { h with }

/-- The next job in line, carried out and merged, if its file is there. -/
theorem Follows.step (h : Follows w p m) (ht : w.Truthful) (hl : p.Lined) {file : Path}
    {rest : List Path} (hq : p.queue = file :: rest) (hf : w.disk.cwd.Canonical file)
    (hx : (w.disk.modified? file).isSome = true ∨
      ∀ e ∈ p.takeUp.work.flush.counters.errors, e.kind ≠ .vanished)
    (hsaved : p.takeUp.work.flush.Unharmed) :
    Follows w p.takeUp.work.flush (w.serve m file) := by
  obtain ⟨hb, _, _⟩ := hl.takeUp hq
  have hstart := h.takeUp
  generalize p.takeUp = p at hsaved hx hb hstart ⊢
  have hready : Follows w { p with inHand := none } m := { hstart with }
  have hwork : p.work = (Pipeline.process { p with inHand := none } file false).1.submit
      (Pipeline.process { p with inHand := none } file false).2 := by
    rw [Pipeline.work, hb.hand]
  obtain ⟨⟨_, _, _, _, hframe, _⟩, _⟩ := process_spec { p with inHand := none } file false
  have hout : p.work.outbox = [.job (Pipeline.process { p with inHand := none } file false).2] := by
    rw [hwork, submit, hframe]
    dsimp only
    rw [hb.outbox]
    rfl
  have hbatch : 0 < p.work.settings.mergeBatchSize := by
    rw [hwork, submit, hframe]
    exact hb.batch
  rw [flush_single hbatch hout] at hsaved hx ⊢
  have hthere : (p.disk.modified? file).isSome = true := by
    rcases hx with hx | hx
    · obtain ⟨t, htime⟩ := Option.isSome_iff_exists.mp hx
      rw [hstart.disk.modified? htime]
      rfl
    · rw [Option.isSome_iff_ne_none]
      intro hnone
      exact hx _ (mem_errors_finishJob (hready.process_vanished hnone)) rfl
  have hserved := hready.process ht hf hthere
  obtain ⟨_, _, _, _, hrest⟩ := hserved.rest
  refine hready.finishJob ht hserved ?_ hsaved
  rw [hwork, submit, hrest]
  exact ⟨_, _, _, _, _, rfl⟩

/-- A run of the jobs in line, if no save fails and no file is missing. -/
theorem Follows.run (h : Follows w p m) (ht : w.Truthful) (hl : p.Lined)
    (hf : ∀ file ∈ p.queue, w.disk.cwd.Canonical file)
    (hx : ∀ file ∈ p.queue, (w.disk.modified? file).isSome = true ∨
      ∀ e ∈ p.settle.counters.errors, e.kind ≠ .vanished)
    (hsaved : p.settle.Unharmed) :
    p.settle.isIdle = true ∧ Follows w p.settle (p.queue.foldl w.serve m) := by
  have hlen : p.queue.length ≤ p.interactive.length + p.background.length +
      2 * p.tracker.jobs.size := by
    rw [queue, List.length_append]
    exact Nat.le_add_right _ _
  rw [settle, flush_of_outbox hl.pending.outbox] at hsaved hx ⊢
  refine ⟨(hl.pending.run _ hlen).1, ?_⟩
  -- What is asked of the files in line has to hold of those that are left after each job.
  let errors := (Pipeline.run (p.interactive.length + p.background.length +
    2 * p.tracker.jobs.size) p.takeUp).counters.errors
  let R (p : Pipeline σ) (m : Replica) : Prop := Follows w p m ∧
    ∀ file ∈ p.queue, w.disk.cwd.Canonical file ∧
      ((w.disk.modified? file).isSome = true ∨ ∀ e ∈ errors, e.kind ≠ .vanished)
  have hstep : ∀ {q : Pipeline σ} {m : Replica} {file : Path} {rest : List Path}, q.Lined →
      q.queue = file :: rest → R q m → q.takeUp.work.flush.counters.errors ⊆ errors →
      R q.takeUp.work.flush (w.serve m file) := by
    rintro q m file rest hl hq ⟨hfollows, hall⟩ he
    obtain ⟨hcanonical, hexists⟩ := hall file (by rw [hq]; exact List.mem_cons_self)
    refine ⟨hfollows.step ht hl hq hcanonical (hexists.imp_right fun hn e hm => hn e (he hm))
      fun e hm => hsaved e (he hm), fun other hm => hall other ?_⟩
    rw [(hl.work hq).2] at hm
    rw [hq]
    exact List.mem_cons_of_mem _ hm
  have hrun := hl.run (R := R) hstep ⟨h, fun file hm => ⟨hf file hm, hx file hm⟩⟩ _ hlen
    fun _ he => he
  exact hrun.1

end Pipeline

end SymbolIndex
