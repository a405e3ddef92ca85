import SymbolIndex.Proofs.Ownership
import SymbolIndex.Proofs.Pipeline.Frame
import SymbolIndex.Proofs.Pipeline.Tracker

/-! How a job fails. It finds its file gone, it gets no records from the engine, or it crashes, in
the engine or at any other point. When it crashes it gives up its claims, and what it has computed
is lost. Whatever the cause, a failed job has no changes to be merged, and nothing stays claimed. -/

namespace SymbolIndex

/-- Why a job fails. -/
inductive Cause
  | vanished
  | engine (message : String)
  /-- The job crashes, in the engine or outside it. -/
  | crash (message : String)
  deriving DecidableEq

def Cause.report (path : Path) : Cause → FileError
  | .vanished => .vanished path
  | .engine message => .engineFailed path message
  | .crash message => .internal path message

namespace SnapshotCache

theorem store_retainNewer (c : SnapshotCache) (p : Path) (e : CachedSnapshot) :
    (c.retainNewer p e).1.store = c.store := by
  rw [retainNewer]
  split
  next => split <;> rfl
  next => rfl

theorem store_tryLoad (c : SnapshotCache) (d : Disk) (p : Path) :
    (c.tryLoad d p).1.store = c.store := by
  rw [tryLoad]
  split
  next => rfl
  next loaded _ =>
    split
    next => rfl
    next e _ => exact store_retainNewer { c with loaded := loaded } p e

theorem store_takeOrLoad (c : SnapshotCache) (d : Disk) (p : Path) :
    (c.takeOrLoad d p).1.store = c.store := by
  rw [takeOrLoad]
  split <;> rfl

end SnapshotCache

namespace Pipeline

variable {σ : Type} {path : Path}

/-- The second pipeline differs from the first at most in what a job leaves behind without being
merged. -/
structure Spent (path : Path) (a b : Pipeline σ) : Prop where
  rest : ∃ engine snapshots ownership tracker filesSkipped journal, b = { a with
    engine := engine
    snapshots := snapshots
    ownership := ownership
    tracker := tracker
    counters := { a.counters with filesSkipped := filesSkipped }
    journal := journal }
  store : b.snapshots.store = a.snapshots.store
  elsewhere : a.tracker.AgreesOff path b.tracker
  job : ∀ job, a.tracker.jobs.find? path = some job → job.state ≠ .queued →
    ∃ state, state ≠ .queued ∧ b.tracker.jobs.find? path = some { job with state := state }

theorem spent_of_tracker {a b : Pipeline σ} (h : ∃ engine snapshots ownership filesSkipped journal,
      b = { a with
        engine := engine
        snapshots := snapshots
        ownership := ownership
        counters := { a.counters with filesSkipped := filesSkipped }
        journal := journal }) (hs : b.snapshots.store = a.snapshots.store) : Spent path a b := by
  obtain ⟨_, _, _, _, _, rfl⟩ := h
  exact ⟨⟨_, _, _, _, _, _, rfl⟩, hs, .refl path _, fun job hj hn => ⟨job.state, hn, hj⟩⟩

theorem Spent.trans {a b c : Pipeline σ} (h : Spent path a b) (h' : Spent path b c) :
    Spent path a c := by
  refine ⟨?_, h'.store.trans h.store, h.elsewhere.trans h'.elsewhere, fun job hj hn => ?_⟩
  · obtain ⟨_, _, _, _, _, _, hb⟩ := h.rest
    obtain ⟨_, _, _, _, _, _, hc⟩ := h'.rest
    rw [hc, hb]
    exact ⟨_, _, _, _, _, _, rfl⟩
  · obtain ⟨state, hs, hb⟩ := h.job job hj hn
    exact h'.job { job with state := state } hb hs

/-- No job stops being under way. -/
theorem Spent.running {a b : Pipeline σ} (h : Spent path a b) {file : Path}
    (hr : a.tracker.Running file) : b.tracker.Running file := by
  cases hs : file.same path with
  | false =>
    rw [Tracker.Running, h.elsewhere.jobs file hs]
    exact hr
  | true =>
    obtain ⟨job, hj, hn⟩ := hr.congr hs
    obtain ⟨state, hstate, hb⟩ := h.job job hj hn
    have hrunning : b.tracker.Running path := ⟨_, hb, hstate⟩
    rw [Path.same_comm] at hs
    exact hrunning.congr hs

theorem spent_lookUp (p : Pipeline σ) (file : Path) : Spent path p (p.lookUp file).1 := by
  rw [lookUp]
  split
  next => exact spent_of_tracker ⟨_, _, _, _, _, rfl⟩ (p.snapshots.store_tryLoad p.disk file)
  next => exact spent_of_tracker ⟨_, _, _, _, _, rfl⟩ rfl

theorem spent_setState (p : Pipeline σ) {state : JobState} (hs : state ≠ .queued) :
    Spent path p { p with tracker := p.tracker.setState path state } := by
  refine ⟨⟨_, _, _, _, _, _, rfl⟩, rfl, p.tracker.agreesOff_setState path state,
    fun job hj _ => ⟨state, hs, ?_⟩⟩
  change (p.tracker.setState path state).jobs.find? path = _
  rw [Tracker.setState, hj]
  exact p.tracker.find?_put_self path _

variable [Engine σ]

/-- Wherever a job can have come to while it is carried out for a path. The steps are those of
`process`, in any order; besides, the job notes how far it is. -/
inductive Underway (p : Pipeline σ) (path : Path) : Progress σ → Prop
  | start : Underway p path (.start p)
  | lookUp {w : Progress σ} (h : Underway p path w) :
    Underway p path { w with pipeline := (w.pipeline.lookUp path).1 }
  | call {w : Progress σ} (h : Underway p path w) (args : List String) :
    Underway p path { w with pipeline := w.pipeline.called path args }
  | setState {w : Progress σ} (h : Underway p path w) {state : JobState} (hs : state ≠ .queued) :
    Underway p path { w with
      pipeline := { w.pipeline with tracker := w.pipeline.tracker.setState path state } }
  | claim {w : Progress σ} (h : Underway p path w) (file : Path) :
    Underway p path (w.claim file).1
  | skip {w : Progress σ} (h : Underway p path w) : Underway p path w.skip
  | load {w : Progress σ} (h : Underway p path w) (file : Path) :
    Underway p path { w with pipeline := { w.pipeline with
      snapshots := (w.pipeline.snapshots.takeOrLoad w.pipeline.disk file).1 } }
  | add {w : Progress σ} (h : Underway p path w) (f : FileChange) : Underway p path (w.add f)

/-- A job that crashes gives up its claims, and what it has computed is lost. -/
def Progress.abandon (w : Progress σ) (path : Path) (message : String) : Pipeline σ × Outcome :=
  ({ w.pipeline with ownership := w.claims.drop w.pipeline.ownership },
    { path, error := some (Cause.report path (.crash message)) })

/-- How carrying out a job can fail. -/
inductive Fails (p : Pipeline σ) (path : Path) (interactive : Bool) :
    Cause → Pipeline σ × Outcome → Prop
  | reported {cause : Cause}
    (h : (p.process path interactive).2.error = some (cause.report path)) :
    Fails p path interactive cause (p.process path interactive)
  | crashed {w : Progress σ} (h : Underway p path w) (message : String) :
    Fails p path interactive (.crash message) (w.abandon path message)

variable {p q : Pipeline σ} {w : Progress σ} {interactive : Bool}

theorem Underway.replayMain (h : Underway p path w) (e : CachedSnapshot) :
    Underway p path (w.replayMain e) := by
  have hclaim := h.claim e.payload.path
  rw [Progress.replayMain]
  split
  next => exact h
  next =>
    split
    next w' hw =>
      rw [hw] at hclaim
      exact hclaim.add _
    next w' hw =>
      rw [hw] at hclaim
      exact hclaim.skip

theorem Underway.replayInclude (h : Underway p path w) (file : Path) :
    Underway p path (w.replayInclude file) := by
  have hclaim := h.claim file
  rw [Progress.replayInclude]
  split
  next w' hw =>
    rw [hw] at hclaim
    exact hclaim.skip
  next w' hw =>
    rw [hw] at hclaim
    have hload := hclaim.load file
    dsimp only
    split
    next => exact hload
    next =>
      split
      next => exact hload.add _
      next => exact hload

theorem Underway.foldl_replayInclude (h : Underway p path w) (files : List Path) :
    Underway p path (files.foldl Progress.replayInclude w) := by
  induction files generalizing w with
  | nil => exact h
  | cons file rest ih => exact ih (h.replayInclude file)

theorem Underway.claimRecords (h : Underway p path w) (records : List Record) :
    Underway p path (w.claimRecords records).1 := by
  rw [Progress.claimRecords]
  suffices hall : ∀ state : Progress σ × List Record, Underway p path state.1 →
      Underway p path (records.foldl _ state).1 from hall (w, []) h
  induction records with
  | nil => exact fun _ hw => hw
  | cons r rest ih =>
    intro state hw
    have hclaim := hw.claim (state.1.pipeline.normalize r.path)
    rw [List.foldl_cons]
    split
    next w' heq =>
      rw [heq] at hclaim
      exact ih (w', _) hclaim
    next w' heq =>
      rw [heq] at hclaim
      exact ih (w'.skip, _) hclaim.skip

theorem underway_extract (h : Underway p path (.start q)) (args : List String) :
    ∃ w, Underway p path w ∧ (q.extract path args).1 = w.pipeline ∧
      (q.extract path args).2.claims = w.claims := by
  have hcall : Underway p path (.start (q.called path args)) := h.call args
  rw [extract_eq]
  split
  next records _ => exact ⟨_, hcall.claimRecords records, rfl, rfl⟩
  next => exact ⟨_, hcall, rfl, rfl⟩
  next => exact ⟨_, hcall, rfl, rfl⟩

/-- What a job does leads from one such point to the next, up to its end. -/
theorem underway_process (p : Pipeline σ) (path : Path) (interactive : Bool) :
    ∃ w, Underway p path w ∧ (p.process path interactive).1 = w.pipeline ∧
      (p.process path interactive).2.claims = w.claims := by
  have hlook : Underway p path (.start (p.lookUp path).1) := Underway.lookUp .start
  rw [process_eq]
  split
  next => exact ⟨_, hlook, rfl, rfl⟩
  next e _ => exact ⟨_, (hlook.replayMain e).foldl_replayInclude _, rfl, rfl⟩
  next => exact underway_extract hlook _

theorem Underway.spent (h : Underway p path w) :
    Spent path p w.pipeline ∧ w.claims.Atop p.ownership w.pipeline.ownership := by
  induction h with
  | start => exact ⟨spent_of_tracker ⟨_, _, _, _, _, rfl⟩ rfl, Claims.atop_none _⟩
  | @lookUp w _ ih =>
    obtain ⟨hs, hc⟩ := ih
    have hlook : Spent path w.pipeline (w.pipeline.lookUp path).1 := spent_lookUp w.pipeline path
    refine ⟨hs.trans hlook, ?_⟩
    rw [Pipeline.lookUp]
    split <;> exact hc
  | call _ args ih => exact ⟨ih.1.trans (spent_of_tracker ⟨_, _, _, _, _, rfl⟩ rfl), ih.2⟩
  | setState _ hs ih => exact ⟨ih.1.trans (spent_setState _ hs), ih.2⟩
  | claim _ file ih =>
    exact ⟨ih.1.trans (spent_of_tracker ⟨_, _, _, _, _, rfl⟩ rfl), (ih.2.claim file).2⟩
  | skip _ ih => exact ⟨ih.1.trans (spent_of_tracker ⟨_, _, _, _, _, rfl⟩ rfl), ih.2⟩
  | @load w _ file ih =>
    have hstore := w.pipeline.snapshots.store_takeOrLoad w.pipeline.disk file
    exact ⟨ih.1.trans (spent_of_tracker ⟨_, _, _, _, _, rfl⟩ hstore), ih.2⟩
  | add _ f ih => exact ih

/-- Every error that a job reports has one of the causes. -/
theorem process_error {e : FileError} (h : (p.process path interactive).2.error = some e) :
    (p.process path interactive).2 = { path, error := some e } ∧
      ∃ cause : Cause, e = cause.report path := by
  rw [process_eq] at h ⊢
  split at h
  next hv =>
    cases h
    exact ⟨rfl, .vanished, rfl⟩
  next => cases h
  next =>
    rw [extract_eq] at h ⊢
    split at h
    next => cases h
    next message _ =>
      cases h
      exact ⟨rfl, .engine message, rfl⟩
    next message _ =>
      cases h
      exact ⟨rfl, .crash message, rfl⟩

/-- Whatever made a job fail, it reports that and nothing else. -/
theorem Fails.spec {cause : Cause} {r : Pipeline σ × Outcome}
    (h : p.Fails path interactive cause r) :
    r.2 = { path, error := some (cause.report path) } ∧ Spent path p r.1 ∧
      ∀ file, r.1.ownership.contains file = p.ownership.contains file := by
  cases h with
  | reported he =>
    obtain ⟨houtcome, -⟩ := process_error he
    obtain ⟨w, hw, hp, hclaims⟩ := underway_process p path interactive
    obtain ⟨hspent, hatop⟩ := hw.spent
    rw [houtcome] at hclaims
    rw [hp]
    refine ⟨houtcome, hspent, fun file => ?_⟩
    rw [hatop.contains, ← hclaims]
    exact Bool.or_false _
  | crashed hw message =>
    obtain ⟨hspent, hatop⟩ := hw.spent
    refine ⟨rfl, hspent.trans (spent_of_tracker ⟨_, _, _, _, _, rfl⟩ rfl), hatop.contains_drop⟩

end Pipeline

end SymbolIndex
