import SymbolIndex.Pipeline

/-! What the worker leaves alone. While a job is carried out nothing changes but the engine, the
cache in memory, the claims and the counters; the journal tells whether the engine was run. -/

namespace SymbolIndex

namespace Pipeline

variable {σ : Type}

/-- The second pipeline differs from the first in what carrying out a job may change. -/
def Worked (a b : Pipeline σ) : Prop :=
  ∃ snapshots ownership counters,
    b = { a with snapshots := snapshots, ownership := ownership, counters := counters } ∧
      a.counters.errors ⊆ counters.errors

theorem Worked.refl (p : Pipeline σ) : p.Worked p := ⟨_, _, _, rfl, fun _ he => he⟩

theorem Worked.trans {a b c : Pipeline σ} (h : a.Worked b) (h' : b.Worked c) : a.Worked c := by
  obtain ⟨_, _, _, rfl, he⟩ := h
  obtain ⟨_, _, _, rfl, he'⟩ := h'
  exact ⟨_, _, _, rfl, List.Subset.trans he he'⟩

theorem worked_claim (w : Progress σ) (path : Path) :
    w.pipeline.Worked (w.claim path).1.pipeline := ⟨_, _, _, rfl, fun _ he => he⟩

theorem worked_skip (w : Progress σ) : w.pipeline.Worked w.skip.pipeline := ⟨_, _, _, rfl, fun _ he => he⟩

theorem worked_replayMain (w : Progress σ) (e : CachedSnapshot) :
    w.pipeline.Worked (w.replayMain e).pipeline := by
  have hclaim := worked_claim w e.payload.path
  rw [Progress.replayMain]
  split
  next => exact .refl _
  next =>
    split
    next w' hw =>
      rw [hw] at hclaim
      exact hclaim
    next w' hw =>
      rw [hw] at hclaim
      exact hclaim.trans (worked_skip w')

theorem worked_replayInclude (w : Progress σ) (path : Path) :
    w.pipeline.Worked (w.replayInclude path).pipeline := by
  have hclaim := worked_claim w path
  rw [Progress.replayInclude]
  split
  next w' hw =>
    rw [hw] at hclaim
    exact hclaim.trans (worked_skip w')
  next w' hw =>
    rw [hw] at hclaim
    refine hclaim.trans ?_
    dsimp only
    split
    next => exact ⟨_, _, _, rfl, fun _ he => he⟩
    next => split <;> exact ⟨_, _, _, rfl, fun _ he => he⟩

theorem worked_replay (w : Progress σ) (e : CachedSnapshot) :
    w.pipeline.Worked (w.replay e).pipeline := by
  rw [Progress.replay]
  refine (worked_replayMain w e).trans ?_
  generalize w.replayMain e = w'
  generalize e.payload.dependencies.keys = paths
  induction paths generalizing w' with
  | nil => exact .refl _
  | cons path rest ih => exact (worked_replayInclude w' path).trans (ih _)

theorem worked_claimRecords (w : Progress σ) (records : List Record) :
    w.pipeline.Worked (w.claimRecords records).1.pipeline := by
  rw [Progress.claimRecords]
  suffices h : ∀ state : Progress σ × List Record,
      state.1.pipeline.Worked (records.foldl _ state).1.pipeline from h (w, [])
  induction records with
  | nil => exact fun state => .refl _
  | cons r rest ih =>
    intro state
    have hclaim := worked_claim state.1 (state.1.pipeline.normalize r.path)
    rw [List.foldl_cons]
    split
    next w' hw =>
      rw [hw] at hclaim
      exact hclaim.trans (ih (w', _))
    next w' hw =>
      rw [hw] at hclaim
      exact (hclaim.trans (worked_skip w')).trans (ih (w'.skip, _))

theorem worked_lookUp (p : Pipeline σ) (path : Path) : p.Worked (p.lookUp path).1 := by
  rw [lookUp]
  split <;> exact ⟨_, _, _, rfl, fun _ he => he⟩

def cached? (p : Pipeline σ) (path : Path) : Option CachedSnapshot :=
  if p.settings.cacheRead then (p.snapshots.tryLoad p.disk path).2 else none

theorem lookUp_snd (p : Pipeline σ) (path : Path) : (p.lookUp path).2 = p.cached? path := by
  rw [lookUp, cached?]
  split <;> rfl

/-- What is to be done about a requested file. -/
def verdict (p : Pipeline σ) (path : Path) (interactive : Bool) : Freshness :=
  Freshness.check p.disk path (p.project.argsFor path) interactive (p.cached? path)
    (p.unsaved.contains path)

def due (p : Pipeline σ) (path : Path) (interactive : Bool) : Bool :=
  Freshness.check p.disk path (p.project.argsFor path) interactive (p.cached? path)
    (p.unsaved.contains path) = .changed

/-- What the journal gets when a job is carried out. -/
def extraction (p : Pipeline σ) (path : Path) (interactive : Bool) : List PipelineEvent :=
  if p.due path interactive then [.extract path (p.project.argsFor path) p.unsaved] else []

variable [Engine σ]

/-- The pipeline once the engine has been called. -/
def called (p : Pipeline σ) (path : Path) (args : List String) : Pipeline σ :=
  { p with engine := (Engine.extract p.engine p.disk path args p.unsaved).1 }.log
    (.extract path args p.unsaved)

theorem extract_eq (p : Pipeline σ) (path : Path) (args : List String) :
    p.extract path args =
      match (Engine.extract p.engine p.disk path args p.unsaved).2 with
      | .records records => (p.called path args).indexRecords path args records
      | .failed message =>
        (p.called path args, { path, error := some (.engineFailed path message) })
      | .crashed message =>
        (p.called path args, { path, error := some (.internal path message) }) := rfl

/-- A job does what its verdict says, once the cache was looked up. -/
theorem process_eq (p : Pipeline σ) (path : Path) (interactive : Bool) :
    p.process path interactive =
      match p.verdict path interactive with
      | .vanished => ((p.lookUp path).1, { path, error := some (.vanished path) })
      | .fresh e =>
        let w := (Progress.start (p.lookUp path).1).replay e
        (w.pipeline, { path, files := w.files, claims := w.claims, fromCache := true })
      | .changed => (p.lookUp path).1.extract path (p.project.argsFor path) := by
  obtain ⟨_, _, _, hl, -⟩ := worked_lookUp p path
  have hcached := lookUp_snd p path
  rw [process, verdict]
  generalize p.lookUp path = looked at hl hcached
  obtain ⟨q, cached⟩ := looked
  dsimp only at hl hcached ⊢
  subst hl hcached
  rfl

theorem extract_spec (p : Pipeline σ) (path : Path) (args : List String) :
    (∃ engine, Worked { p with
        engine := engine
        journal := .extract path args p.unsaved :: p.journal } (p.extract path args).1) ∧
      (p.extract path args).2.path = path := by
  rw [extract_eq]
  split
  next => exact ⟨⟨_, worked_claimRecords (Progress.start _) _⟩, rfl⟩
  next => exact ⟨⟨_, .refl _⟩, rfl⟩
  next => exact ⟨⟨_, .refl _⟩, rfl⟩

theorem process_spec (p : Pipeline σ) (path : Path) (interactive : Bool) :
    (∃ engine, Worked { p with
        engine := engine
        journal := p.extraction path interactive ++ p.journal } (p.process path interactive).1) ∧
      (p.process path interactive).2.path = path := by
  obtain ⟨snapshots, ownership, counters, hl, herrors⟩ := worked_lookUp p path
  have hdue : p.due path interactive = decide (p.verdict path interactive = .changed) := rfl
  rw [process_eq, extraction, hdue, hl]
  cases p.verdict path interactive with
  | vanished => exact ⟨⟨p.engine, _, _, _, rfl, herrors⟩, rfl⟩
  | fresh entry =>
    obtain ⟨_, _, _, hw, he⟩ := worked_replay (Progress.start { p with
      snapshots := snapshots, ownership := ownership, counters := counters }) entry
    exact ⟨⟨p.engine, _, _, _, hw, List.Subset.trans herrors he⟩, rfl⟩
  | changed =>
    obtain ⟨⟨engine, _, _, _, hw, he⟩, hpath⟩ := extract_spec { p with
      snapshots := snapshots, ownership := ownership, counters := counters } path
      (p.project.argsFor path)
    exact ⟨⟨engine, _, _, _, hw, List.Subset.trans herrors he⟩, hpath⟩

theorem work_spec {p : Pipeline σ} {job : JobInHand} (h : p.inHand = some job) :
    ∃ engine outcome, outcome.path = job.path ∧
      Worked { p with
        engine := engine
        inHand := none
        tracker := p.tracker.setState job.path .mergeQueued
        outbox := p.outbox ++ [.job outcome]
        journal := p.extraction job.path job.interactive ++ p.journal } p.work := by
  obtain ⟨⟨engine, _, _, _, hp, he⟩, hpath⟩ :=
    process_spec { p with inHand := none } job.path job.interactive
  rw [work, h]
  dsimp only
  generalize Pipeline.process { p with inHand := none } job.path job.interactive = processed
    at hp hpath
  obtain ⟨p', outcome⟩ := processed
  dsimp only at hp hpath
  refine ⟨engine, outcome, hpath, ?_⟩
  rw [hp, ← hpath]
  exact ⟨_, _, _, rfl, he⟩

end Pipeline

end SymbolIndex
