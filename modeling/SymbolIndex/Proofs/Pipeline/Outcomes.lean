import SymbolIndex.Proofs.Pipeline.Moves
import SymbolIndex.Proofs.Ownership

/-! What comes of a job. A job that is answered from the cache replays its file and those of the
includes whose cached version is on disk and not known to be on record; any other job has a change for
every record of the engine. Files that another job holds are left out. -/

namespace SymbolIndex

open Std

theorem OrderedMap.pairwise_keys {κ ν : Type} [Ord κ] (m : OrderedMap κ ν) :
    m.keys.Pairwise fun a b => compare a b = .lt :=
  List.pairwise_map.mpr m.ascending

theorem OrderedMap.contains_congr {ν : Type} (m : OrderedMap Path ν) {p q : Path}
    (h : p.same q = true) : m.contains p = m.contains q :=
  congrArg Option.isSome (m.find?_congr (Path.compare_eq_iff.mpr h))

theorem OrderedSet.contains_congr (s : OrderedSet Path) {p q : Path} (h : p.same q = true) :
    s.contains p = s.contains q :=
  s.members.contains_congr h

theorem Freshness.check_eq_fresh {d : Disk} {path : Path} {args : List String}
    {interactive inEditor : Bool} {cached : Option CachedSnapshot} {e : CachedSnapshot}
    (h : check d path args interactive cached inEditor = .fresh e) :
    inEditor = false ∧ cached = some e ∧ d.modified? path = some e.modified := by
  unfold check at h
  cases inEditor with
  | true => cases h
  | false =>
    rw [if_neg Bool.false_ne_true] at h
    split at h
    next => cases h
    next =>
      cases cached with
      | none => cases h
      | some e' =>
        dsimp only at h
        split at h
        next hd =>
          cases h
          simp only [describes, unchanged, Bool.and_eq_true, decide_eq_true_eq] at hd
          exact ⟨rfl, rfl, hd.2.1.1.2⟩
        next => cases h

namespace Pipeline

variable {σ : Type}

/-- The entry of a requested file, unless the database is known to hold it or another job holds the
file. -/
def resent? (p : Pipeline σ) (e : CachedSnapshot) : Option CachedSnapshot :=
  if p.timestamps.find? e.payload.path = some e.modified ∨ p.ownership.contains e.payload.path then none
  else some e

/-- The entry that an include is replayed from. -/
def restored? (p : Pipeline σ) (path : Path) : Option CachedSnapshot :=
  if p.ownership.contains path then none
  else (p.snapshots.peek? p.disk path).filter fun e =>
    p.disk.modified? path = some e.modified && !decide (p.timestamps.find? path = some e.modified)

/-- What a job replays that is answered with an entry. -/
def replays (p : Pipeline σ) (e : CachedSnapshot) : List CachedSnapshot :=
  (p.resent? e).toList ++ e.payload.dependencies.keys.filterMap p.restored?

/-- The records of an engine whose files no other job holds. -/
def granted (p : Pipeline σ) (records : List Record) : List Record :=
  records.filter fun r => !p.ownership.contains (p.normalize r.path)

/-- A job in progress, in front of a pipeline as it was before, after some includes. -/
structure Replaying (p : Pipeline σ) (seen : List Path) (w : Progress σ) : Prop where
  rest : ∃ snapshots ownership counters, w.pipeline = { p with
    snapshots := snapshots
    ownership := ownership
    counters := counters }
  claims : w.claims.Atop p.ownership w.pipeline.ownership
  distinct : w.pipeline.snapshots.loaded.Distinct
  peek : ∀ q, (∀ k ∈ seen, k.same q = false) →
    w.pipeline.snapshots.peek? p.disk q = p.snapshots.peek? p.disk q
  attests : ∀ good, p.snapshots.Attests good p.disk → w.pipeline.snapshots.Attests good p.disk

variable {p : Pipeline σ} {seen : List Path} {w : Progress σ}

theorem replaying_start (hd : p.snapshots.loaded.Distinct) : Replaying p [] (Progress.start p) :=
  ⟨⟨_, _, _, rfl⟩, Claims.atop_none _, hd, fun _ _ => rfl, fun _ h => h⟩

theorem Replaying.claim (h : Replaying p seen w) (path : Path) :
    (w.claim path).2 = !p.ownership.contains path ∧ Replaying p seen (w.claim path).1 ∧
      (w.claim path).1.files = w.files := by
  obtain ⟨hheld, hclaims⟩ := h.claims.claim path
  obtain ⟨snapshots, _, counters, hw⟩ := h.rest
  let ownership := (Claims.claim w.pipeline.ownership w.claims path).1
  have hrest : (w.claim path).1.pipeline = { p with
      snapshots := snapshots, ownership := ownership, counters := counters } :=
    congrArg (fun q : Pipeline σ => { q with ownership := ownership }) hw
  exact ⟨hheld, ⟨⟨_, _, _, hrest⟩, hclaims, h.distinct, h.peek, h.attests⟩, rfl⟩

theorem Replaying.skip (h : Replaying p seen w) : Replaying p seen w.skip := by
  obtain ⟨_, _, _, hw⟩ := h.rest
  refine ⟨?_, h.claims, h.distinct, h.peek, h.attests⟩
  rw [Progress.skip, hw]
  exact ⟨_, _, _, rfl⟩

theorem Replaying.add (h : Replaying p seen w) (e : CachedSnapshot) :
    Replaying p seen (w.add (w.pipeline.replayed e)) ∧
      (w.add (w.pipeline.replayed e)).files = w.files ++ [p.replayed e] := by
  obtain ⟨_, _, _, hw⟩ := h.rest
  refine ⟨⟨h.rest, h.claims, h.distinct, h.peek, h.attests⟩, ?_⟩
  rw [Progress.add, hw]
  rfl

theorem Replaying.isCurrent (h : Replaying p seen w) (path : Path) (t : Timestamp) :
    w.isCurrent path t = decide (p.timestamps.find? path = some t) := by
  obtain ⟨_, _, _, hw⟩ := h.rest
  rw [Progress.isCurrent, hw]

theorem Replaying.replayMain (h : Replaying p seen w) (e : CachedSnapshot) :
    Replaying p seen (w.replayMain e) ∧
      (w.replayMain e).files = w.files ++ ((p.resent? e).toList).map p.replayed := by
  rw [Progress.replayMain, h.isCurrent, resent?]
  by_cases hc : p.timestamps.find? e.payload.path = some e.modified
  · simp only [hc, decide_true, if_true, true_or]
    exact ⟨h, by simp⟩
  · obtain ⟨hheld, hclaim, hfiles⟩ := h.claim e.payload.path
    simp only [hc, decide_false, Bool.false_eq_true, if_false, false_or]
    generalize w.claim e.payload.path = claimed at hheld hclaim hfiles
    obtain ⟨w', held⟩ := claimed
    dsimp only at hheld hclaim hfiles
    subst hheld
    cases p.ownership.contains e.payload.path with
    | true => exact ⟨hclaim.skip, by simp [Progress.skip, hfiles]⟩
    | false =>
      obtain ⟨hadd, hadded⟩ := hclaim.add e
      exact ⟨hadd, by simp [hadded, hfiles]⟩

/-- What the cache gives for an include is what it had at first, since it was not asked for before. -/
theorem Replaying.takeOrLoad (h : Replaying p seen w) {path : Path}
    (hnew : ∀ k ∈ seen, k.same path = false) :
    (w.pipeline.snapshots.takeOrLoad w.pipeline.disk path).2 = p.snapshots.peek? p.disk path ∧
      Replaying p (path :: seen) { w with pipeline := { w.pipeline with
        snapshots := (w.pipeline.snapshots.takeOrLoad w.pipeline.disk path).1 } } := by
  obtain ⟨_, ownership, counters, hw⟩ := h.rest
  have hdisk : w.pipeline.disk = p.disk := by rw [hw]
  rw [hdisk]
  refine ⟨h.peek path hnew, ⟨_, ownership, counters, by rw [hw]⟩, h.claims, ?_, fun q hq => ?_,
    fun good hgood => (h.attests good hgood).takeOrLoad path⟩
  · rw [SnapshotCache.takeOrLoad_fst]
    exact h.distinct.take path
  · obtain ⟨hpath, hq⟩ := List.forall_mem_cons.mp hq
    dsimp only
    rw [SnapshotCache.peek?_takeOrLoad h.distinct hpath]
    exact h.peek q hq

theorem Replaying.replayInclude (h : Replaying p seen w) {path : Path}
    (hnew : ∀ k ∈ seen, k.same path = false) :
    Replaying p (path :: seen) (w.replayInclude path) ∧
      (w.replayInclude path).files = w.files ++ ((p.restored? path).toList).map p.replayed := by
  obtain ⟨hheld, hclaim, hfiles⟩ := h.claim path
  rw [Progress.replayInclude, restored?]
  generalize w.claim path = claimed at hheld hclaim hfiles
  obtain ⟨w', held⟩ := claimed
  dsimp only at hheld hclaim hfiles
  subst hheld
  cases p.ownership.contains path with
  | true =>
    have hskip := hclaim.skip
    refine ⟨⟨hskip.rest, hskip.claims, hskip.distinct, fun q hq => ?_, hskip.attests⟩, ?_⟩
    · exact hskip.peek q fun k hk => hq k (List.mem_cons_of_mem _ hk)
    · simp [Progress.skip, hfiles]
  | false =>
    obtain ⟨htaken, hafter⟩ := hclaim.takeOrLoad hnew
    obtain ⟨_, _, _, hw⟩ := hclaim.rest
    have htime : w'.pipeline.disk.modified? path = p.disk.modified? path := by rw [hw]
    simp only [Bool.not_false, Bool.false_eq_true, if_false]
    generalize w'.pipeline.snapshots.takeOrLoad w'.pipeline.disk path = taken at htaken hafter
    obtain ⟨snapshots, entry⟩ := taken
    dsimp only at htaken hafter ⊢
    rw [← htaken]
    cases entry with
    | none => exact ⟨hafter, by simp [hfiles]⟩
    | some e =>
      dsimp only
      rw [hafter.isCurrent path e.modified, htime, Option.filter_some]
      split
      next =>
        obtain ⟨hadd, hadded⟩ := hafter.add e
        refine ⟨hadd, hadded.trans ?_⟩
        simp [hfiles]
      next => exact ⟨hafter, by simp [hfiles]⟩

theorem Replaying.foldl_replayInclude (h : Replaying p seen w) {keys : List Path}
    (hkeys : keys.Pairwise fun a b => a.same b = false)
    (hnew : ∀ path ∈ keys, ∀ k ∈ seen, k.same path = false) :
    (∃ seen', Replaying p seen' (keys.foldl Progress.replayInclude w)) ∧
      (keys.foldl Progress.replayInclude w).files =
        w.files ++ (keys.filterMap p.restored?).map p.replayed := by
  induction keys generalizing seen w with
  | nil => exact ⟨⟨_, h⟩, by simp⟩
  | cons path rest ih =>
    obtain ⟨hfirst, hrest⟩ := List.pairwise_cons.mp hkeys
    obtain ⟨hpath, hnew⟩ := List.forall_mem_cons.mp hnew
    obtain ⟨hnext, hfiles⟩ := h.replayInclude hpath
    obtain ⟨hlast, hall⟩ := ih hnext hrest fun q hq k hk => by
      rcases List.mem_cons.mp hk with rfl | hk
      · exact hfirst q hq
      · exact hnew q hq k hk
    refine ⟨hlast, hall.trans ?_⟩
    rw [hfiles, List.filterMap_cons]
    cases p.restored? path <;> simp

/-- A job that is answered with an entry replays exactly what is due. -/
theorem replay_spec (hd : p.snapshots.loaded.Distinct) (e : CachedSnapshot) :
    (∃ seen, Replaying p seen ((Progress.start p).replay e)) ∧
      ((Progress.start p).replay e).files = (p.replays e).map p.replayed := by
  obtain ⟨hmain, hfiles⟩ := (replaying_start hd).replayMain e
  have hkeys : e.payload.dependencies.keys.Pairwise fun a b => a.same b = false := by
    refine e.payload.dependencies.pairwise_keys.imp fun {a b} hlt => ?_
    rw [Bool.eq_false_iff]
    intro hs
    rw [Path.compare_eq_iff.mpr hs] at hlt
    cases hlt
  obtain ⟨hlast, hall⟩ := hmain.foldl_replayInclude hkeys fun _ _ k hk => absurd hk List.not_mem_nil
  refine ⟨hlast, hall.trans ?_⟩
  rw [hfiles, replays, List.map_append]
  rfl

/-- A job gets the records whose files no other job holds. -/
theorem claimRecords_spec (hd : p.snapshots.loaded.Distinct) (records : List Record) :
    Replaying p [] ((Progress.start p).claimRecords records).1 ∧
      ((Progress.start p).claimRecords records).2 = p.granted records := by
  rw [Progress.claimRecords, granted]
  suffices aux : ∀ state : Progress σ × List Record, Replaying p [] state.1 →
      Replaying p [] (records.foldl _ state).1 ∧ (records.foldl _ state).2 =
        state.2 ++ records.filter fun r => !p.ownership.contains (p.normalize r.path) from
    aux (.start p, []) (replaying_start hd)
  induction records with
  | nil => exact fun state h => ⟨h, by simp⟩
  | cons r rest ih =>
    intro state h
    obtain ⟨_, _, _, hw⟩ := h.rest
    have hnormal : state.1.pipeline.normalize r.path = p.normalize r.path := by
      rw [normalize, hw]
      rfl
    obtain ⟨hheld, hclaim, -⟩ := h.claim (p.normalize r.path)
    rw [List.foldl_cons, hnormal, List.filter_cons]
    generalize state.1.claim (p.normalize r.path) = claimed at hheld hclaim
    obtain ⟨w', held⟩ := claimed
    dsimp only at hheld hclaim
    subst hheld
    cases p.ownership.contains (p.normalize r.path) with
    | true => exact ih (w'.skip, state.2) hclaim.skip
    | false =>
      obtain ⟨hlast, hall⟩ := ih (w', state.2 ++ [r]) hclaim
      exact ⟨hlast, hall.trans (by simp)⟩

/-- Looking into the cache leaves the files there as they are. -/
theorem lookUp_frame (hd : p.snapshots.loaded.Distinct) (path : Path) :
    ∃ snapshots, (p.lookUp path).1 = { p with snapshots := snapshots } ∧
      snapshots.loaded.Distinct ∧
      (∀ good, p.snapshots.Attests good p.disk → snapshots.Attests good p.disk) ∧
      p.cached? path = if p.settings.cacheRead then p.snapshots.peek? p.disk path else none := by
  obtain ⟨loaded, hload, hdistinct, hpeek, -⟩ := SnapshotCache.tryLoad_spec hd p.disk path
  rw [lookUp, cached?]
  split
  next =>
    refine ⟨(p.snapshots.tryLoad p.disk path).1, rfl, ?_, fun good h => h.tryLoad path, hpeek⟩
    rw [hload]
    exact hdistinct
  next => exact ⟨p.snapshots, rfl, hd, fun good h => h, rfl⟩

theorem indexRecords_spec (hd : p.snapshots.loaded.Distinct) (path : Path) (args : List String)
    (records : List Record) :
    Replaying p [] ⟨(p.indexRecords path args records).1,
        (p.indexRecords path args records).2.claims, []⟩ ∧
      (p.indexRecords path args records).2.files =
        (p.granted records).map (p.recordChange args p.unsaved) := by
  obtain ⟨hclaimed, hrecords⟩ := claimRecords_spec hd records
  obtain ⟨_, _, _, hw⟩ := hclaimed.rest
  rw [indexRecords]
  generalize (Progress.start p).claimRecords records = claimed at hclaimed hrecords hw
  obtain ⟨w, held⟩ := claimed
  dsimp only at hclaimed hrecords hw ⊢
  refine ⟨⟨hclaimed.rest, hclaimed.claims, hclaimed.distinct, hclaimed.peek, hclaimed.attests⟩, ?_⟩
  rw [hrecords, hw]
  rfl

variable [Engine σ]

/-- The engine's answer about a file. -/
def answer (p : Pipeline σ) (path : Path) : Extraction :=
  (Engine.extract p.engine p.disk path (p.project.argsFor path) p.unsaved).2

/-- The files that a job changes. -/
def emitted (p : Pipeline σ) (path : Path) (interactive : Bool) : List FileChange :=
  match p.verdict path interactive with
  | .vanished => []
  | .fresh e => ((p.lookUp path).1.replays e).map p.replayed
  | .changed =>
    match p.answer path with
    | .records records =>
      (p.granted records).map (p.recordChange (p.project.argsFor path) p.unsaved)
    | .failed _ | .crashed _ => []

/-- What carrying out a job comes to. -/
structure Answered (p : Pipeline σ) (path : Path) (interactive : Bool) (r : Pipeline σ × Outcome) :
    Prop where
  cache : ∀ good, p.snapshots.Attests good p.disk → r.1.snapshots.Attests good p.disk
  claims : r.2.claims.Atop p.ownership r.1.ownership
  files : r.2.files = p.emitted path interactive
  fromCache : r.2.fromCache = true ↔ ∃ e, p.verdict path interactive = .fresh e
  error : r.2.error = none ↔ (∃ e, p.verdict path interactive = .fresh e) ∨
    p.verdict path interactive = .changed ∧ ∃ records, p.answer path = .records records

/-- A job that is due comes to what the engine answers. The cache was looked up before. -/
theorem extract_answered {path : Path} {interactive : Bool}
    (hv : p.verdict path interactive = .changed) {snapshots : SnapshotCache}
    (hd : snapshots.loaded.Distinct)
    (hattests : ∀ good, p.snapshots.Attests good p.disk → snapshots.Attests good p.disk) :
    p.Answered path interactive
      (Pipeline.extract { p with snapshots := snapshots } path (p.project.argsFor path)) := by
  have hanswer :
      (Engine.extract p.engine p.disk path (p.project.argsFor path) p.unsaved).2 = p.answer path :=
    rfl
  rw [extract_eq, hanswer]
  cases ha : p.answer path with
  | failed message =>
    exact ⟨hattests, Claims.atop_none _, by rw [emitted, hv, ha], by simp [hv], by simp [hv, ha]⟩
  | crashed message =>
    exact ⟨hattests, Claims.atop_none _, by rw [emitted, hv, ha], by simp [hv], by simp [hv, ha]⟩
  | records records =>
    let asked := called { p with snapshots := snapshots } path (p.project.argsFor path)
    obtain ⟨hw, hfiles⟩ :=
      indexRecords_spec (p := asked) hd path (p.project.argsFor path) records
    refine ⟨fun good h => hw.attests good (hattests good h), hw.claims, ?_, ?_, ?_⟩
    · rw [emitted, hv, ha]
      exact hfiles
    · simp [hv, indexRecords]
    · simp [hv, ha, indexRecords]

theorem process_answered (hd : p.snapshots.loaded.Distinct) (path : Path) (interactive : Bool) :
    p.Answered path interactive (p.process path interactive) := by
  obtain ⟨snapshots, hl, hdistinct, hattests, -⟩ := p.lookUp_frame hd path
  rw [process_eq, hl]
  cases hv : p.verdict path interactive with
  | vanished => exact ⟨hattests, Claims.atop_none _, by rw [emitted, hv], by simp [hv], by simp [hv]⟩
  | fresh e =>
    obtain ⟨⟨seen, hw⟩, hfiles⟩ :=
      replay_spec (p := { p with snapshots := snapshots }) hdistinct e
    refine ⟨fun good h => hw.attests good (hattests good h), hw.claims, ?_, by simp [hv], by simp [hv]⟩
    rw [emitted, hv, hl]
    exact hfiles
  | changed => exact extract_answered hv hdistinct hattests

/-- What comes of the job in hand. -/
def outcome (p : Pipeline σ) (job : JobInHand) : Outcome :=
  (Pipeline.process { p with inHand := none } job.path job.interactive).2

end Pipeline

end SymbolIndex
