import SymbolIndex.Proofs.Pipeline.Promises
import SymbolIndex.Proofs.Pipeline.Replayed

/-! Files that come back after a removal. The removal and the changes of all later jobs go to the merger
in the order of their making, so what is on record in the end was delivered by a job that was carried
out after the removal. The file's own job delivers it unless another job holds the file at that moment,
which may give it up without a change, or its time is still known because the removal is not merged. -/

namespace SymbolIndex

namespace Pipeline

variable {σ : Type} {past : List Finding} {p : Pipeline σ} {q : Path}

/-- What is on record once all that waits is merged. -/
def prospect (p : Pipeline σ) : Path → Option Snapshot :=
  p.outbox.foldl (fun known m => m.update (·.delta.snapshot) known) p.db.snapshot?

theorem prospect_mergeFirst (h : Sound past p) (size : Nat) :
    (p.mergeFirst size).prospect = p.prospect := by
  obtain ⟨-, hrecord⟩ := h.mergeFirst size
  obtain ⟨hout, -⟩ := p.mergeFirst_frame size
  rw [prospect, hout, hrecord, ← List.foldl_append, List.take_append_drop, prospect]

theorem prospect_sameFiles {a b : Pipeline σ} (h : a.SameFiles b) : b.prospect = a.prospect := by
  rw [prospect, prospect, h.outbox, h.db]

theorem prospect_notifyRemoved (p : Pipeline σ) (path : Path) :
    (p.notifyRemoved path).prospect =
      fun q => if q.same (p.normalize path) then none else p.prospect q := by
  rw [prospect, notifyRemoved]
  dsimp only
  rw [List.foldl_append]
  rfl

variable [Engine σ] {job : JobInHand}

/-- The job has a change to the file. -/
def Delivers (t : Pipeline σ) (job : JobInHand) (q : Path) : Prop :=
  ∃ f ∈ (t.outcome job).files, f.path.same q = true

theorem prospect_work (hj : p.inHand = some job) : p.work.prospect =
    (MergeMessage.job (p.outcome job)).update (·.delta.snapshot) p.prospect := by
  obtain ⟨hout, hdb, -⟩ := work_submits hj
  rw [prospect, hout, hdb, List.foldl_append]
  rfl

theorem isSome_prospect_work (h : Run past p) (hj : p.inHand = some job) (q : Path) :
    (p.work.prospect q).isSome = true ↔ (p.prospect q).isSome = true ∨ p.Delivers job q := by
  have hmem : MergeMessage.job (p.outcome job) ∈ p.work.outbox := by
    rw [(work_submits hj).1]
    exact List.mem_append_right _ (List.mem_singleton_self _)
  have hsome : ∀ f ∈ (p.outcome job).files, f.delta.snapshot.isSome = true := by
    intro f hf
    obtain ⟨s, hs⟩ := h.work.sound.carried _ hmem f hf
    rw [hs.snapshot]
    rfl
  rw [prospect_work hj]
  rcases MergeMessage.update_job (p.outcome job) (·.delta.snapshot) p.prospect q with
    ⟨hnone, hkept⟩ | ⟨f, hf, hs, hbrought⟩
  · have hnot : ¬ p.Delivers job q := by
      rintro ⟨f, hf, hs⟩
      rw [Path.same_comm, hnone f hf] at hs
      cases hs
    rw [hkept, or_iff_left hnot]
  · rw [Path.same_comm] at hs
    rw [hbrought]
    exact iff_of_true (hsome f hf) (.inr ⟨f, hf, hs⟩)

/-- Only jobs that deliver a file put it on record, and only its removal takes it back. -/
theorem isSome_prospect_act (h : Run past p) {m : Move σ}
    (hr : ∀ path, m = .notifyRemoved path → (p.normalize path).same q = false) :
    ((p.act m).prospect q).isSome = true ↔ (p.prospect q).isSome = true ∨
      m = .work ∧ ∃ job, p.inHand = some job ∧ p.Delivers job q := by
  by_cases hq : m.quiet = true
  · have hnot : m ≠ .work := fun he => by
      rw [he] at hq
      cases hq
    rw [prospect_sameFiles (p.sameFiles_act hq), or_iff_left fun h => hnot h.1]
  · cases m with
    | notifyRemoved path =>
      have hother := hr path rfl
      rw [Path.same_comm] at hother
      rw [act, prospect_notifyRemoved]
      simp [hother]
    | merge size =>
      rw [act, prospect_mergeFirst h.sound]
      simp
    | disk d =>
      have hsame : Pipeline.prospect { p with disk := d } = p.prospect := rfl
      rw [act, hsame]
      simp
    | work =>
      cases hj : p.inHand with
      | none =>
        rw [act, work, hj]
        simp
      | some job =>
        rw [act, isSome_prospect_work h hj]
        simp
    | _ => exact absurd rfl hq

theorem isSome_prospect_actAll {moves : List (Move σ)} (h : Run past p)
    (hm : AllowsAll past p moves)
    (hr : ∀ path, .notifyRemoved path ∈ moves → (p.normalize path).same q = false) :
    ((p.actAll moves).prospect q).isSome = true ↔ (p.prospect q).isSome = true ∨
      ∃ t job, p.CarriesOut moves t job ∧ t.Delivers job q := by
  induction moves generalizing past p with
  | nil => simp [actAll, carriesOut_nil]
  | cons m rest ih =>
    have hnormal : ∀ path, (p.act m).normalize path = p.normalize path := by
      intro path
      rw [normalize, normalize, (act_frame hm.1).2.2]
    have hrest := ih (h.act m hm.1) hm.2 fun path hp => by
      rw [hnormal]
      exact hr path (List.mem_cons_of_mem _ hp)
    have hstep := isSome_prospect_act (m := m) h fun path hp => hr path (hp ▸ List.mem_cons_self)
    rw [actAll, List.foldl_cons]
    refine hrest.trans ?_
    rw [hstep, or_assoc]
    refine or_congr_right ⟨?_, ?_⟩
    · rintro (⟨rfl, job, hj, hd⟩ | ⟨t, job, hc, hd⟩)
      · exact ⟨p, job, carriesOut_cons.mpr (.inl ⟨rfl, rfl, hj⟩), hd⟩
      · exact ⟨t, job, carriesOut_cons.mpr (.inr hc), hd⟩
    · rintro ⟨t, job, hc, hd⟩
      rcases carriesOut_cons.mp hc with ⟨rfl, rfl, hj⟩ | hc
      · exact .inl ⟨rfl, job, hj, hd⟩
      · exact .inr ⟨t, job, hc, hd⟩

/-- A job that is answered from the cache has a change to its own file unless the database is known to
hold it or another job holds the file. -/
theorem Run.mem_replays_iff {t : Pipeline σ} (h : Run past t) (hj : t.inHand = some job)
    {e : CachedSnapshot} (hv : t.verdict job.path job.interactive = .fresh e) :
    (∃ e' ∈ (t.lookUp job.path).1.replays e, e'.payload.path.same job.path = true) ↔
      t.ownership.contains job.path = false ∧ t.timestamps.find? job.path ≠ some e.modified := by
  obtain ⟨hjob, he, hm, -, snapshots, hl, hattests⟩ := h.verdict_inHand hj hv
  rw [← he.modified] at hm
  rw [hl]
  constructor
  · rintro ⟨e', he', hs⟩
    rcases mem_replays.mp he' with he' | ⟨k, hk, he'⟩
    · rw [resent?, Option.ite_none_left_eq_some, not_or] at he'
      obtain ⟨⟨htime, hfree⟩, -⟩ := he'
      rw [OrderedMap.find?_congr _ (Path.compare_eq_iff.mpr he.path)] at htime
      rw [OrderedSet.contains_congr _ he.path] at hfree
      exact ⟨Bool.eq_false_iff.mpr hfree, htime⟩
    · -- The file includes itself, and the include is looked up under the same spelling.
      rw [restored?, Option.ite_none_left_eq_some, Option.filter_eq_some_iff] at he'
      obtain ⟨hfree, hpeek, hnow⟩ := he'
      have hks : job.path.same k = true :=
        Path.same_trans (by rw [Path.same_comm]; exact hs) (hattests.peek? hpeek).path
      have hkj : job.path = k :=
        hjob.eq_of_same h.orderly.cwd ((h.canonical he.good).2 k hk) hks
      subst hkj
      dsimp only at hfree hnow
      rw [hm, Bool.and_eq_true, decide_eq_true_eq, Bool.not_eq_true', decide_eq_false_iff_not] at hnow
      rw [hnow.1]
      exact ⟨Bool.eq_false_iff.mpr hfree, hnow.2⟩
  · rintro ⟨hfree, htime⟩
    refine ⟨e, mem_replays.mpr (.inl ?_), he.path⟩
    rw [resent?, if_neg]
    rw [OrderedMap.find?_congr _ (Path.compare_eq_iff.mpr he.path),
      OrderedSet.contains_congr _ he.path, not_or]
    exact ⟨htime, Bool.eq_false_iff.mp hfree⟩

/-- A job without an error, for a file that the engine has a record of, delivers the file unless
another job holds it or the database is known to hold what is replayed. -/
theorem Run.delivers_iff {t : Pipeline σ} (h : Run past t) (hj : t.inHand = some job)
    (he : (t.outcome job).error = none) (hrecord : ∀ records, t.answer job.path = .records records →
      ∃ r ∈ records, (t.normalize r.path).same job.path = true) :
    t.Delivers job job.path ↔ t.ownership.contains job.path = false ∧
      ∀ e, t.verdict job.path job.interactive = .fresh e →
        t.timestamps.find? job.path ≠ some e.modified := by
  obtain ⟨hfiles, -, herror⟩ := outcome_answered h.sound.cache.distinct job
  rw [Delivers, hfiles, emitted]
  rcases herror.mp he with ⟨e, hv⟩ | ⟨hv, records, ha⟩
  · have hreplayed := h.mem_replays_iff hj hv
    rw [hv]
    refine Iff.trans ⟨?_, ?_⟩ (hreplayed.trans (and_congr_right fun _ => ?_))
    · rintro ⟨f, hf, hs⟩
      obtain ⟨e', he', rfl⟩ := List.mem_map.mp hf
      exact ⟨e', he', hs⟩
    · rintro ⟨e', he', hs⟩
      exact ⟨_, List.mem_map_of_mem he', hs⟩
    · exact ⟨fun htime e' he' => by cases he'; exact htime, fun htime => htime e rfl⟩
  · have hpath : ∀ r : Record, (t.recordChange (t.project.argsFor job.path) t.unsaved r).path =
        t.normalize r.path := by
      intro r
      rw [recordChange, remapRecord_eq]
      split <;> exact (r.entry_frame _ _).1
    rw [hv, ha]
    constructor
    · rintro ⟨f, hf, hs⟩
      obtain ⟨r, hr, rfl⟩ := List.mem_map.mp hf
      obtain ⟨-, hfree⟩ := List.mem_filter.mp hr
      rw [hpath] at hs
      rw [OrderedSet.contains_congr _ hs] at hfree
      refine ⟨by simpa using hfree, fun e he => ?_⟩
      cases he
    · rintro ⟨hfree, -⟩
      obtain ⟨r, hr, hs⟩ := hrecord records ha
      refine ⟨_, List.mem_map_of_mem (List.mem_filter.mpr ⟨hr, ?_⟩), by rw [hpath]; exact hs⟩
      rw [OrderedSet.contains_congr _ hs]
      simpa using hfree

omit [Engine σ] in
/-- A file whose time is known is on record, and stays so while no removal of it waits. -/
theorem isSome_prospect_of_known {t : Pipeline σ} (h : Sound past t) {time : Timestamp}
    (ht : t.timestamps.find? q = some time)
    (hw : ∀ path, .remove path ∈ t.outbox → path.same q = false) : (t.prospect q).isSome = true := by
  obtain ⟨s, hs, -⟩ := h.times q time ht
  have hcarried := h.carried
  rw [prospect]
  have hheld : (t.db.snapshot? q).isSome = true := by rw [hs]; rfl
  generalize t.db.snapshot? = known at hheld
  generalize t.outbox = outbox at hw hcarried
  induction outbox generalizing known with
  | nil => exact hheld
  | cons m rest ih =>
    obtain ⟨hm, hrest⟩ := List.forall_mem_cons.mp hcarried
    rw [List.foldl_cons]
    refine ih _ ?_ (fun path hp => hw path (List.mem_cons_of_mem _ hp)) hrest
    cases m with
    | remove path =>
      have hother := hw path List.mem_cons_self
      rw [Path.same_comm] at hother
      simp only [MergeMessage.update, hother, Bool.false_eq_true, if_false]
      exact hheld
    | job outcome =>
      rcases MergeMessage.update_job outcome (·.delta.snapshot) known q with
        ⟨-, hkept⟩ | ⟨f, hf, -, hbrought⟩
      · rw [hkept]
        exact hheld
      · obtain ⟨s', hs'⟩ := hm f hf
        rw [hbrought, hs'.snapshot]
        rfl

/-- A job of the file that is carried out while nothing that waits claims or removes the file leads to
a record. -/
theorem Run.recorded_of_free {t : Pipeline σ} (h : Run past t) (hj : t.inHand = some job)
    (he : (t.outcome job).error = none) (hrecord : ∀ records, t.answer job.path = .records records →
      ∃ r ∈ records, (t.normalize r.path).same job.path = true)
    (hfree : ∀ m ∈ t.outbox, m.claims.holds job.path = false ∧
      ∀ r, m = .remove r → r.same job.path = false) {later : List (Move σ)}
    (hm : AllowsAll past t (.work :: later))
    (hr : ∀ r, .notifyRemoved r ∈ later → (t.normalize r).same job.path = false) :
    ((t.actAll (.work :: later)).prospect job.path).isSome = true := by
  have hkept := isSome_prospect_actAll h hm fun r hmem => by
    rcases List.mem_cons.mp hmem with hmem | hmem
    · cases hmem
    · exact hr r hmem
  refine hkept.mpr ?_
  cases ht : t.timestamps.find? job.path with
  | some time =>
    exact .inl (isSome_prospect_of_known h.sound ht fun r hmem => (hfree _ hmem).2 r rfl)
  | none =>
    have hunclaimed : t.ownership.contains job.path = false := by
      rw [Bool.eq_false_iff]
      intro hc
      obtain ⟨m, hmem, hholds⟩ := h.sound.claimed _ hc
      rw [(hfree m hmem).1] at hholds
      cases hholds
    have hdelivers := (h.delivers_iff hj he hrecord).mpr ⟨hunclaimed, fun e _ htime => by
      cases ht.symm.trans htime⟩
    exact .inr ⟨t, job, carriesOut_cons.mpr (.inl ⟨rfl, rfl, hj⟩), hdelivers⟩

/-- A request that follows a removal is taken up. In the end the file is on record exactly if a job
that was carried out after the removal delivered it. The file's own job does so unless another job holds
the file or its time is known; if nothing that waits for the merger claims or removes the file at that
moment, the file is on record in the end. -/
theorem request_after_removal (h : Run past p) (path : Path) (interactive : Bool)
    {before after : List (Move σ)}
    (hm : AllowsAll past (p.notifyRemoved path) (before ++ .enqueue path interactive :: after))
    (hr : ∀ r, .notifyRemoved r ∈ before ++ after →
      (p.normalize r).same (p.normalize path) = false)
    (hf : p.filter.allows (p.normalize path) = true)
    (hi : ((p.notifyRemoved path).actAll
      (before ++ .enqueue path interactive :: after)).isIdle = true) :
    let q := p.normalize path
    let removed := p.notifyRemoved path
    let requested := removed.actAll (before ++ [.enqueue path interactive])
    let last := requested.actAll after
    ((last.db.snapshot? q).isSome = true ↔ ∃ t job,
        removed.CarriesOut (before ++ .enqueue path interactive :: after) t job ∧ t.Delivers job q) ∧
      (∃ t job, requested.CarriesOut after t job ∧ job.path = q) ∧
      ∀ t job, requested.CarriesOut after t job → job.path = q → (t.outcome job).error = none →
        (∀ records, t.answer q = .records records →
          ∃ r ∈ records, (t.normalize r.path).same q = true) →
        (t.Delivers job q ↔ t.ownership.contains q = false ∧
          ∀ e, t.verdict q job.interactive = .fresh e → t.timestamps.find? q ≠ some e.modified) ∧
        ((∀ m ∈ t.outbox, m.claims.holds q = false ∧ ∀ r, m = .remove r → r.same q = false) →
          (last.db.snapshot? q).isSome = true) := by
  intro q removed requested last
  have hremoved : Run past removed := h.move (.notifyRemoved path) trivial rfl
  have hmoves : before ++ .enqueue path interactive :: after =
      (before ++ [.enqueue path interactive]) ++ after := by simp
  have hlast : removed.actAll (before ++ .enqueue path interactive :: after) = last := by
    rw [hmoves, actAll_append]
  have hasked := hm
  rw [hmoves] at hasked
  obtain ⟨found, hrequested, hafter⟩ := hremoved.actAll hasked
  obtain ⟨-, hcwd⟩ := actAll_frame hasked
  rw [hlast] at hi
  have hdone : last.prospect = last.db.snapshot? := by
    rw [← List.append_nil after] at hafter
    obtain ⟨_, hrun, -⟩ := hrequested.actAll hafter
    rw [prospect, (hrun.orderly.idle hi).2.1]
    rfl
  refine ⟨?_, ?_, fun t job hc hq he hrecord => ?_⟩
  · have hnone : removed.prospect q = none := by
      rw [prospect_notifyRemoved]
      exact if_pos (Path.same_self q)
    have hprospect := isSome_prospect_actAll (q := q) hremoved hm fun r hmem => by
      refine hr r ?_
      simpa using hmem
    rw [hlast, hdone, hnone] at hprospect
    simpa using hprospect
  · obtain ⟨_, hrun, hrest⟩ := hremoved.actAll hm
    obtain ⟨hfilter, hcwd'⟩ := actAll_frame hm
    have hnormal : (removed.actAll before).normalize path = q :=
      congrArg (fun dir => path.normalize (some dir)) hcwd'
    have hallowed : (removed.actAll before).filter.allows
        ((removed.actAll before).normalize path) = true := by
      rw [hfilter, hnormal]
      exact hf
    rw [actAll_append] at hlast
    rw [← hlast] at hi
    obtain ⟨t, job, hc, hpath⟩ := hrun.request_carried_out hallowed hrest hi
    refine ⟨t, job, ?_, hpath.trans hnormal⟩
    dsimp only [requested]
    rw [actAll_append]
    exact hc
  · obtain ⟨_, later, hrun, hlater, hrest, hcwd', hsub⟩ := hrequested.carriesOut hafter hc
    obtain ⟨_, _, -, -, hj⟩ := hc
    have hnormal : ∀ r, t.normalize r = p.normalize r :=
      fun r => congrArg (fun dir => r.normalize (some dir)) (hcwd'.trans hcwd)
    rw [← hq] at hrecord ⊢
    refine ⟨hrun.delivers_iff hj he hrecord, fun hfree => ?_⟩
    rw [← hdone]
    have hkept := hrun.recorded_of_free hj he hrecord hfree hlater fun r hmem => by
      rw [hnormal, hq]
      exact hr r (List.mem_append_right _ (hsub hmem))
    rwa [← hrest] at hkept

section Chain

/-- The project is indexed, and from now on the engine has a record of the header. -/
def chainAnswering (p : Pipeline FixtureEngine) : Pipeline FixtureEngine :=
  let indexed := p.indexProject.1.settle
  let header := chainRecord "/W/a.h" chainTime [⟨⟨"/W/base.h"⟩, some chainTime⟩] "F"
  { indexed with engine := indexed.engine.setRecords ⟨"/W/a.h"⟩ [header] }

theorem run_chainAnswering {p : Pipeline FixtureEngine} (h : chainStart chainDisk = .ok p) :
    ∃ past, Run past (chainAnswering p) := by
  obtain ⟨past, hindexed⟩ := ((run_chainStart h).enqueueAll _ _ _).settle
  exact ⟨_, hindexed.move (.engine _) trivial rfl⟩

/-- The engine's answer has a record of the file. -/
def answersFor (t : Pipeline FixtureEngine) (q : Path) : Bool :=
  match t.answer q with
  | .records records => records.any fun r => (t.normalize r.path).same q
  | .failed _ | .crashed _ => false

set_option maxRecDepth 10000 in
/-- The source file is answered from the cache and claims the header, for which the cache has nothing;
meanwhile the job of the header itself leaves the header to it. -/
theorem contended_request_lost : ∃ (past : List Finding) (p : Pipeline FixtureEngine)
    (path q : Path) (before after : List (Move FixtureEngine)) (requested : Pipeline FixtureEngine),
    Run past p ∧ q = p.normalize path ∧
      AllowsAll past (p.notifyRemoved path) (before ++ .enqueue path false :: after) ∧
      (∀ r, .notifyRemoved r ∉ before ++ after) ∧ p.filter.allows q = true ∧
      requested = (p.notifyRemoved path).actAll (before ++ [.enqueue path false]) ∧
      (∀ t job, requested.CarriesOut after t job → (t.disk.modified? q).isSome = true ∧
        answersFor t q = true ∧ (job.path = q → (t.outcome job).error = none)) ∧
      (requested.actAll after).isIdle = true ∧ (requested.actAll after).db.snapshot? q = none := by
  let q : Path := ⟨"/W/a.h"⟩
  let before : List (Move FixtureEngine) := [.merge 1, .enqueue ⟨"/W/b.cc"⟩ false]
  let after : List (Move FixtureEngine) := [.takeUp, .work, .takeUp, .work, .merge 2]
  have hrun : (chainStart chainDisk).toOption.any (fun p =>
      let asked := chainAnswering p
      let requested := (asked.notifyRemoved q).actAll (before ++ [.enqueue q false])
      decide (asked.normalize q = q ∧ asked.filter.allows q = true ∧
        2 ≤ asked.settings.mergeBatchSize ∧
        (∀ x ∈ requested.jobsWithin after, (x.1.disk.modified? q).isSome = true ∧
          answersFor x.1 q = true ∧ (x.2.path = q → (x.1.outcome x.2).error = none)) ∧
        (requested.actAll after).isIdle = true ∧
        (requested.actAll after).db.snapshot? q = none)) = true := by
    decide +kernel
  obtain ⟨p, hnew, hp⟩ := exists_of_any hrun
  obtain ⟨hnormal, hallows, hbatch, hjobs, hidle, hlost⟩ := of_decide_eq_true hp
  obtain ⟨past, hreach⟩ := run_chainAnswering hnew
  generalize chainAnswering p = asked at *
  have hmoves : AllowsAll past (asked.notifyRemoved q) (before ++ .enqueue q false :: after) := by
    apply allowsAll_of_within
    have hsize : 2 ≤ (asked.notifyRemoved q).settings.mergeBatchSize := hbatch
    have hone : 1 ≤ (asked.notifyRemoved q).settings.mergeBatchSize := by omega
    simp [before, after, Move.within, hsize, hone]
  exact ⟨past, asked, q, q, before, after, _, hreach, hnormal.symm, hmoves,
    by simp [before, after], hallows, rfl, fun t job hc => hjobs (t, job) hc.mem_jobsWithin, hidle,
    hlost⟩

theorem record_of_answersFor {t : Pipeline FixtureEngine} {q : Path} (h : answersFor t q = true)
    (records : List Record) (ha : t.answer q = .records records) :
    ∃ r ∈ records, (t.normalize r.path).same q = true := by
  rw [answersFor, ha] at h
  exact List.any_eq_true.mp h

set_option maxRecDepth 10000 in
/-- The header comes back when its job is carried out after the removal is merged. -/
theorem later_request_honoured : ∃ (past : List Finding) (p : Pipeline FixtureEngine)
    (path : Path) (before after : List (Move FixtureEngine)) (requested : Pipeline FixtureEngine),
    Run past p ∧ AllowsAll past (p.notifyRemoved path) (before ++ .enqueue path false :: after) ∧
      (∀ r, .notifyRemoved r ∉ before ++ after) ∧
      requested = (p.notifyRemoved path).actAll (before ++ [.enqueue path false]) ∧
      requested.db.snapshot? (p.normalize path) = none ∧
      (requested.actAll after).isIdle = true ∧
      ((requested.actAll after).db.snapshot? (p.normalize path)).isSome = true := by
  let q : Path := ⟨"/W/a.h"⟩
  let before : List (Move FixtureEngine) := [.merge 1]
  let after : List (Move FixtureEngine) := [.takeUp, .work, .merge 1]
  have hrun : (chainStart chainDisk).toOption.any (fun p =>
      let asked := chainAnswering p
      let requested := (asked.notifyRemoved q).actAll (before ++ [.enqueue q false])
      decide (asked.normalize q = q ∧ asked.filter.allows q = true ∧
        1 ≤ asked.settings.mergeBatchSize ∧ requested.db.snapshot? q = none ∧
        (∀ x ∈ requested.jobsWithin after, x.1.outbox = [] ∧ answersFor x.1 q = true ∧
          (x.1.outcome x.2).error = none) ∧
        (requested.actAll after).isIdle = true)) = true := by
    decide +kernel
  obtain ⟨p, hnew, hp⟩ := exists_of_any hrun
  obtain ⟨hnormal, hallows, hbatch, hnone, hjobs, hidle⟩ := of_decide_eq_true hp
  obtain ⟨past, hreach⟩ := run_chainAnswering hnew
  generalize chainAnswering p = asked at *
  have hmoves : AllowsAll past (asked.notifyRemoved q) (before ++ .enqueue q false :: after) := by
    apply allowsAll_of_within
    have hsize : 1 ≤ (asked.notifyRemoved q).settings.mergeBatchSize := hbatch
    simp [before, after, Move.within, hsize]
  have hother : ∀ r, .notifyRemoved r ∉ before ++ after := by simp [before, after]
  obtain ⟨-, ⟨t, job, hc, hq⟩, hown⟩ := request_after_removal hreach q false hmoves
    (fun r hr => absurd hr (hother r)) (by rw [hnormal]; exact hallows) hidle
  obtain ⟨hout, hanswer, herror⟩ := hjobs (t, job) hc.mem_jobsWithin
  rw [← hnormal] at hanswer
  obtain ⟨-, hback⟩ := hown t job hc hq herror (record_of_answersFor hanswer)
  refine ⟨past, asked, q, before, after, _, hreach, hmoves, hother, rfl, ?_, hidle,
    hback fun m hm => ?_⟩
  · rw [hnormal]
    exact hnone
  · rw [hout] at hm
    cases hm

end Chain

end Pipeline

end SymbolIndex
