import SymbolIndex.Engine.Fixture
import SymbolIndex.Proofs.IncludeGraph
import SymbolIndex.Proofs.Path
import SymbolIndex.Proofs.Pipeline.Moves
import SymbolIndex.Proofs.Pipeline.Requests

/-! A file changed on disk. Every file that includes it, however far away, gets a turn; whether the
engine runs in that turn depends on the cache entry of that file alone. -/

namespace SymbolIndex

theorem Project.contains_congr (project : Project) {p q : Path} (h : p.same q = true) :
    project.contains p = project.contains q := by
  cases project with
  | compiled commands =>
    exact congrArg Option.isSome (OrderedMap.find?_congr _ (Path.compare_eq_iff.mpr h))
  | fixed files args =>
    exact List.any_congr rfl fun r => Path.same_congr_right h r

namespace Pipeline

variable {σ : Type}

theorem mem_changed {p : Pipeline σ} {path : Path} (hd : p.disk.cwd.isAbsolute = true) {f : Path}
    (hc : p.project.contains f = true) (ha : p.filter.allows (p.normalize f) = true)
    (hr : p.db.includes.Reaches f (p.normalize path)) :
    ∃ target ∈ (p.normalize path :: p.db.dependents (p.normalize path)).filter p.project.contains,
      p.filter.allows (p.normalize target) = true ∧
        (p.normalize target).same (p.normalize f) = true := by
  obtain ⟨target, hk, hs⟩ : ∃ target ∈ p.normalize path :: p.db.dependents (p.normalize path),
      f.same target = true := by
    by_cases hself : f.same (p.normalize path) = true
    · exact ⟨_, List.mem_cons_self, hself⟩
    · obtain ⟨r, hr', hs⟩ := IncludeGraph.exists_dependent hr hself
      exact ⟨r, List.mem_cons_of_mem _ hr', hs⟩
  have hn : p.normalize f = p.normalize target := Path.normalize_congr hd hs
  refine ⟨target, List.mem_filter.mpr ⟨hk, ?_⟩, by rwa [← hn], by rw [hn]; exact Path.same_self _⟩
  rwa [← p.project.contains_congr hs]

theorem due_iff {p : Pipeline σ} {path : Path} : p.due path false = true ↔
    p.unsaved.contains path = true ∨ (p.disk.modified? path).isSome = true ∧
      ∀ e, p.cached? path = some e →
        Freshness.describes p.disk path (p.project.argsFor path) e = false := by
  rw [due, decide_eq_true_eq]
  unfold Freshness.check
  by_cases hu : p.unsaved.contains path = true
  · simp [hu]
  · rw [if_neg hu, or_iff_right hu]
    cases hm : p.disk.modified? path with
    | none => simp
    | some time =>
      cases hc : p.cached? path with
      | none => simp
      | some e =>
        cases hd : Freshness.describes p.disk path (p.project.argsFor path) e <;> simp [hd]

variable [Engine σ]

/-- The run after a change serves every file that includes the changed one, directly or through
others. It runs the engine on such a file exactly if an editor holds the file, or the file exists
and no cache entry describes the file and its direct includes. -/
theorem notifyChanged_extracts_iff {p : Pipeline σ} (hp : p.Reachable) (hi : p.isIdle = true)
    (path : Path) :
    (p.notifyChanged path).1.settle.isIdle = true ∧
      ∃ events, (p.notifyChanged path).1.settle.journal = events ++ p.journal ∧
        ∀ f, p.project.contains f = true → p.filter.allows (p.normalize f) = true →
          p.db.includes.Reaches f (p.normalize path) →
          ∃ t ∈ (p.notifyChanged path).1.turns, ∃ file, t.inHand = some ⟨file, false⟩ ∧
            file.same (p.normalize f) = true ∧
            ((∃ g args unsaved, .extract g args unsaved ∈ events ∧
                g.same (p.normalize f) = true) ↔
              p.unsaved.contains file = true ∨ (t.disk.modified? file).isSome = true ∧
                ∀ e, t.cached? file = some e →
                  Freshness.describes t.disk file (p.project.argsFor file) e = false) := by
  have horderly := hp.orderly
  have hpending := horderly.pending hi
  have hready : Pending { p with timestamps := p.timestamps.erase (p.normalize path) } :=
    ⟨hpending.batch, hpending.hand, hpending.outbox, hpending.removals, hpending.waits,
      hpending.queued⟩
  have hnone := (horderly.idle hi).2.2
  obtain ⟨hq, ⟨_, _, _, hasked⟩, hjobs⟩ := hready.enqueueAll
    ((p.normalize path :: p.db.dependents (p.normalize path)).filter p.project.contains)
    (· ≠ .filtered)
  have hqo := horderly.notifyChanged path
  change (p.notifyChanged path).1 = _ at hasked
  change (p.notifyChanged path).1.Pending at hq
  change ∀ q, ((p.notifyChanged path).1.tracker.jobs.find? q).isSome = true ↔ _ at hjobs
  generalize (p.notifyChanged path).1 = q at *
  have hflush : q.flush = q := by
    rw [flush, hq.outbox]
    rfl
  have hlen : q.queue.length ≤ q.interactive.length + q.background.length +
      2 * q.tracker.jobs.size := by
    rw [queue, List.length_append]
    exact Nat.le_add_right _ _
  obtain ⟨hidle, hapart, _, hturn⟩ := hq.run _ hlen
  obtain ⟨_, _, _, _, _, started, htake, _⟩ := takeUpWithin_spec
    (q.interactive.length + q.background.length) q
  obtain ⟨events, hjournal, hevents⟩ := journal_run
    (q.interactive.length + q.background.length + 2 * q.tracker.jobs.size) hqo.takeUp
  have hspec := turnsWithin_spec
    (q.interactive.length + q.background.length + 2 * q.tracker.jobs.size) hqo.takeUp
  rw [settle, turns, hflush]
  refine ⟨hidle, events ++ started.map .job, ?_, fun f hc ha hr => ?_⟩
  · rw [hjournal, List.append_assoc]
    congr 1
    rw [takeUp, htake, hasked]
  · obtain ⟨target, htarget, hallowed, hsame⟩ := mem_changed horderly.cwd hc ha hr
    obtain ⟨t, ht, file, hhand, hfile⟩ := (hturn (p.normalize f)).mp
      ((hjobs _).mpr (.inr ⟨target, htarget, hallowed, hsame⟩))
    have hkeep : t.project = p.project ∧ t.unsaved = p.unsaved := by
      obtain ⟨hproject, hunsaved⟩ := hspec t ht
      rw [hproject, hunsaved, takeUp, htake, hasked]
      exact ⟨rfl, rfl⟩
    refine ⟨t, ht, file, hhand, hfile, ?_⟩
    rw [← hkeep.1, ← hkeep.2, ← due_iff]
    constructor
    · rintro ⟨g, args, unsaved, hm, hg⟩
      rcases List.mem_append.mp hm with hm | hm
      · obtain ⟨t', ht', job, hhand', hdue, rfl, _, _⟩ := (hevents g args unsaved).mp hm
        have hsame' : job.path.same file = true :=
          Path.same_trans hg (by rwa [Path.same_comm])
        cases hapart.eq_of_same ht' ht hhand' hhand hsame'
        cases hhand'.symm.trans hhand
        exact hdue
      · obtain ⟨_, _, he⟩ := List.mem_map.mp hm
        cases he
    · intro hdue
      exact ⟨file, _, _, List.mem_append_left _
        ((hevents _ _ _).mpr ⟨t, ht, _, hhand, hdue, rfl, rfl, rfl⟩), hfile⟩

section Chain

def chainTime : Timestamp := 1700000000000000000

def chainRecord (path : String) (modified : Timestamp) (dependencies : List Dependency)
    (name : String) : Record where
  path := ⟨path⟩
  modified := modified
  text := "// " ++ path
  dependencies := dependencies
  entries := [{
    index := 0
    category := .func
    signature := name
    name := name
    shortLength := .ofNat name.length
    definition := some ⟨⟨1, 5, 1, 6⟩, ⟨1, 1, 1, 20⟩⟩ }]

def chainEngine (header base : Timestamp) : FixtureEngine :=
  ({} : FixtureEngine).setRecords ⟨"/W/b.cc"⟩ [
    chainRecord "/W/b.cc" chainTime [⟨⟨"/W/a.h"⟩, some header⟩] "main",
    chainRecord "/W/a.h" header [⟨⟨"/W/base.h"⟩, some base⟩] "F",
    chainRecord "/W/base.h" base [] "G"]

def chainDisk : Disk :=
  ((({} : Disk).put ⟨"/W/base.h"⟩ [120] chainTime).put ⟨"/W/a.h"⟩ [120] chainTime).put
    ⟨"/W/b.cc"⟩ [120] chainTime

def chainStart (disk : Disk) : Except Error (Pipeline FixtureEngine) :=
  Pipeline.new disk (chainEngine chainTime chainTime) {} ⟨"/W"⟩
    (.fixed [⟨"/W/b.cc"⟩] ["clang"])

/-- The project is indexed, then a header is written again. -/
def chainTouched (p : Pipeline FixtureEngine) (header : Path) (engine : FixtureEngine) :
    Pipeline FixtureEngine :=
  { p.indexProject.1.settle with
    disk := p.indexProject.1.settle.disk.put header [120] (chainTime + 1)
    engine := engine }

theorem exists_of_any {ε α : Type} {r : Except ε α} {check : α → Bool}
    (h : r.toOption.any check = true) : ∃ a, r = .ok a ∧ check a = true := by
  cases r with
  | error e => cases h
  | ok a => exact ⟨a, rfl, h⟩

theorem run_chainStart {p : Pipeline FixtureEngine} (h : chainStart chainDisk = .ok p) :
    Run [] p := by
  obtain ⟨-, hp⟩ := new_eq h
  refine Run.vacant (by decide) h ?_
  rw [hp]
  have hvacant : ∀ q ∈ chainDisk.nodes.keys, q.dropLast ≠ Disk.placeOf
      (chainDisk.absolute (({} : Config).cacheDirFor ⟨"/W"⟩)) := by decide +kernel
  exact hvacant

theorem chainTouched_reachable {p : Pipeline FixtureEngine} (h : chainStart chainDisk = .ok p)
    (header : Path) (engine : FixtureEngine)
    (hd : (chainTouched p header engine).disk.cwd = p.indexProject.1.settle.disk.cwd) :
    (chainTouched p header engine).Reachable := by
  obtain ⟨_, hrun⟩ := ((run_chainStart h).enqueueAll _ _ _).settle
  have hindexed : p.indexProject.1.settle.Reachable := hrun.reachable
  -- The state and the disk get names, or both would be evaluated to be compared.
  rw [chainTouched] at hd ⊢
  generalize p.indexProject.1.settle = indexed at hd hindexed ⊢
  generalize indexed.disk.put header [120] (chainTime + 1) = disk at hd ⊢
  exact (hindexed.act (.disk disk) hd).act (.engine engine) trivial

set_option maxRecDepth 10000 in
/-- A header that is included through another header only changes, and the source file at the end
of the chain is replayed from the cache. -/
theorem transitive_includer_not_extracted : ∃ (p : Pipeline FixtureEngine) (h f : Path),
    p.Reachable ∧ p.isIdle = true ∧ p.settings.cacheRead = true ∧
      p.timestamps.find? h ≠ p.disk.modified? h ∧
      (∀ r ∈ p.db.files.values, r.snapshot.dependencies.find? h ≠ some (p.disk.modified? h)) ∧
      p.project.contains f = true ∧ (p.disk.modified? f).isSome = true ∧
      p.filter.allows (p.normalize f) = true ∧ p.db.includes.Reaches f (p.normalize h) ∧
      (p.notifyChanged h).1.settle.isIdle = true ∧
      (p.notifyChanged h).1.settle.journal = .job f :: p.journal := by
  let h : Path := ⟨"/W/base.h"⟩
  let f : Path := ⟨"/W/b.cc"⟩
  let a : Path := ⟨"/W/a.h"⟩
  let engine := chainEngine chainTime (chainTime + 1)
  have hrun : (chainStart chainDisk).toOption.any (fun p => decide (
      (chainTouched p h engine).disk.cwd = p.indexProject.1.settle.disk.cwd ∧
      (chainTouched p h engine).isIdle = true ∧
      (chainTouched p h engine).settings.cacheRead = true ∧
      (chainTouched p h engine).timestamps.find? h ≠ (chainTouched p h engine).disk.modified? h ∧
      (∀ r ∈ (chainTouched p h engine).db.files.values,
        r.snapshot.dependencies.find? h ≠ some ((chainTouched p h engine).disk.modified? h)) ∧
      (chainTouched p h engine).project.contains f = true ∧
      ((chainTouched p h engine).disk.modified? f).isSome = true ∧
      (chainTouched p h engine).filter.allows ((chainTouched p h engine).normalize f) = true ∧
      (chainTouched p h engine).db.includes.hasEdge f a = true ∧
      (chainTouched p h engine).db.includes.hasEdge a ((chainTouched p h engine).normalize h) =
        true ∧
      ((chainTouched p h engine).notifyChanged h).1.settle.isIdle = true ∧
      ((chainTouched p h engine).notifyChanged h).1.settle.journal =
        .job f :: (chainTouched p h engine).journal)) = true := by
    decide +kernel
  obtain ⟨p, hnew, hp⟩ := exists_of_any hrun
  obtain ⟨hd, hi, hread, htime, hrec, hc, hex, ha, hfa, hah, hidle, hj⟩ := of_decide_eq_true hp
  exact ⟨chainTouched p h engine, h, f, chainTouched_reachable hnew h engine hd, hi, hread, htime,
    hrec, hc, hex, ha, .tail (.single hfa) hah, hidle, hj⟩

set_option maxRecDepth 10000 in
/-- When the header that the source file includes itself changes, the engine runs again. -/
theorem direct_includer_extracted : ∃ p : Pipeline FixtureEngine, p.Reachable ∧
    p.isIdle = true ∧ ∃ events,
      (p.notifyChanged ⟨"/W/a.h"⟩).1.settle.journal = events ++ p.journal ∧
        ∃ g args unsaved, .extract g args unsaved ∈ events ∧
          g.same (p.normalize ⟨"/W/b.cc"⟩) = true := by
  let h : Path := ⟨"/W/a.h"⟩
  let f : Path := ⟨"/W/b.cc"⟩
  let engine := chainEngine (chainTime + 1) chainTime
  have hrun : (chainStart chainDisk).toOption.any (fun p => decide (
      (chainTouched p h engine).disk.cwd = p.indexProject.1.settle.disk.cwd ∧
      (chainTouched p h engine).isIdle = true ∧
      (chainTouched p h engine).project.contains f = true ∧
      (chainTouched p h engine).filter.allows ((chainTouched p h engine).normalize f) = true ∧
      (chainTouched p h engine).db.includes.hasEdge f ((chainTouched p h engine).normalize h) =
        true ∧
      ∀ t ∈ ((chainTouched p h engine).notifyChanged h).1.turns, ∀ job ∈ t.inHand,
        t.project = (chainTouched p h engine).project ∧
        t.unsaved = (chainTouched p h engine).unsaved ∧ t.due job.path false = true)) = true := by
    decide +kernel
  obtain ⟨p, hnew, hp⟩ := exists_of_any hrun
  obtain ⟨hd, hi, hc, ha, hfh, hturns⟩ := of_decide_eq_true hp
  have hreach := chainTouched_reachable hnew h engine hd
  obtain ⟨_, events, hj, hserved⟩ := notifyChanged_extracts_iff hreach hi h
  obtain ⟨t, ht, file, hhand, _, hiff⟩ := hserved f hc ha (.single hfh)
  obtain ⟨hproject, hunsaved, hdue⟩ := hturns t ht _ hhand
  refine ⟨_, hreach, hi, events, hj, hiff.mpr ?_⟩
  rw [← hproject, ← hunsaved]
  exact due_iff.mp hdue

end Chain

end Pipeline

end SymbolIndex
