import SymbolIndex.Proofs.Pipeline.Provenance

/-! What a job does to the records that is answered from the cache. Nothing is replayed but what the
disk has at that moment, so no file goes back to an older version. Editor contents are not asked
about for the includes: a file in an editor is replayed from disk as soon as another file that
includes it is answered from the cache, unless its time is still known. -/

namespace SymbolIndex

/-- What a job makes known about a file comes from one of its changes, if any of them is to the file. -/
theorem MergeMessage.update_job {α : Type} (outcome : Outcome) (part : FileChange → Option α)
    (known : Path → Option α) (q : Path) :
    (∀ f ∈ outcome.files, q.same f.path = false) ∧
        (MergeMessage.job outcome).update part known q = known q ∨
      ∃ f ∈ outcome.files, q.same f.path = true ∧
        (MergeMessage.job outcome).update part known q = part f := by
  rw [update]
  generalize outcome.files = files
  induction files generalizing known with
  | nil => exact .inl ⟨fun f hf => absurd hf List.not_mem_nil, rfl⟩
  | cons f rest ih =>
    rw [List.foldl_cons]
    rcases ih (fun r => if r.same f.path then part f else known r) with ⟨hnone, hrest⟩ | ⟨g, hg, hs, hrest⟩
    · by_cases hf : q.same f.path = true
      · refine .inr ⟨f, List.mem_cons_self, hf, ?_⟩
        rw [hrest, if_pos hf]
      · refine .inl ⟨List.forall_mem_cons.mpr ⟨Bool.eq_false_iff.mpr hf, hnone⟩, ?_⟩
        rw [hrest, if_neg hf]
    · exact .inr ⟨g, List.mem_cons_of_mem _ hg, hs, hrest⟩

namespace Pipeline

variable {σ : Type} [Engine σ] {past : List Finding} {t : Pipeline σ} {job : JobInHand}

omit [Engine σ] in
/-- The times of files are noted without a look at the disk, which only changes when one is saved. -/
theorem disk_foldl_finishFile {files : List FileChange} (h : ∀ f ∈ files, f.cacheEntry = none)
    (p : Pipeline σ) : (files.foldl finishFile p).disk = p.disk := by
  induction files generalizing p with
  | nil => rfl
  | cons f rest ih =>
    obtain ⟨hf, hrest⟩ := List.forall_mem_cons.mp h
    rw [List.foldl_cons, ih hrest, finishFile, saveEntry, hf]
    rfl

/-- A file that was found goes by its canonical spelling, and so do its includes. -/
theorem Run.canonical (h : Run past t) {s : Snapshot} (hs : Extracted past s) :
    t.disk.cwd.Canonical s.path ∧ ∀ k ∈ s.dependencies.keys, t.disk.cwd.Canonical k := by
  obtain ⟨x, hx, heq, -⟩ := hs
  have hd := h.absolute x hx
  obtain ⟨hpath, -, hincludes⟩ := x.record.entry_frame x.dir x.args
  have hspelled : ∀ q : Path, t.disk.cwd.Canonical (q.normalize (some x.dir)) :=
    fun q => Path.Canonical.moved (Path.canonical_normalize hd q) hd
  rw [Finding.snapshot] at heq
  rw [heq] at hpath hincludes
  rw [hpath, hincludes]
  refine ⟨hspelled _, fun k hk => ?_⟩
  obtain ⟨e, he, rfl⟩ := List.mem_map.mp hk
  refine OrderedMap.forall_mem_ofList (P := fun e => t.disk.cwd.Canonical e.1)
    (fun _ _ _ _ _ _ hk => hk) (fun e he => ?_) e he
  obtain ⟨d, -, rfl⟩ := List.mem_map.mp he
  exact hspelled _

/-- Somewhere in a run an outcome is merged, on its own or in a batch, between these two states. -/
inductive Merges (outcome : Outcome) : Pipeline σ → Pipeline σ → Prop
  | intro {past : List Finding} {p : Pipeline σ} {n : Nat} (h : Run past p)
    (hm : p.outbox[n]? = some (.job outcome)) :
    Merges outcome (p.mergeFirst n) (p.mergeFirst (n + 1))

section Merges

variable {a b : Pipeline σ} {outcome : Outcome}

/-- The records are those that the job brings, and the others as they were. -/
theorem Merges.snapshot? (h : Merges outcome a b) :
    b.db.snapshot? = (MergeMessage.job outcome).update (·.delta.snapshot) a.db.snapshot? := by
  obtain ⟨hrun, hm⟩ := h
  rw [(hrun.sound.mergeFirst _).2, (hrun.sound.mergeFirst _).2, List.take_add_one, hm,
    List.foldl_append]
  rfl

/-- A record is kept, or it is what one of the changes brings. -/
theorem Merges.record_cases (h : Merges outcome a b) (q : Path) :
    (∀ f ∈ outcome.files, q.same f.path = false) ∧ b.db.snapshot? q = a.db.snapshot? q ∨
      ∃ f ∈ outcome.files, q.same f.path = true ∧ b.db.snapshot? q = f.delta.snapshot := by
  rw [h.snapshot?]
  exact MergeMessage.update_job outcome (·.delta.snapshot) a.db.snapshot? q

theorem Merges.disk (h : Merges outcome a b) (hnone : ∀ f ∈ outcome.files, f.cacheEntry = none) :
    b.disk = a.disk := by
  cases h with
  | @intro _ p n _ hm =>
  rw [mergeFirst_eq_onto, mergeFirst_eq_onto, List.take_add_one, hm, List.foldl_append,
    List.foldl_append]
  change (((p.outbox.take n).foldl finishMessage p).finishJob outcome).disk =
    ((p.outbox.take n).foldl finishMessage p).disk
  generalize (p.outbox.take n).foldl finishMessage p = q
  obtain ⟨disk, _, _, _, _, hfold, -, hfinish⟩ := q.finishJob_frame outcome
  obtain ⟨_, _, _, _, hcomplete, -⟩ := complete_frame _ outcome.path
  rw [hfinish, hcomplete]
  have hkept := disk_foldl_finishFile hnone
    { q with counters := q.counters.addFilesApplied outcome.files.length }
  rw [hfold] at hkept
  exact hkept

theorem Run.merges_work (h : Run past t) (hj : t.inHand = some job) :
    Merges (t.outcome job) (t.work.mergeFirst t.outbox.length)
      (t.work.mergeFirst (t.outbox.length + 1)) := by
  refine .intro h.work ?_
  rw [(work_submits hj).1, List.getElem?_append_right (Nat.le_refl _), Nat.sub_self]
  rfl

end Merges

omit [Engine σ] in
theorem mem_replays {p : Pipeline σ} {e e' : CachedSnapshot} : e' ∈ p.replays e ↔
    p.resent? e = some e' ∨ ∃ k ∈ e.payload.dependencies.keys, p.restored? k = some e' := by
  rw [replays, List.mem_append, Option.mem_toList, List.mem_filterMap]

omit [Engine σ] in
theorem restored?_eq_some {p : Pipeline σ} {k : Path} {e : CachedSnapshot} :
    p.restored? k = some e ↔ p.ownership.contains k = false ∧ p.snapshots.peek? p.disk k = some e ∧
      p.disk.modified? k = some e.modified ∧ p.timestamps.find? k ≠ some e.modified := by
  simp [restored?, Option.filter_eq_some_iff]

/-- What a job changes does not depend on what is in hand. -/
theorem emitted_inHand (p : Pipeline σ) (path : Path) (interactive : Bool) :
    Pipeline.emitted { p with inHand := none } path interactive = p.emitted path interactive := by
  have hlook : (Pipeline.lookUp { p with inHand := none } path).1 =
      { (p.lookUp path).1 with inHand := none } := by
    unfold lookUp
    split <;> rfl
  have hv : Pipeline.verdict { p with inHand := none } path interactive =
      p.verdict path interactive := rfl
  rw [emitted, emitted, hv, hlook]
  cases p.verdict path interactive with
  | vanished => rfl
  | fresh e => rfl
  | changed => rfl

theorem outcome_answered (hd : t.snapshots.loaded.Distinct) (job : JobInHand) :
    (t.outcome job).files = t.emitted job.path job.interactive ∧
      ((t.outcome job).fromCache = true ↔
        ∃ e, t.verdict job.path job.interactive = .fresh e) ∧
      ((t.outcome job).error = none ↔ (∃ e, t.verdict job.path job.interactive = .fresh e) ∨
        t.verdict job.path job.interactive = .changed ∧
          ∃ records, t.answer job.path = .records records) := by
  have h := process_answered (p := { t with inHand := none }) hd job.path job.interactive
  exact ⟨h.files.trans (t.emitted_inHand _ _), h.fromCache, h.error⟩

theorem Run.verdict_inHand (h : Run past t) (hj : t.inHand = some job) {e : CachedSnapshot}
    (hv : t.verdict job.path job.interactive = .fresh e) :
    t.disk.cwd.Canonical job.path ∧ Attested (Extracted past) job.path e ∧
      t.disk.modified? job.path = some e.payload.modified ∧
      t.unsaved.contains job.path = false ∧
      (∃ snapshots, (t.lookUp job.path).1 = { t with snapshots := snapshots } ∧
        snapshots.Attests (Extracted past) t.disk) := by
  have hc := h.sound.cache
  obtain ⟨hunsaved, -, hpeek, hm⟩ := peek?_of_verdict hc.distinct hv
  obtain ⟨snapshots, hl, -, hattests, -⟩ := t.lookUp_frame hc.distinct job.path
  have he := hc.peek? hpeek
  refine ⟨h.spelled _ (by simp [underway, hj]), he, ?_, hunsaved, snapshots, hl, hattests _ hc⟩
  rw [← he.modified]
  exact hm

/-- What a job replays for a file is what the disk has. -/
theorem Run.replays_current (h : Run past t) (hj : t.inHand = some job) {e e' : CachedSnapshot}
    (hv : t.verdict job.path job.interactive = .fresh e)
    (he' : e' ∈ (t.lookUp job.path).1.replays e) {q : Path} (hq : q.same e'.payload.path = true) :
    t.disk.modified? (t.normalize q) = some e'.payload.modified := by
  obtain ⟨hjob, he, hm, -, snapshots, hl, hattests⟩ := h.verdict_inHand hj hv
  have hfile : ∀ {k : Path}, t.disk.cwd.Canonical k → e'.payload.path.same k = true →
      t.disk.modified? k = some e'.payload.modified →
      t.disk.modified? (t.normalize q) = some e'.payload.modified := by
    intro k hk hs hm
    have heq : t.normalize q = k :=
      (Path.normalize_congr h.orderly.cwd (Path.same_trans hq hs)).trans hk
    rw [heq, hm]
  rw [hl, mem_replays] at he'
  rcases he' with he' | ⟨k, hk, he'⟩
  · rw [resent?, Option.ite_none_left_eq_some] at he'
    obtain ⟨-, he'⟩ := he'
    cases he'
    exact hfile hjob he.path hm
  · rw [restored?, Option.ite_none_left_eq_some, Option.filter_eq_some_iff, Bool.and_eq_true,
      decide_eq_true_eq] at he'
    obtain ⟨-, hpeek, hm', -⟩ := he'
    have hattested := hattests.peek? hpeek
    rw [hattested.modified] at hm'
    exact hfile ((h.canonical he.good).2 k hk) hattested.path hm'

/-- A job that is answered from the cache changes the record of a file to what the disk had when the job
was carried out, or not at all, whatever is merged before it. A file that is then on record as it was on
disk stays so. -/
theorem cached_job_current (h : Run past t) (hj : t.inHand = some job)
    (hc : (t.outcome job).fromCache = true) :
    t.work.outbox = t.outbox ++ [.job (t.outcome job)] ∧ t.work.db = t.db ∧ t.work.disk = t.disk ∧
      ∀ a b : Pipeline σ, Merges (t.outcome job) a b → b.disk = a.disk ∧ ∀ q,
        (b.db.snapshot? q = a.db.snapshot? q ∨ ∃ s, b.db.snapshot? q = some s ∧
          t.disk.modified? (t.normalize q) = some s.modified) ∧
        ∀ s, a.db.snapshot? q = some s → t.disk.modified? (t.normalize q) = some s.modified →
          ∃ s', b.db.snapshot? q = some s' ∧ s'.modified = s.modified := by
  obtain ⟨hout, hdb, hdisk⟩ := work_submits hj
  obtain ⟨hfiles, hfresh, -⟩ := outcome_answered h.sound.cache.distinct job
  obtain ⟨e, hv⟩ := hfresh.mp hc
  rw [emitted, hv] at hfiles
  refine ⟨hout, hdb, hdisk, fun a b hm => ?_⟩
  have hunsaved : ∀ f ∈ (t.outcome job).files, f.cacheEntry = none := by
    intro f hf
    rw [hfiles] at hf
    obtain ⟨e', -, rfl⟩ := List.mem_map.mp hf
    rfl
  have hcurrent : ∀ q, b.db.snapshot? q = a.db.snapshot? q ∨ ∃ s, b.db.snapshot? q = some s ∧
      t.disk.modified? (t.normalize q) = some s.modified := by
    intro q
    rcases hm.record_cases q with ⟨-, hkept⟩ | ⟨f, hf, hs, hbrought⟩
    · exact .inl hkept
    · rw [hfiles] at hf
      obtain ⟨e', he', rfl⟩ := List.mem_map.mp hf
      exact .inr ⟨e'.payload, hbrought, h.replays_current hj hv he' hs⟩
  refine ⟨hm.disk hunsaved, fun q => ⟨hcurrent q, fun s hs htime => ?_⟩⟩
  rcases hcurrent q with hkept | ⟨s', hs', htime'⟩
  · exact ⟨s, hkept.trans hs, rfl⟩
  · exact ⟨s', hs', Option.some.inj (htime'.symm.trans htime)⟩

/-- The job in hand replays this entry for an include, which no job that waits has claimed. -/
def Restores (t : Pipeline σ) (job : JobInHand) (q : Path) (e' : CachedSnapshot) : Prop :=
  ∃ e, t.verdict job.path job.interactive = .fresh e ∧
    e.payload.dependencies.contains q = true ∧
    t.ownership.contains (t.normalize q) = false ∧
    (t.lookUp job.path).1.snapshots.peek? t.disk (t.normalize q) = some e' ∧
    t.disk.modified? (t.normalize q) = some e'.modified ∧
    t.timestamps.find? (t.normalize q) ≠ some e'.modified

/-- Of the requested file and its includes, a file in an editor can only be an include. -/
theorem Run.restores_iff (h : Run past t) (hj : t.inHand = some job) {e e' : CachedSnapshot}
    (hv : t.verdict job.path job.interactive = .fresh e) {q : Path}
    (hq : t.unsaved.contains q = true) :
    e' ∈ (t.lookUp job.path).1.replays e ∧ q.same e'.payload.path = true ↔ t.Restores job q e' := by
  obtain ⟨-, he, -, hjob, snapshots, hl, hattests⟩ := h.verdict_inHand hj hv
  have hspelled : ∀ k ∈ e.payload.dependencies.keys, q.same k = true → t.normalize q = k :=
    fun k hk hs => (Path.normalize_congr h.orderly.cwd hs).trans ((h.canonical he.good).2 k hk)
  have hrestored : ∀ k, (t.lookUp job.path).1.restored? k = some e' ↔
      t.ownership.contains k = false ∧
        (t.lookUp job.path).1.snapshots.peek? t.disk k = some e' ∧
        t.disk.modified? k = some e'.modified ∧ t.timestamps.find? k ≠ some e'.modified := by
    intro k
    rw [hl]
    exact restored?_eq_some (p := { t with snapshots := snapshots })
  rw [mem_replays]
  constructor
  · rintro ⟨he' | ⟨k, hk, he'⟩, hs⟩
    · -- The requested file is not in an editor, or the engine would have run.
      rw [resent?, Option.ite_none_left_eq_some] at he'
      obtain ⟨-, he'⟩ := he'
      cases he'
      rw [← OrderedMap.contains_congr _ (Path.same_trans hs he.path), hq] at hjob
      cases hjob
    · have he'' := (hrestored k).mp he'
      have hpeek := he''.2.1
      rw [hl] at hpeek
      have hs : q.same k = true := Path.same_trans hs (hattests.peek? hpeek).path
      refine ⟨e, hv, ?_, ?_⟩
      · rw [OrderedMap.contains_eq_any, List.any_eq_true]
        exact ⟨k, hk, hs⟩
      · rw [hspelled k hk hs]
        exact he''
  · rintro ⟨e₀, hv₀, hdep, hentry⟩
    cases hv.symm.trans hv₀
    rw [OrderedMap.contains_eq_any, List.any_eq_true] at hdep
    obtain ⟨k, hk, hs⟩ := hdep
    rw [hspelled k hk hs] at hentry
    have hpeek := hentry.2.1
    rw [hl] at hpeek
    refine ⟨.inr ⟨k, hk, (hrestored k).mpr hentry⟩, Path.same_trans hs ?_⟩
    rw [Path.same_comm]
    exact (hattests.peek? hpeek).path

/-- What a cached answer brings for a file in an editor is what is restored. -/
theorem Run.brings_iff (h : Run past t) (hj : t.inHand = some job) {e : CachedSnapshot}
    (hv : t.verdict job.path job.interactive = .fresh e) {q : Path}
    (hq : t.unsaved.contains q = true) (f : FileChange) :
    f ∈ (t.outcome job).files ∧ q.same f.path = true ↔
      ∃ e', t.Restores job q e' ∧ f = t.replayed e' := by
  obtain ⟨hfiles, -⟩ := outcome_answered h.sound.cache.distinct job
  rw [hfiles, emitted, hv]
  constructor
  · rintro ⟨hf, hs⟩
    obtain ⟨e', he', rfl⟩ := List.mem_map.mp hf
    exact ⟨e', (h.restores_iff hj hv hq).mp ⟨he', hs⟩, rfl⟩
  · rintro ⟨e', he', rfl⟩
    obtain ⟨hmem, hs⟩ := (h.restores_iff hj hv hq).mpr he'
    exact ⟨List.mem_map_of_mem hmem, hs⟩

/-- A file in an editor is replayed exactly when it is an include of the requested file that no job which
waits has claimed, whose cached version is on disk and whose time is not known. The version on disk then
replaces what was on record; otherwise a job that is answered from the cache leaves the record alone. -/
theorem edited_replayed_iff (h : Run past t) (hj : t.inHand = some job) {q : Path}
    (hq : t.unsaved.contains q = true) :
    ((t.outcome job).fromCache = true → job.path.same q = false) ∧
      ((t.outcome job).fromCache = true ∧ (∃ f ∈ (t.outcome job).files, f.path.same q = true) ↔
        ∃ e', t.Restores job q e') ∧
      (∀ e', t.Restores job q e' → t.disk.modified? (t.normalize q) = some e'.payload.modified ∧
        ∀ a b : Pipeline σ, Merges (t.outcome job) a b → b.db.snapshot? q = some e'.payload) ∧
      ((t.outcome job).fromCache = true → (∀ e', ¬ t.Restores job q e') →
        ∀ a b : Pipeline σ, Merges (t.outcome job) a b → b.db.snapshot? q = a.db.snapshot? q) := by
  obtain ⟨-, hfresh, -⟩ := outcome_answered h.sound.cache.distinct job
  refine ⟨fun hc => ?_, ⟨?_, ?_⟩, fun e' he' => ?_, fun hc hnone a b hm => ?_⟩
  · obtain ⟨e, hv⟩ := hfresh.mp hc
    obtain ⟨-, -, -, hjob, -⟩ := h.verdict_inHand hj hv
    rw [Bool.eq_false_iff]
    intro hs
    rw [OrderedMap.contains_congr _ hs, hq] at hjob
    cases hjob
  · rintro ⟨hc, f, hf, hs⟩
    obtain ⟨e, hv⟩ := hfresh.mp hc
    rw [Path.same_comm] at hs
    obtain ⟨e', he', -⟩ := (h.brings_iff hj hv hq f).mp ⟨hf, hs⟩
    exact ⟨e', he'⟩
  · rintro ⟨e', he'⟩
    obtain ⟨e, hv, -⟩ := id he'
    obtain ⟨hf, hs⟩ := (h.brings_iff hj hv hq _).mpr ⟨e', he', rfl⟩
    rw [Path.same_comm] at hs
    exact ⟨hfresh.mpr ⟨e, hv⟩, _, hf, hs⟩
  · obtain ⟨e, hv, -, -, hpeek, -⟩ := id he'
    obtain ⟨hmem, hs⟩ := (h.restores_iff hj hv hq).mpr he'
    refine ⟨h.replays_current hj hv hmem hs, fun a b hm => ?_⟩
    obtain ⟨hf, hsame⟩ := (h.brings_iff hj hv hq _).mpr ⟨e', he', rfl⟩
    rcases hm.record_cases q with ⟨hnone, -⟩ | ⟨f, hf, hs, hf'⟩
    · rw [hnone _ hf] at hsame
      cases hsame
    · -- No other entry is restored for the file.
      obtain ⟨e'', ⟨_, _, _, _, hpeek', _⟩, rfl⟩ := (h.brings_iff hj hv hq f).mp ⟨hf, hs⟩
      cases hpeek.symm.trans hpeek'
      exact hf'
  · obtain ⟨e, hv⟩ := hfresh.mp hc
    rcases hm.record_cases q with ⟨-, hkept⟩ | ⟨f, hf, hs, -⟩
    · exact hkept
    · obtain ⟨e', he', -⟩ := (h.brings_iff hj hv hq f).mp ⟨hf, hs⟩
      exact absurd he' (hnone e')

section Chain

def editedRecord : Record :=
  chainRecord "/W/a.h" chainTime [⟨⟨"/W/base.h"⟩, some chainTime⟩] "E"

/-- The project is indexed, and then an editor takes up a header. -/
def chainHeld (p : Pipeline FixtureEngine) : Pipeline FixtureEngine :=
  p.indexProject.1.settle.setUnsaved ⟨"/W/a.h"⟩ "edited"

/-- The header is indexed again while the editor holds it. -/
def chainEdited (p : Pipeline FixtureEngine) : Pipeline FixtureEngine :=
  let engine := (chainHeld p).engine.setRecords ⟨"/W/a.h"⟩ [editedRecord]
  (Pipeline.enqueue { chainHeld p with engine := engine } ⟨"/W/a.h"⟩ false).1.settle

theorem run_chainHeld {p : Pipeline FixtureEngine} (h : chainStart chainDisk = .ok p) :
    ∃ past, Run past (chainHeld p) := by
  obtain ⟨past, hsettled⟩ := ((run_chainStart h).enqueueAll _ _ _).settle
  exact ⟨_, hsettled.move (.setUnsaved ⟨"/W/a.h"⟩ "edited") trivial rfl⟩

theorem run_chainEdited {p : Pipeline FixtureEngine} (h : chainStart chainDisk = .ok p) :
    ∃ past, Run past (chainEdited p) := by
  obtain ⟨past, hheld⟩ := run_chainHeld h
  let engine := (chainHeld p).engine.setRecords ⟨"/W/a.h"⟩ [editedRecord]
  have hengine := hheld.move (.engine engine) trivial rfl
  obtain ⟨more, hsettled⟩ := (hengine.move (.enqueue ⟨"/W/a.h"⟩ false) trivial rfl).settle
  exact ⟨_, hsettled⟩

/-- A removal waits for the merger while the source file is taken up. -/
def chainWaiting (p : Pipeline FixtureEngine) : Pipeline FixtureEngine :=
  (((chainEdited p).notifyRemoved ⟨"/W/x.h"⟩).enqueue ⟨"/W/b.cc"⟩ false).1.takeUp

theorem run_chainWaiting {p : Pipeline FixtureEngine} (h : chainStart chainDisk = .ok p) :
    ∃ past, Run past (chainWaiting p) := by
  obtain ⟨past, hedited⟩ := run_chainEdited h
  have hremoved := hedited.move (.notifyRemoved ⟨"/W/x.h"⟩) trivial rfl
  exact ⟨past, (hremoved.move (.enqueue ⟨"/W/b.cc"⟩ false) trivial rfl).takeUp⟩

set_option maxRecDepth 10000 in
/-- An answer from the cache takes a header from editor contents back to the version on disk, after a
removal that was waiting. -/
theorem cached_job_current_header : ∃ (past : List Finding) (t a b : Pipeline FixtureEngine)
    (job : JobInHand), Run past t ∧ t.inHand = some job ∧ (t.outcome job).fromCache = true ∧
      t.outbox ≠ [] ∧ Merges (t.outcome job) a b ∧
      b.db.snapshot? ⟨"/W/a.h"⟩ ≠ a.db.snapshot? ⟨"/W/a.h"⟩ ∧
      ∃ s, b.db.snapshot? ⟨"/W/a.h"⟩ = some s ∧
        t.disk.modified? (t.normalize ⟨"/W/a.h"⟩) = some s.modified := by
  have hrun : (chainStart chainDisk).toOption.any (fun p => (chainWaiting p).inHand.any fun job =>
      let t := chainWaiting p
      decide ((t.outcome job).fromCache = true ∧ t.outbox ≠ [] ∧
        (t.work.mergeFirst (t.outbox.length + 1)).db.snapshot? ⟨"/W/a.h"⟩ ≠
          (t.work.mergeFirst t.outbox.length).db.snapshot? ⟨"/W/a.h"⟩)) = true := by
    decide +kernel
  obtain ⟨p, hnew, hp⟩ := exists_of_any hrun
  obtain ⟨job, hj, hc⟩ := Option.any_eq_true _ _ |>.mp hp
  obtain ⟨hcache, hwaits, hchanged⟩ := of_decide_eq_true hc
  obtain ⟨past, hreach⟩ := run_chainWaiting hnew
  have hmerges := hreach.merges_work hj
  obtain ⟨-, -, -, hmerged⟩ := cached_job_current hreach hj hcache
  obtain ⟨hkept | hnow, -⟩ := (hmerged _ _ hmerges).2 ⟨"/W/a.h"⟩
  · exact absurd hkept hchanged
  · exact ⟨past, _, _, _, job, hreach, hj, hcache, hwaits, hmerges, hchanged, hnow⟩

theorem exists_turn {p : Pipeline FixtureEngine} {check : Pipeline FixtureEngine → JobInHand → Bool}
    (h : p.turns.any (fun t => t.inHand.any (check t)) = true) :
    ∃ t ∈ p.turns, ∃ job, t.inHand = some job ∧ check t job = true := by
  obtain ⟨t, ht, hj⟩ := List.any_eq_true.mp h
  obtain ⟨job, hj, hc⟩ := Option.any_eq_true _ _ |>.mp hj
  exact ⟨t, ht, job, hj, hc⟩

set_option maxRecDepth 10000 in
/-- Editor contents go from the record while the editor still holds the header. -/
theorem edited_header_replayed : ∃ (past : List Finding) (p t : Pipeline FixtureEngine)
    (job : JobInHand) (q : Path), Run past p ∧ t ∈ p.turns ∧ t.inHand = some job ∧
      t.unsaved.contains q = true ∧ (t.outcome job).fromCache = true ∧
      (∃ f ∈ (t.outcome job).files, f.path.same q = true) ∧
      t.db.contributionOf? .func (.ofSignature "E") q ≠ none ∧
      t.work.flush.db.contributionOf? .func (.ofSignature "E") q = none := by
  let q : Path := ⟨"/W/a.h"⟩
  have hrun : (chainStart chainDisk).toOption.any (fun p =>
      ((chainEdited p).enqueue ⟨"/W/b.cc"⟩ false).1.turns.any fun t => t.inHand.any fun job =>
        decide (t.unsaved.contains q = true ∧ (t.outcome job).fromCache = true ∧
          (∃ f ∈ (t.outcome job).files, f.path.same q = true) ∧
          t.db.contributionOf? .func (.ofSignature "E") q ≠ none ∧
          t.work.flush.db.contributionOf? .func (.ofSignature "E") q = none)) = true := by
    decide +kernel
  obtain ⟨p, hnew, hp⟩ := exists_of_any hrun
  obtain ⟨t, ht, job, hj, hc⟩ := exists_turn hp
  obtain ⟨past, hreach⟩ := run_chainEdited hnew
  exact ⟨_, _, t, job, q, hreach.move (.enqueue ⟨"/W/b.cc"⟩ false) trivial rfl, ht, hj,
    of_decide_eq_true hc⟩

set_option maxRecDepth 10000 in
/-- As long as its time is known, a header in an editor is left alone. -/
theorem held_header_kept : ∃ (past : List Finding) (t a b : Pipeline FixtureEngine)
    (job : JobInHand) (q : Path), Run past t ∧ t.inHand = some job ∧
      t.unsaved.contains q = true ∧ (t.outcome job).fromCache = true ∧
      Merges (t.outcome job) a b ∧ (a.db.snapshot? q).isSome = true ∧
      b.db.snapshot? q = a.db.snapshot? q := by
  let q : Path := ⟨"/W/a.h"⟩
  have hrun : (chainStart chainDisk).toOption.any (fun p =>
      let t := ((chainHeld p).enqueue ⟨"/W/b.cc"⟩ false).1.takeUp
      t.inHand.any fun job => decide (
        t.unsaved.contains q = true ∧ (t.outcome job).fromCache = true ∧
          ((t.work.mergeFirst t.outbox.length).db.snapshot? q).isSome = true ∧
          t.timestamps.find? (t.normalize q) = t.disk.modified? (t.normalize q))) = true := by
    decide +kernel
  obtain ⟨p, hnew, hp⟩ := exists_of_any hrun
  obtain ⟨job, hj, hc⟩ := Option.any_eq_true _ _ |>.mp hp
  obtain ⟨hheld, hcache, hrecord, htime⟩ := of_decide_eq_true hc
  obtain ⟨past, hreach⟩ := run_chainHeld hnew
  have hasked := (hreach.move (.enqueue ⟨"/W/b.cc"⟩ false) trivial rfl).takeUp
  have hmerges := hasked.merges_work hj
  obtain ⟨-, -, -, hkept⟩ := edited_replayed_iff hasked hj hheld
  refine ⟨past, _, _, _, job, q, hasked, hj, hheld, hcache, hmerges, hrecord,
    hkept hcache ?_ _ _ hmerges⟩
  rintro e' ⟨-, -, -, -, -, hm, hunknown⟩
  exact hunknown (htime.trans hm)

end Chain

end Pipeline

end SymbolIndex
