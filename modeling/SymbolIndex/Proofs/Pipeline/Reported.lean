import SymbolIndex.Proofs.Pipeline.Abreast
import SymbolIndex.Proofs.Pipeline.Changed
import SymbolIndex.Proofs.Pipeline.Failing
import SymbolIndex.Proofs.Pipeline.Promises

/-! A failed job changes nothing but the report. A run in which a job is asked for and fails is put
beside the run in which it is not asked for. Step by step the two know the same about files, and
once the report is merged nothing else is left of the job. -/

namespace SymbolIndex

namespace Stage

/-- What waits for the merger on behalf of the job. -/
def messages (path : Path) (cause : Cause) : Stage → List MergeMessage
  | .reported => [.job { path, error := some (cause.report path) }]
  | _ => []

/-- The priorities of the requests that make the job run once more, with a new one. Until the job is
taken up they join it. -/
def note (stage : Stage) (again : List Bool) (interactive : Bool) : List Bool :=
  match stage with
  | .waiting => again
  | _ => again ++ [interactive]

/-- The job of a path at some stage, after such requests. -/
structure Describes (stage : Stage) (again : List Bool) (job : Job) : Prop where
  queued : job.state = .queued ↔ stage = .waiting
  rerun : job.rerun = !again.isEmpty
  rerunInteractive : job.rerunInteractive = again.any id

variable {stage : Stage} {again : List Bool} {t t' : Tracker} {p : Path} {job : Job}

theorem describes_accept (hj : t.jobs.find? p = some job) (h : stage.Describes again job)
    (interactive : Bool) :
    (∃ job', (t.accept p interactive).1.jobs.find? p = some job' ∧
      stage.Describes (stage.note again interactive) job') ∧
      ∃ upgraded, (t.accept p interactive).2 = .coalesced upgraded := by
  rw [Tracker.accept, hj]
  dsimp only
  split
  next hq =>
    obtain rfl := h.queued.mp hq
    exact ⟨⟨_, t.find?_put_self p _, h.queued, h.rerun, h.rerunInteractive⟩, _, rfl⟩
  next hq =>
    have hnote : stage.note again interactive = again ++ [interactive] := by
      cases stage with
      | waiting => exact absurd (h.queued.mpr rfl) hq
      | running => rfl
      | reported => rfl
    have hrerun : true = !(again ++ [interactive]).isEmpty := by simp
    have hpriority : (job.rerunInteractive || interactive) = (again ++ [interactive]).any id := by
      rw [h.rerunInteractive, List.any_append, List.any_cons, List.any_nil, Bool.or_false, id]
    rw [hnote]
    exact ⟨⟨_, t.find?_put_self p _, h.queued, hrerun, hpriority⟩, _, rfl⟩

theorem describes_start {interactive : Bool} (hj : t.jobs.find? p = some job)
    (h : Stage.waiting.Describes again job) (hs : t.start p = some (t', interactive)) :
    ∃ job', t'.jobs.find? p = some job' ∧ Stage.running.Describes again job' := by
  obtain ⟨job', hj', -, -, rfl⟩ := Tracker.start_spec hs
  cases hj.symm.trans hj'
  exact ⟨_, t.find?_put_self p _, by simp, h.rerun, h.rerunInteractive⟩

/-- At its end a job is retired, or queued again for the requests that came meanwhile. -/
theorem finish_of_describes (hj : t.jobs.find? p = some job) (h : stage.Describes again job) :
    (t.finish p).2 = (if again = [] then none else some (again.any id)) ∧
      (t.finish p).1.jobs.find? p =
        if again = [] then none else some { interactive := again.any id } := by
  rw [Tracker.finish, hj]
  dsimp only
  rw [h.rerun, h.rerunInteractive]
  cases again with
  | nil => exact ⟨rfl, (t.jobs.find?_erase p p).trans (if_pos Std.ReflCmp.compare_self)⟩
  | cons first rest => exact ⟨rfl, t.find?_put_self p _⟩

end Stage

namespace Pipeline

variable {σ : Type}

theorem enqueue_accepted_iff {p : Pipeline σ} {file : Path} {interactive : Bool} :
    (p.enqueue file interactive).2 = .accepted ↔
      p.filter.rejection? (p.normalize file) = none ∧
        p.tracker.jobs.find? (p.normalize file) = none := by
  rw [enqueue]
  dsimp only
  generalize p.normalize file = q
  cases p.filter.rejection? q with
  | some rule => simp
  | none =>
    rw [← p.tracker.accept_accepted_iff q interactive]
    generalize p.tracker.accept q interactive = accepted
    obtain ⟨tracker, _ | upgraded⟩ := accepted <;> simp

/-- The first pipeline, and the second that has one job more. -/
structure Beside (path : Path) (cause : Cause) (stage : Stage) (again : List Bool)
    (a b : Pipeline σ) : Prop extends Abreast path stage a b where
  outbox : b.outbox = a.outbox ++ stage.messages path cause
  job : ∃ job, b.tracker.jobs.find? path = some job ∧ stage.Describes again job
  spares : ∀ m ∈ a.outbox, Spares m path
  allowed : a.filter.rejection? path = none

variable {path : Path} {cause : Cause} {stage : Stage} {again : List Bool} {a b : Pipeline σ}

theorem Orderly.spares {p : Pipeline σ} (h : p.Orderly) (hr : ¬ p.tracker.Running path) :
    ∀ m ∈ p.outbox, Spares m path := by
  intro m hm file hfile
  rw [Bool.eq_false_iff]
  intro hs
  have hmem : file ∈ p.underway :=
    List.mem_append_right _ (List.mem_filterMap.mpr ⟨m, hm, hfile⟩)
  exact hr ((h.running file hmem).congr hs)

/-- A request that makes a new job. -/
theorem beside_enqueue {p : Pipeline σ} (hp : p.Orderly) {file : Path} {interactive : Bool}
    (hn : p.normalize file = path) (h : (p.enqueue file interactive).2 = .accepted) :
    Beside path cause .waiting [] p (p.enqueue file interactive).1 := by
  obtain ⟨hallowed, hfree⟩ := enqueue_accepted_iff.mp h
  rw [hn] at hallowed hfree
  have hidle : ¬ p.tracker.Running path := by
    rintro ⟨job, hj, -⟩
    rw [hfree] at hj
    cases hj
  have hcounters : p.counters.Ahead .waiting p.counters.jobQueued := ⟨rfl, rfl, rfl, rfl⟩
  have helsewhere := p.tracker.agreesOff_accept path interactive
  rw [Pipeline.enqueue, hn]
  dsimp only
  rw [hallowed]
  rw [Tracker.accept, hfree] at helsewhere ⊢
  have hjob : ∃ job, (p.tracker.put path { interactive }).jobs.find? path = some job ∧
      Stage.waiting.Describes [] job :=
    ⟨_, p.tracker.find?_put_self path _, by simp, rfl, rfl⟩
  cases interactive <;> exact {
    Alike.refl p with
    counters := hcounters
    elsewhere := helsewhere
    outbox := (List.append_nil _).symm
    job := hjob
    spares := hp.spares hidle
    allowed := hallowed }

/-- The pipeline as if nobody had asked for a path that is queued. -/
def without (p : Pipeline σ) (path : Path) : Pipeline σ :=
  { p with
    tracker := { p.tracker with jobs := p.tracker.jobs.erase path }
    counters := { p.counters with queued := p.counters.queued - 1 } }

/-- A job that has been waiting, and is counted as such. -/
theorem beside_without {p : Pipeline σ} (hp : p.Orderly) {interactive : Bool}
    (hj : p.tracker.jobs.find? path = some { interactive }) (hq : 0 < p.counters.queued)
    (hallowed : p.filter.rejection? path = none) :
    Beside path cause .waiting [] (p.without path) p := by
  have hidle : ¬ p.tracker.Running path := by
    rintro ⟨job, hj', hn⟩
    cases hj.symm.trans hj'
    exact hn rfl
  have helsewhere : (p.without path).tracker.AgreesOff path p.tracker := by
    refine ⟨fun q hs => ?_, rfl⟩
    have hne : ¬ compare path q = .eq := by
      rw [Path.compare_eq_iff, Path.same_comm, hs]
      exact Bool.false_ne_true
    exact (if_neg hne).symm.trans (p.tracker.jobs.find?_erase path q).symm
  exact {
    Alike.refl p with
    counters := ⟨(Nat.sub_add_cancel hq).symm, rfl, rfl, rfl⟩
    elsewhere := helsewhere
    outbox := (List.append_nil _).symm
    job := ⟨_, hj, by simp, rfl, rfl⟩
    spares := hp.spares hidle
    allowed := hallowed }

theorem find?_mergeBatch (p : Pipeline σ) {batch : List MergeMessage}
    (hb : ∀ m ∈ batch, Spares m path) :
    (p.mergeBatch batch).tracker.jobs.find? path = p.tracker.jobs.find? path := by
  have hretire : ∀ (p : Pipeline σ) (m : MergeMessage), Spares m path →
      (p.retire m).tracker.jobs.find? path = p.tracker.jobs.find? path := by
    intro p m hm
    cases m with
    | job outcome =>
      have hs : path.same outcome.path = false := by rw [Path.same_comm, hm _ rfl]
      have hfinish := p.tracker.find?_finish hs
      rw [retire]
      generalize p.tracker.finish outcome.path = finished at hfinish
      obtain ⟨tracker, _ | interactive⟩ := finished
      · exact hfinish
      · cases interactive <;> exact hfinish
    | remove file => rfl
  obtain ⟨_, _, _, _, _, _, _, -, hm, -⟩ := p.settled_mergeBatch batch
  rw [hm]
  change (batch.foldl retire p).tracker.jobs.find? path = _
  clear hm
  induction batch generalizing p with
  | nil => rfl
  | cons m rest ih =>
    obtain ⟨hm, hrest⟩ := List.forall_mem_cons.mp hb
    exact (ih (p.retire m) hrest).trans (hretire p m hm)

theorem Beside.enqueue_other (h : Beside path cause stage again a b) {file : Path}
    (hf : (a.normalize file).same path = false) (interactive : Bool) :
    Beside path cause stage again (a.enqueue file interactive).1
      (b.enqueue file interactive).1 := by
  have hout := (a.sameFiles_enqueue file interactive).outbox
  have hout' := (b.sameFiles_enqueue file interactive).outbox
  have hfind : (b.enqueue file interactive).1.tracker.jobs.find? path =
      b.tracker.jobs.find? path := by
    rw [(b.tracker_enqueue file interactive).2, h.normalize]
    split
    next =>
      rw [Path.same_comm] at hf
      exact Tracker.find?_accept hf interactive
    next => rfl
  refine { h.toAbreast.enqueue hf interactive with
    outbox := ?_
    job := ?_
    spares := ?_
    allowed := ?_ }
  · rw [hout, hout', h.outbox]
  · rw [hfind]
    exact h.job
  · rw [hout]
    exact h.spares
  · rw [(a.sameFiles_enqueue file interactive).filter]
    exact h.allowed

/-- A request for the path joins the job, or makes it run once more. -/
theorem Beside.enqueue_again (h : Beside path cause stage again a b) {file : Path}
    (hf : a.normalize file = path) (interactive : Bool) :
    Beside path cause stage (stage.note again interactive) a (b.enqueue file interactive).1 := by
  have hn : b.normalize file = path := (h.normalize file).trans hf
  have hallowed : b.filter.rejection? path = none := by rw [h.filter, h.allowed]
  obtain ⟨job, hj, hd⟩ := h.job
  obtain ⟨hjob, upgraded, hadmission⟩ := Stage.describes_accept hj hd interactive
  have helsewhere := h.elsewhere.trans (b.tracker.agreesOff_accept path interactive)
  have hcounters : a.counters.Ahead stage b.counters.requestCoalesced :=
    ⟨h.counters.queued, h.counters.parsing, h.counters.merging, h.counters.totals⟩
  rw [Pipeline.enqueue, hn]
  dsimp only
  rw [hallowed]
  generalize b.tracker.accept path interactive = accepted at hjob hadmission helsewhere
  obtain ⟨tracker, admission⟩ := accepted
  dsimp only at hjob hadmission helsewhere
  subst hadmission
  cases upgraded <;>
    exact { h with counters := hcounters, elsewhere := helsewhere, job := hjob }

/-- Messages of others are merged alike. -/
theorem Beside.mergeFirst (h : Beside path cause stage again a b) {size : Nat}
    (hs : size ≤ a.outbox.length) :
    Beside path cause stage again (a.mergeFirst size) (b.mergeFirst size) := by
  have hbatch : ∀ m ∈ a.outbox.take size, Spares m path :=
    fun m hm => h.spares m (List.mem_of_mem_take hm)
  have htake : b.outbox.take size = a.outbox.take size := by
    rw [h.outbox, List.take_append_of_le_length hs]
  have hbefore : Abreast path stage { a with outbox := a.outbox.drop size }
      { b with outbox := b.outbox.drop size } := { h.toAbreast with }
  have hmerged : Abreast path stage (a.mergeFirst size) (b.mergeFirst size) := by
    rw [Pipeline.mergeFirst, Pipeline.mergeFirst, htake]
    exact hbefore.mergeBatch hbatch
  obtain ⟨hout, hfilter, -⟩ := a.mergeFirst_frame size
  obtain ⟨hout', -⟩ := b.mergeFirst_frame size
  refine { hmerged with outbox := ?_, job := ?_, spares := ?_, allowed := ?_ }
  · rw [hout, hout', h.outbox, List.drop_append_of_le_length hs]
  · rw [Pipeline.mergeFirst, htake, find?_mergeBatch _ hbatch]
    exact h.job
  · rw [hout]
    exact fun m hm => h.spares m (List.mem_of_mem_drop hm)
  · rw [hfilter]
    exact h.allowed

theorem takeUpWithin_started {p : Pipeline σ} {job : JobInHand} (fuel : Nat)
    (hp : p.inHand = none) (h : (takeUpWithin fuel p).inHand = some job) :
    ∃ tracker fore back, p.tracker.start job.path = some (tracker, job.interactive) ∧
      takeUpWithin fuel p = { p with
        tracker := tracker
        interactive := fore
        background := back
        counters := p.counters.jobStarted
        inHand := some job
        journal := .job job.path :: p.journal } := by
  induction fuel generalizing p with
  | zero =>
    rw [takeUpWithin, hp] at h
    cases h
  | succ fuel ih =>
    have hnone : ¬ p.inHand.isSome = true := by simp [hp]
    rw [takeUpWithin, if_neg hnone] at h ⊢
    cases hr : p.receive? with
    | none =>
      rw [hr, hp] at h
      cases h
    | some received =>
      obtain ⟨p', path⟩ := received
      obtain ⟨-, fore, back, rfl⟩ := receive?_spec hr
      rw [hr] at h
      dsimp only at h ⊢
      cases hs : p.tracker.start path with
      | none =>
        -- A stale entry leaves nothing but a shorter queue.
        have hstale : begin { p with interactive := fore, background := back } path =
            { p with interactive := fore, background := back } := by rw [begin, hs]
        rw [hstale] at h ⊢
        exact ih (p := { p with interactive := fore, background := back }) hp h
      | some started =>
        obtain ⟨tracker, interactive⟩ := started
        have hbegin : begin { p with interactive := fore, background := back } path = { p with
            tracker := tracker
            interactive := fore
            background := back
            counters := p.counters.jobStarted
            inHand := some ⟨path, interactive⟩
            journal := .job path :: p.journal } := by
          rw [begin, hs]
          rfl
        rw [hbegin, takeUpWithin_of_inHand rfl] at h ⊢
        cases h
        exact ⟨tracker, fore, back, hs, rfl⟩

theorem Beside.takeUp (h : Beside path cause .waiting again a b) (hb : b.inHand = none)
    {interactive : Bool} (ht : b.takeUp.inHand = some ⟨path, interactive⟩) :
    Beside path cause .running again a b.takeUp := by
  obtain ⟨tracker, _, _, hs, htake⟩ := takeUpWithin_started _ hb ht
  obtain ⟨job, hj, hd⟩ := h.job
  have hcounters : a.counters.Ahead .running b.counters.jobStarted := by
    refine ⟨?_, congrArg (· + 1) h.counters.parsing, h.counters.merging, h.counters.totals⟩
    change b.counters.queued - 1 = a.counters.queued
    rw [h.counters.queued]
    exact Nat.add_sub_cancel _ 1
  rw [Pipeline.takeUp, htake]
  exact { h with
    counters := hcounters
    elsewhere := h.elsewhere.trans (Tracker.agreesOff_start hs)
    job := Stage.describes_start hj hd hs }

/-- The second pipeline is what the first is, but for the report of a job that failed. The job is
gone, or queued again if it was asked for meanwhile. -/
structure OnlyReported (path : Path) (cause : Cause) (again : List Bool) (a b : Pipeline σ) : Prop
    extends a.Alike b where
  failed : b.counters.failed = a.counters.failed + 1
  errors : b.counters.errors = a.counters.errors ++ [cause.report path]
  applied : b.counters.applied = a.counters.applied
  filesApplied : b.counters.filesApplied = a.counters.filesApplied
  queued : b.counters.queued = a.counters.queued + if again = [] then 0 else 1
  parsing : b.counters.parsing = a.counters.parsing
  merging : b.counters.merging = a.counters.merging
  elsewhere : a.tracker.AgreesOff path b.tracker
  retired : again = [] → b.tracker.jobs.find? path = none ∧
    ∀ file interactive, b.normalize file = path → (b.enqueue file interactive).2 = .accepted
  rerun : again ≠ [] → b.tracker.jobs.find? path = some { interactive := again.any id } ∧
    path ∈ if again.any id then b.interactive else b.background

theorem finishJob_failed (p : Pipeline σ) (path : Path) (e : FileError) :
    p.finishJob { path, error := some e } =
      Pipeline.complete { p with
        counters := (p.counters.addFilesApplied 0).jobFailed e } path := rfl

theorem Abreast.finish (h : Abreast path .reported a b) {job : Job}
    (hj : b.tracker.jobs.find? path = some job) (hd : Stage.reported.Describes again job)
    (hallowed : b.filter.rejection? path = none) :
    OnlyReported path cause again a
      (b.finishJob { path, error := some (cause.report path) }) := by
  obtain ⟨hrerun, hfind⟩ := Stage.finish_of_describes hj hd
  have helsewhere := h.elsewhere.trans (b.tracker.agreesOff_finish path)
  have hfailed : b.counters.failed = a.counters.failed := congrArg (·.failed) h.counters.totals
  have herrors : b.counters.errors = a.counters.errors := congrArg (·.errors) h.counters.totals
  rw [finishJob_failed, Pipeline.complete]
  dsimp only
  generalize b.tracker.finish path = finished at hrerun hfind helsewhere
  obtain ⟨tracker, rerun⟩ := finished
  dsimp only at hrerun hfind helsewhere
  subst hrerun
  -- What is left open is the queue that the path may have gone to.
  have hreport : ∀ fore back queued, queued = a.counters.queued + (if again = [] then 0 else 1) →
      (again ≠ [] → path ∈ if again.any id then fore else back) →
      OnlyReported path cause again a { b with
        counters := { (b.counters.addFilesApplied 0).jobFailed (cause.report path) with queued }
        tracker := tracker
        interactive := fore
        background := back } := by
    intro fore back queued hqueued hqueue
    refine { h with
      failed := congrArg (· + 1) hfailed
      errors := congrArg (· ++ [_]) herrors
      applied := congrArg (·.applied) h.counters.totals
      filesApplied := congrArg (·.filesApplied) h.counters.totals
      queued := hqueued
      parsing := h.counters.parsing
      merging := h.counters.merging
      elsewhere := helsewhere
      retired := fun hnone => ?_
      rerun := fun hsome => ⟨?_, hqueue hsome⟩ }
    · rw [if_pos hnone] at hfind
      refine ⟨hfind, fun file interactive hn => enqueue_accepted_iff.mpr ?_⟩
      rw [hn]
      exact ⟨hallowed, hfind⟩
    · rwa [if_neg hsome] at hfind
  have hqueued : b.counters.queued = a.counters.queued := h.counters.queued
  cases again with
  | nil => exact hreport _ _ _ hqueued fun hsome => absurd rfl hsome
  | cons first rest =>
    have hmore : b.counters.queued + 1 = a.counters.queued + 1 := congrArg (· + 1) hqueued
    rw [if_neg (List.cons_ne_nil first rest)]
    generalize (first :: rest).any id = priority at hreport
    cases priority with
    | false => exact hreport _ _ _ hmore fun _ => List.mem_append_right _ List.mem_cons_self
    | true => exact hreport _ _ _ hmore fun _ => List.mem_append_right _ List.mem_cons_self

variable [Engine σ]

/-- The report of a job that failed goes to the merger. -/
theorem Beside.fail (h : Beside path cause .running again a b) {interactive : Bool}
    {r : Pipeline σ × Outcome} (hf : Fails { b with inHand := none } path interactive cause r) :
    Beside path cause .reported again a (r.1.submit r.2) := by
  obtain ⟨houtcome, hspent, hown⟩ := hf.spec
  obtain ⟨job, hj, hd⟩ := h.job
  have hrunning : job.state ≠ .queued := fun hq => Stage.noConfusion (hd.queued.mp hq)
  obtain ⟨state, hs, hj'⟩ := hspent.job job hj hrunning
  let counted : Counters := { b.counters with filesSkipped := r.1.counters.filesSkipped }
  have hcounters : a.counters.Ahead .reported counted.jobMergeQueued := by
    refine ⟨h.counters.queued, ?_, ?_, h.counters.totals⟩
    · change b.counters.parsing - 1 = a.counters.parsing
      rw [h.counters.parsing]
      exact Nat.add_sub_cancel _ 1
    · exact h.counters.merging
  have hjob : ∃ job, (r.1.tracker.setState path .mergeQueued).jobs.find? path = some job ∧
      Stage.reported.Describes again job := by
    rw [Tracker.setState, hj']
    exact ⟨_, Tracker.find?_put_self _ path _, by simp, hd.rerun, hd.rerunInteractive⟩
  have helsewhere := (h.elsewhere.trans hspent.elsewhere).trans
    (r.1.tracker.agreesOff_setState path .mergeQueued)
  have hstore := hspent.store
  obtain ⟨p', outcome⟩ := r
  obtain ⟨_, _, _, _, _, _, hp'⟩ := hspent.rest
  dsimp only at houtcome hp' hcounters hjob helsewhere hown hstore
  subst houtcome hp'
  exact { h with
    store := hstore.trans h.store
    ownership := fun file => (hown file).trans (h.ownership file)
    counters := hcounters
    elsewhere := helsewhere
    outbox := congrArg (· ++ [_]) (h.outbox.trans (List.append_nil _))
    job := hjob }

/-- The second pipeline is in a run in which the job of a path fails, the first in the same run
without that job. The job has just been asked for, or it has been waiting. In the meantime other
paths are asked for and messages are merged, in both runs, and in the second the path is asked for
again. -/
inductive FailingRun (path : Path) (cause : Cause) :
    Stage → List Bool → Pipeline σ → Pipeline σ → Prop
  | asked {p : Pipeline σ} (hp : p.Orderly) {file : Path} {interactive : Bool}
    (hn : p.normalize file = path) (ha : (p.enqueue file interactive).2 = .accepted) :
    FailingRun path cause .waiting [] p (p.enqueue file interactive).1
  | waiting {p : Pipeline σ} (hp : p.Orderly) {interactive : Bool}
    (hj : p.tracker.jobs.find? path = some { interactive }) (hq : 0 < p.counters.queued)
    (ha : p.filter.rejection? path = none) :
    FailingRun path cause .waiting [] (p.without path) p
  | other {stage : Stage} {again : List Bool} {a b : Pipeline σ}
    (h : FailingRun path cause stage again a b) {file : Path} (interactive : Bool)
    (hn : (a.normalize file).same path = false) :
    FailingRun path cause stage again (a.enqueue file interactive).1 (b.enqueue file interactive).1
  | again {stage : Stage} {again : List Bool} {a b : Pipeline σ}
    (h : FailingRun path cause stage again a b) {file : Path} (interactive : Bool)
    (hn : a.normalize file = path) :
    FailingRun path cause stage (stage.note again interactive) a (b.enqueue file interactive).1
  | merge {stage : Stage} {again : List Bool} {a b : Pipeline σ}
    (h : FailingRun path cause stage again a b) {size : Nat} (hs : size ≤ a.outbox.length) :
    FailingRun path cause stage again (a.mergeFirst size) (b.mergeFirst size)
  | takeUp {again : List Bool} {a b : Pipeline σ} (h : FailingRun path cause .waiting again a b)
    (hb : b.inHand = none) {interactive : Bool}
    (ht : b.takeUp.inHand = some ⟨path, interactive⟩) :
    FailingRun path cause .running again a b.takeUp
  | fail {again : List Bool} {a b : Pipeline σ} (h : FailingRun path cause .running again a b)
    {interactive : Bool} (hj : b.inHand = some ⟨path, interactive⟩) {r : Pipeline σ × Outcome}
    (hf : Fails { b with inHand := none } path interactive cause r) :
    FailingRun path cause .reported again a (r.1.submit r.2)

/-- A step of the worker that ends in an error is one of these. -/
theorem FailingRun.work (h : FailingRun path cause .running again a b) {interactive : Bool}
    (hj : b.inHand = some ⟨path, interactive⟩)
    (he : (Pipeline.process { b with inHand := none } path interactive).2.error =
      some (cause.report path)) : FailingRun path cause .reported again a b.work := by
  have hfail := h.fail hj (.reported he)
  rw [Pipeline.work, hj]
  dsimp only
  generalize Pipeline.process { b with inHand := none } path interactive = r at hfail ⊢
  obtain ⟨p, outcome⟩ := r
  exact hfail

/-- A job that fails, even by a crash, leaves the jobs in order. -/
theorem FailingRun.orderly (h : FailingRun path cause stage again a b) : b.Orderly := by
  induction h with
  | asked hp hn ha => exact hp.enqueue _ _
  | waiting hp hj hq ha => exact hp
  | other h interactive hn ih => exact ih.enqueue _ _
  | again h interactive hn ih => exact ih.enqueue _ _
  | merge h hs ih => exact ih.mergeFirst _
  | takeUp h hb ht ih => exact ih.takeUp
  | fail h hj hf ih =>
    obtain ⟨houtcome, hspent, -⟩ := hf.spec
    obtain ⟨_, _, _, _, _, _, hrest⟩ := hspent.rest
    refine ih.submit hj ?_ ?_ ?_ ?_ (fun _ hr => hspent.running hr) hspent.elsewhere.removals ?_
    · rw [hrest]
    · rw [hrest]
    · rw [hrest]
    · rw [hrest]
    · rw [houtcome]

theorem FailingRun.beside (h : FailingRun path cause stage again a b) :
    Beside path cause stage again a b := by
  induction h with
  | asked hp hn ha => exact beside_enqueue hp hn ha
  | waiting hp hj hq ha => exact beside_without hp hj hq ha
  | other h interactive hn ih => exact ih.enqueue_other hn interactive
  | again h interactive hn ih => exact ih.enqueue_again hn interactive
  | merge h hs ih => exact ih.mergeFirst hs
  | takeUp h hb ht ih => exact ih.takeUp hb ht
  | fail h hj hf ih => exact ih.fail hf

/-- Once the report of a failed job is merged, it is all that has changed. Where nothing else was
asked for and nothing waited for the merger, the first pipeline is the one in which the job was
asked for. -/
theorem only_failure_reported (h : FailingRun path cause .reported again a b) {size : Nat}
    (hs : a.outbox.length < size) :
    OnlyReported path cause again (a.mergeFirst size) (b.mergeFirst size) := by
  have hbeside := h.beside
  have hbatch : ∀ m ∈ a.outbox, Spares m path := hbeside.spares
  have hlen : b.outbox.length ≤ size := by
    rw [hbeside.outbox, List.length_append]
    exact hs
  have hbefore : Abreast path .reported { a with outbox := [] } { b with outbox := [] } :=
    { hbeside.toAbreast with }
  have hmerged := hbefore.mergeBatch hbatch
  have hfind := find?_mergeBatch { b with outbox := [] } hbatch
  obtain ⟨job, hj, hd⟩ := hbeside.job
  let report : Outcome := { path, error := some (cause.report path) }
  have ha : a.mergeFirst size = Pipeline.mergeBatch { a with outbox := [] } a.outbox := by
    rw [Pipeline.mergeFirst, List.drop_of_length_le (by omega), List.take_of_length_le (by omega)]
  have hb : b.mergeFirst size =
      (Pipeline.mergeBatch { b with outbox := [] } a.outbox).finishJob report := by
    rw [Pipeline.mergeFirst, List.drop_of_length_le hlen, List.take_of_length_le hlen,
      hbeside.outbox, mergeBatch_append]
    rfl
  rw [ha, hb]
  refine hmerged.finish (hfind.trans hj) hd ?_
  rw [hmerged.filter, ← ha, (a.mergeFirst_frame size).2.1]
  exact hbeside.allowed

section Chain

set_option maxRecDepth 10000 in
/-- The job of the source file crashes when it has claimed two files. A removal waits for the merger
meanwhile, and the file is asked for once more. -/
theorem only_failure_reported_chain : ∃ (path : Path) (message : String)
    (a b : Pipeline FixtureEngine), FailingRun path (.crash message) .reported [false] a b ∧
      a.outbox = [.remove ⟨"/W/a.h"⟩] ∧
      OnlyReported path (.crash message) [false] (a.mergeFirst 2) (b.mergeFirst 2) := by
  let f : Path := ⟨"/W/b.cc"⟩
  let header : Path := ⟨"/W/a.h"⟩
  have hrun : (chainStart chainDisk).toOption.any (fun p =>
      let asked := p.indexProject.1.settle.notifyRemoved header
      let requested := (asked.enqueue f true).1
      decide (asked.outbox = [.remove header] ∧ asked.normalize f = f ∧
        (asked.enqueue f true).2 = .accepted ∧ requested.inHand = none ∧
        requested.takeUp.inHand = some ⟨f, true⟩)) = true := by
    decide +kernel
  obtain ⟨p, hnew, hp⟩ := exists_of_any hrun
  obtain ⟨hout, hn, haccepted, hfree, htaken⟩ := of_decide_eq_true hp
  obtain ⟨_, hindexed⟩ := ((run_chainStart hnew).enqueueAll _ _ _).settle
  have horderly : (p.indexProject.1.settle.notifyRemoved header).Orderly :=
    hindexed.orderly.notifyRemoved header
  generalize p.indexProject.1.settle.notifyRemoved header = asked at *
  let running := ((asked.enqueue f true).1.takeUp.enqueue f false).1
  have hrunning : FailingRun f (.crash "bug") .running [false] asked running :=
    ((FailingRun.asked horderly hn haccepted).takeUp hfree htaken).again false hn
  have hj : running.inHand = some ⟨f, true⟩ :=
    ((asked.enqueue f true).1.takeUp.tracker_enqueue f false).1.trans htaken
  let busy : Pipeline FixtureEngine := { running with inHand := none }
  have hstart : Underway busy f (.start busy) := .start
  have hclaimed := ((hstart.lookUp.call ["clang"]).claim f).claim header
  have hreported := hrunning.fail hj (.crashed hclaimed "bug")
  exact ⟨f, "bug", asked, _, hreported, hout,
    only_failure_reported hreported (by rw [hout]; decide)⟩

end Chain

end Pipeline

end SymbolIndex
