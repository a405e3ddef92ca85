import SymbolIndex.Proofs.Pipeline.Orderly

/-! Turns of a run. While a pipeline runs until it is idle, every state with a job in hand is a
turn. The engine is called once in a turn that is due and in no other, and every job that was
queued for the background gets exactly one turn. -/

namespace SymbolIndex

namespace Pipeline

variable {σ : Type}

theorem receive?_eq_none {p : Pipeline σ} (h : p.receive? = none) : p.queue = [] := by
  rw [receive?] at h
  split at h
  next => cases h
  next => cases h
  next hi hb => rw [queue, hi, hb]; rfl

theorem begin_spec (p : Pipeline σ) (path : Path) :
    ∃ tracker counters inHand, ∃ started : List Path, p.begin path = { p with
      tracker := tracker
      counters := counters
      inHand := inHand
      journal := started.map .job ++ p.journal } ∧ p.counters.errors ⊆ counters.errors := by
  rw [begin]
  split
  next => exact ⟨_, _, _, [], rfl, fun _ he => he⟩
  next => exact ⟨_, _, _, [path], rfl, fun _ he => he⟩

/-- Taking a job up adds to the journal which jobs were started. -/
theorem takeUpWithin_spec (fuel : Nat) (p : Pipeline σ) :
    ∃ tracker interactive background counters inHand, ∃ started : List Path,
      takeUpWithin fuel p = { p with
        tracker := tracker
        interactive := interactive
        background := background
        counters := counters
        inHand := inHand
        journal := started.map .job ++ p.journal } ∧ p.counters.errors ⊆ counters.errors := by
  induction fuel generalizing p with
  | zero => exact ⟨_, _, _, _, _, [], rfl, fun _ he => he⟩
  | succ fuel ih =>
    rw [takeUpWithin]
    split
    next => exact ⟨_, _, _, _, _, [], rfl, fun _ he => he⟩
    next =>
      split
      next => exact ⟨_, _, _, _, _, [], rfl, fun _ he => he⟩
      next p' path hr =>
        obtain ⟨_, _, _, rfl⟩ := receive?_spec hr
        obtain ⟨_, _, _, first, hfirst, he⟩ := begin_spec _ path
        obtain ⟨_, _, _, _, _, rest, hrest, he'⟩ := ih (begin _ path)
        rw [hfirst] at he'
        rw [hrest, hfirst]
        exact ⟨_, _, _, _, _, rest ++ first, by rw [List.map_append, List.append_assoc],
          List.Subset.trans he he'⟩

variable [Engine σ]

def turnsWithin : (fuel : Nat) → Pipeline σ → List (Pipeline σ)
  | 0, _ => []
  | fuel + 1, p => if p.inHand.isNone then [] else p :: turnsWithin fuel p.step

def turns (p : Pipeline σ) : List (Pipeline σ) :=
  turnsWithin (p.interactive.length + p.background.length + 2 * p.tracker.jobs.size)
    p.flush.takeUp

/-- In this turn the engine is called with these arguments. -/
def Calls (t : Pipeline σ) (path : Path) (args : List String) (unsaved : Buffers) : Prop :=
  ∃ job, t.inHand = some job ∧ t.due job.path job.interactive = true ∧ path = job.path ∧
    args = t.project.argsFor job.path ∧ unsaved = t.unsaved

omit [Engine σ] in
theorem mem_extraction {t : Pipeline σ} {job : JobInHand} (h : t.inHand = some job)
    {path : Path} {args : List String} {unsaved : Buffers} :
    .extract path args unsaved ∈ t.extraction job.path job.interactive ↔
      t.Calls path args unsaved := by
  rw [extraction]
  constructor
  · intro hm
    split at hm
    next hd =>
      have he := List.mem_singleton.mp hm
      cases he
      exact ⟨job, h, hd, rfl, rfl, rfl⟩
    next => cases hm
  · rintro ⟨job', hj, hd, rfl, rfl, rfl⟩
    rw [h] at hj
    cases hj
    rw [if_pos hd]
    exact List.mem_singleton.mpr rfl

omit [Engine σ] in
theorem errors_takeUp (p : Pipeline σ) : p.counters.errors ⊆ p.takeUp.counters.errors := by
  obtain ⟨_, _, _, _, _, _, hs, he⟩ :=
    takeUpWithin_spec (p.interactive.length + p.background.length) p
  rw [takeUp, hs]
  exact he

/-- One job of a run. What the editor holds and what the project lists stay as they are, and no error
is forgotten. -/
theorem step_spec {t : Pipeline σ} {job : JobInHand} (hb : 0 < t.settings.mergeBatchSize)
    (h : t.inHand = some job) :
    t.step.project = t.project ∧ t.step.unsaved = t.unsaved ∧ t.step.settings = t.settings ∧
      t.counters.errors ⊆ t.step.counters.errors ∧ ∃ started : List Path,
        t.step.journal =
          started.map .job ++ (t.extraction job.path job.interactive ++ t.journal) := by
  obtain ⟨_, _, _, _, _, _, hw, hwork⟩ := work_spec h
  have hbatch : 0 < t.work.settings.mergeBatchSize := by
    rw [hw]
    exact hb
  have hf := settled_flush t.work hbatch
  obtain ⟨_, _, _, hretire⟩ := foldl_retire_spec { t.work with outbox := [] } t.work.outbox
  rw [hretire] at hf
  obtain ⟨_, _, _, _, _, _, _, _, hf, hflush⟩ := hf
  obtain ⟨_, _, _, _, _, started, hs, htake⟩ := takeUpWithin_spec
    (t.work.flush.interactive.length + t.work.flush.background.length) t.work.flush
  have herrors : t.counters.errors ⊆ t.work.counters.errors := by
    rw [hw]
    exact hwork
  have hmerged : t.work.counters.errors ⊆ t.work.flush.counters.errors := by
    rw [hf]
    exact hflush
  rw [step, takeUp, hs]
  refine ⟨?_, ?_, ?_, List.Subset.trans herrors (List.Subset.trans hmerged htake), started, ?_⟩ <;> rw [hf, hw]

theorem turnsWithin_spec (fuel : Nat) {p : Pipeline σ} (h : p.Orderly) :
    ∀ t ∈ turnsWithin fuel p, t.project = p.project ∧ t.unsaved = p.unsaved := by
  induction fuel generalizing p with
  | zero => exact fun t ht => absurd ht List.not_mem_nil
  | succ fuel ih =>
    intro t ht
    rw [turnsWithin] at ht
    split at ht
    next => cases ht
    next hn =>
      rcases List.mem_cons.mp ht with rfl | ht
      · exact ⟨rfl, rfl⟩
      · obtain ⟨job, hj⟩ := Option.ne_none_iff_exists'.mp (mt Option.isNone_iff_eq_none.mpr hn)
        obtain ⟨hproject, hunsaved, _⟩ := step_spec h.batch hj
        obtain ⟨hp, hu⟩ := ih h.step t ht
        exact ⟨hp.trans hproject, hu.trans hunsaved⟩

/-- What a run adds to the journal tells in which turns the engine was called. -/
theorem journal_run (fuel : Nat) {p : Pipeline σ} (h : p.Orderly) :
    ∃ events, (run fuel p).journal = events ++ p.journal ∧
      ∀ path args unsaved, .extract path args unsaved ∈ events ↔
        ∃ t ∈ turnsWithin fuel p, t.Calls path args unsaved := by
  induction fuel generalizing p with
  | zero => exact ⟨[], rfl, by simp [turnsWithin]⟩
  | succ fuel ih =>
    rw [run, turnsWithin]
    split
    next => exact ⟨[], rfl, by simp⟩
    next hn =>
      obtain ⟨job, hj⟩ := Option.ne_none_iff_exists'.mp (mt Option.isNone_iff_eq_none.mpr hn)
      obtain ⟨_, _, _, _, started, hstep⟩ := step_spec h.batch hj
      obtain ⟨events, hrun, hmem⟩ := ih h.step
      refine ⟨events ++ (started.map .job ++ p.extraction job.path job.interactive), ?_,
        fun path args unsaved => ?_⟩
      · rw [hrun, hstep, List.append_assoc, List.append_assoc]
      · have hstarted : PipelineEvent.extract path args unsaved ∉ started.map .job := by
          intro hm
          obtain ⟨_, _, he⟩ := List.mem_map.mp hm
          cases he
        rw [List.mem_append, List.mem_append, hmem, or_iff_right hstarted, mem_extraction hj]
        simp only [List.mem_cons, exists_eq_or_imp, or_comm]

section Pending

/-- A job that waits for the background worker. -/
def Job.Waits (job : Job) : Prop :=
  job.state = .queued ∧ job.interactive = false ∧ job.rerun = false

/-- Nothing is under way, and every job waits in the queue. -/
structure Pending (p : Pipeline σ) : Prop where
  batch : 0 < p.settings.mergeBatchSize
  hand : p.inHand = none
  outbox : p.outbox = []
  removals : p.tracker.removals = 0
  waits : ∀ path job, p.tracker.jobs.find? path = some job → Job.Waits job
  queued : ∀ path job, p.tracker.jobs.find? path = some job → ∃ q ∈ p.queue, q.same path = true

/-- One job is in hand and every other waits in the queue. -/
structure Busy (p : Pipeline σ) (path : Path) : Prop where
  batch : 0 < p.settings.mergeBatchSize
  hand : p.inHand = some ⟨path, false⟩
  outbox : p.outbox = []
  removals : p.tracker.removals = 0
  job : ∃ job, p.tracker.jobs.find? path = some job ∧ job.rerun = false
  waits : ∀ q job, p.tracker.jobs.find? q = some job → path.same q = false → Job.Waits job
  queued : ∀ q job, p.tracker.jobs.find? q = some job → path.same q = false →
    ∃ r ∈ p.queue, r.same q = true

omit [Engine σ] in
/-- An entry without a queued job is let go. -/
theorem Pending.discard {p : Pipeline σ} {path : Path} {interactive background : List Path}
    (h : p.Pending) (hq : p.queue = path :: (interactive ++ background))
    (hs : p.tracker.start path = none) :
    Pending { p with interactive := interactive, background := background } where
  batch := h.batch
  hand := h.hand
  outbox := h.outbox
  removals := h.removals
  waits := h.waits
  queued q job hj := by
    obtain ⟨r, hr, hsame⟩ := h.queued q job hj
    rw [hq] at hr
    rcases List.mem_cons.mp hr with rfl | hr
    · have hf := (Tracker.find?_congr p.tracker hsame).trans hj
      exact absurd (h.waits _ job hf).1 (Tracker.start_eq_none_iff.mp hs job hf)
    · exact ⟨r, hr, hsame⟩

omit [Engine σ] in
/-- An entry whose job starts leaves the others waiting. -/
theorem Pending.start {p : Pipeline σ} {path : Path} {interactive background : List Path}
    (h : p.Pending) (hq : p.queue = path :: (interactive ++ background)) {tracker : Tracker}
    {priority : Bool} (hs : p.tracker.start path = some (tracker, priority)) :
    Busy (log { p with
      interactive := interactive
      background := background
      tracker := tracker
      counters := p.counters.jobStarted
      inHand := some ⟨path, priority⟩ } (.job path)) path := by
  obtain ⟨job, hf, -, hpriority, ht⟩ := Tracker.start_spec hs
  obtain ⟨-, hbackground, hrerun⟩ := h.waits path job hf
  rw [hpriority] at hbackground
  have hother : ∀ q job', tracker.jobs.find? q = some job' → path.same q = false →
      p.tracker.jobs.find? q = some job' := by
    intro q job' hj hn
    rwa [ht, Tracker.find?_put, Path.same_comm, hn] at hj
  refine ⟨h.batch, by rw [hbackground]; rfl, h.outbox, ?_, ?_, fun q job' hj hn => ?_,
    fun q job' hj hn => ?_⟩
  · rw [ht]
    exact h.removals
  · rw [ht]
    exact ⟨_, Tracker.find?_put_self _ path _, hrerun⟩
  · exact h.waits q job' (hother q job' hj hn)
  · obtain ⟨r, hr, hsame⟩ := h.queued q job' (hother q job' hj hn)
    rw [hq] at hr
    rcases List.mem_cons.mp hr with rfl | hr
    · rw [hsame] at hn
      cases hn
    · exact ⟨r, hr, hsame⟩

omit [Engine σ] in
theorem Pending.begin {p p' : Pipeline σ} {path : Path} (h : p.Pending)
    (hr : p.receive? = some (p', path)) :
    (p'.begin path).queue.length < p.queue.length ∧
      (((p'.begin path).Pending ∧ (p'.begin path).tracker = p.tracker) ∨
        ((p'.begin path).Busy path ∧ ∀ q, ((p'.begin path).tracker.jobs.find? q).isSome =
          (p.tracker.jobs.find? q).isSome)) := by
  obtain ⟨hq, interactive, background, rfl⟩ := receive?_spec hr
  have hlen : (interactive ++ background).length < p.queue.length := by
    rw [hq]
    exact Nat.lt_succ_self _
  rw [Pipeline.begin]
  split
  next hs => exact ⟨hlen, .inl ⟨h.discard hq hs, rfl⟩⟩
  next tracker priority hs =>
    exact ⟨hlen, .inr ⟨h.start hq hs, Tracker.isSome_find?_start hs⟩⟩

omit [Engine σ] in
theorem Pending.takeUpWithin {p : Pipeline σ} (h : p.Pending) (fuel : Nat)
    (hf : p.queue.length ≤ fuel) :
    ((Pipeline.takeUpWithin fuel p).Pending ∧ (Pipeline.takeUpWithin fuel p).queue = [] ∧
        (Pipeline.takeUpWithin fuel p).tracker = p.tracker) ∨
      ∃ path, (Pipeline.takeUpWithin fuel p).Busy path ∧
        (Pipeline.takeUpWithin fuel p).queue.length < p.queue.length ∧
        ∀ q, ((Pipeline.takeUpWithin fuel p).tracker.jobs.find? q).isSome =
          (p.tracker.jobs.find? q).isSome := by
  induction fuel generalizing p with
  | zero =>
    have hnil : p.queue = [] := List.eq_nil_of_length_eq_zero (by omega)
    exact .inl ⟨h, hnil, rfl⟩
  | succ fuel ih =>
    rw [Pipeline.takeUpWithin]
    split
    next hh => rw [h.hand] at hh; cases hh
    next =>
      split
      next hr => exact .inl ⟨h, receive?_eq_none hr, rfl⟩
      next p' path hr =>
        obtain ⟨hlen, ⟨hp, ht⟩ | ⟨hb, hsome⟩⟩ := h.begin hr
        · rcases ih hp (by omega) with ⟨hp', hq', ht'⟩ | ⟨r, hb, hl, hs⟩
          · exact .inl ⟨hp', hq', ht'.trans ht⟩
          · exact .inr ⟨r, hb, by omega, fun q => (hs q).trans (by rw [ht])⟩
        · have hstop : Pipeline.takeUpWithin fuel (p'.begin path) = p'.begin path := by
            cases fuel with
            | zero => rfl
            | succ fuel => rw [Pipeline.takeUpWithin, hb.hand]; rfl
          rw [hstop]
          exact .inr ⟨path, hb, hlen, hsome⟩

theorem Busy.flush_work {p : Pipeline σ} {path : Path} (h : p.Busy path) :
    p.work.flush.Pending ∧ p.work.flush.queue = p.queue ∧
      ∀ q, p.work.flush.tracker.jobs.find? q =
        if path.same q then none else p.tracker.jobs.find? q := by
  obtain ⟨_, outcome, hpath, _, _, _, hw, _⟩ := work_spec h.hand
  rw [h.outbox, List.nil_append] at hw
  have hbatch : 0 < p.work.settings.mergeBatchSize := by
    rw [hw]
    exact h.batch
  obtain ⟨job, hj, hrerun⟩ := h.job
  obtain ⟨tracker, hfinish, hremovals, hjobs⟩ := Tracker.finish_setState hj hrerun .mergeQueued
  obtain ⟨_, _, _, _, _, _, _, _, hf, _⟩ := settled_flush p.work hbatch
  have hout : p.work.outbox = [.job outcome] := by rw [hw]
  have htracker : p.work.tracker = p.tracker.setState path .mergeQueued := by rw [hw]
  rw [hout, List.foldl_cons, List.foldl_nil, retire, hpath] at hf
  dsimp only at hf
  rw [htracker, hfinish] at hf
  have hfind : ∀ q, p.work.flush.tracker.jobs.find? q =
      if path.same q then none else p.tracker.jobs.find? q := by
    rw [hf]
    exact hjobs
  have hqueue : p.work.flush.queue = p.queue := by
    rw [queue, hf, hw]
    rfl
  have hold : ∀ q job', p.work.flush.tracker.jobs.find? q = some job' →
      path.same q = false ∧ p.tracker.jobs.find? q = some job' := by
    intro q job' hj'
    rw [hfind] at hj'
    split at hj'
    next => cases hj'
    next hn => exact ⟨Bool.eq_false_iff.mpr hn, hj'⟩
  refine ⟨⟨?_, ?_, ?_, ?_, fun q job' hj' => ?_, fun q job' hj' => ?_⟩, hqueue, hfind⟩
  · rw [hf]
    exact hbatch
  · rw [hf, hw]
  · rw [hf]
  · rw [hf]
    exact hremovals.trans h.removals
  · obtain ⟨hn, hj''⟩ := hold q job' hj'
    exact h.waits q job' hj'' hn
  · obtain ⟨hn, hj''⟩ := hold q job' hj'
    rw [hqueue]
    exact h.queued q job' hj'' hn

def Apart (turns : List (Pipeline σ)) : Prop :=
  turns.Pairwise fun a b => ∀ x y, a.inHand = some x → b.inHand = some y →
    x.path.same y.path = false

omit [Engine σ] in
theorem Pending.takeUp {p : Pipeline σ} (h : p.Pending) :
    (p.takeUp.Pending ∧ p.takeUp.queue = [] ∧ p.takeUp.tracker = p.tracker) ∨
      ∃ path, p.takeUp.Busy path ∧ p.takeUp.queue.length < p.queue.length ∧
        ∀ q, (p.takeUp.tracker.jobs.find? q).isSome = (p.tracker.jobs.find? q).isSome :=
  h.takeUpWithin _ (Nat.le_of_eq List.length_append)

omit [Engine σ] in
theorem Pending.find?_eq_none {p : Pipeline σ} (h : p.Pending) (hq : p.queue = []) (path : Path) :
    p.tracker.jobs.find? path = none := by
  refine Option.eq_none_iff_forall_ne_some.mpr fun job hj => ?_
  obtain ⟨r, hr, _⟩ := h.queued path job hj
  rw [hq] at hr
  cases hr

omit [Engine σ] in
theorem Pending.isIdle {p : Pipeline σ} (h : p.Pending) (hq : p.queue = []) :
    p.isIdle = true :=
  Tracker.isIdle_iff.mpr ⟨h.find?_eq_none hq, h.removals⟩

omit [Engine σ] in
theorem Apart.eq_of_same {turns : List (Pipeline σ)} (h : Apart turns) {a b : Pipeline σ}
    (ha : a ∈ turns) (hb : b ∈ turns) {x y : JobInHand} (hx : a.inHand = some x)
    (hy : b.inHand = some y) (hs : x.path.same y.path = true) : a = b := by
  induction h with
  | nil => cases ha
  | cons hfirst _ ih =>
    rcases List.mem_cons.mp ha with rfl | ha' <;> rcases List.mem_cons.mp hb with rfl | hb'
    · rfl
    · rw [hfirst b hb' x y hx hy] at hs
      cases hs
    · rw [Path.same_comm, hfirst a ha' y x hy hx] at hs
      cases hs
    · exact ih ha' hb'

/-- A run from a pending state ends idle, and each of the jobs gets one turn. -/
theorem Pending.run {p : Pipeline σ} (h : p.Pending) (fuel : Nat) (hf : p.queue.length ≤ fuel) :
    (Pipeline.run fuel p.takeUp).isIdle = true ∧ Apart (turnsWithin fuel p.takeUp) ∧
      (∀ t ∈ turnsWithin fuel p.takeUp, ∃ path, t.inHand = some ⟨path, false⟩) ∧
      ∀ q, (p.tracker.jobs.find? q).isSome = true ↔
        ∃ t ∈ turnsWithin fuel p.takeUp, ∃ path, t.inHand = some ⟨path, false⟩ ∧
          path.same q = true := by
  induction fuel generalizing p with
  | zero =>
    have hq : p.queue = [] := List.eq_nil_of_length_eq_zero (by omega)
    rcases h.takeUp with ⟨hp, hq', _⟩ | ⟨_, _, hl, _⟩
    · refine ⟨hp.isIdle hq', .nil, fun t ht => absurd ht List.not_mem_nil, fun q => ?_⟩
      rw [h.find?_eq_none hq]
      simp [turnsWithin]
    · rw [hq] at hl
      exact absurd hl (Nat.not_lt_zero _)
  | succ fuel ih =>
    rcases h.takeUp with ⟨hp, hq, ht⟩ | ⟨path, hb, hl, hsome⟩
    · rw [Pipeline.run, turnsWithin, hp.hand]
      refine ⟨hp.isIdle hq, .nil, fun t ht => absurd ht List.not_mem_nil, fun q => ?_⟩
      rw [← ht, hp.find?_eq_none hq]
      simp
    · obtain ⟨hp, hqueue, hfind⟩ := hb.flush_work
      have hn : p.takeUp.inHand.isNone = false := by rw [hb.hand]; rfl
      obtain ⟨hidle, hapart, hhand, hjobs⟩ := ih hp (by rw [hqueue]; omega)
      rw [Pipeline.run, turnsWithin, hn, if_neg Bool.false_ne_true, if_neg Bool.false_ne_true]
      refine ⟨hidle, List.pairwise_cons.mpr ⟨fun t htm x y hx hy => ?_, hapart⟩,
        List.forall_mem_cons.mpr ⟨⟨path, hb.hand⟩, hhand⟩, fun q => ?_⟩
      · rw [hb.hand] at hx
        cases hx
        obtain ⟨z, hz⟩ := hhand t htm
        rw [hz] at hy
        cases hy
        have hsome := (hjobs z).mpr ⟨t, htm, z, hz, Path.same_self z⟩
        rw [hfind] at hsome
        rw [Bool.eq_false_iff]
        intro hs
        rw [if_pos hs] at hsome
        cases hsome
      · simp only [← hsome, List.mem_cons, exists_eq_or_imp]
        by_cases hs : path.same q = true
        · obtain ⟨job, hj, _⟩ := hb.job
          rw [← Tracker.find?_congr p.takeUp.tracker hs, hj]
          exact iff_of_true rfl (.inl ⟨path, hb.hand, hs⟩)
        · have hrest := hjobs q
          rw [hfind, if_neg hs] at hrest
          rw [hrest]
          refine (or_iff_right ?_).symm
          rintro ⟨z, hz, hzq⟩
          rw [hb.hand] at hz
          cases hz
          exact hs hzq

end Pending

end Pipeline

end SymbolIndex
