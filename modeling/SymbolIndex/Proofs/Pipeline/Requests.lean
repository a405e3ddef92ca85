import SymbolIndex.Proofs.Path
import SymbolIndex.Proofs.Pipeline.Turns

/-! Requests for the background worker. A request that is not filtered makes sure that its file has
a job, and jobs line up in the order in which they were asked for. -/

namespace SymbolIndex

namespace Pipeline

variable {σ : Type}

/-- Two pipelines that differ in the jobs that were asked for. -/
def Asked (a b : Pipeline σ) : Prop :=
  ∃ tracker counters background,
    b = { a with tracker := tracker, counters := counters, background := background }

theorem Asked.refl (p : Pipeline σ) : p.Asked p := ⟨_, _, _, rfl⟩

theorem Asked.trans {a b c : Pipeline σ} (h : a.Asked b) (h' : b.Asked c) : a.Asked c := by
  obtain ⟨_, _, _, rfl⟩ := h
  obtain ⟨_, _, _, rfl⟩ := h'
  exact ⟨_, _, _, rfl⟩

/-- A file without a job gets one, at the end of the queue. -/
theorem Pending.put {p : Pipeline σ} (h : p.Pending) (path : Path) (counters : Counters) :
    Pending { p with
      tracker := p.tracker.put path { interactive := false }
      counters := counters
      background := p.background ++ [path] } where
  batch := h.batch
  hand := h.hand
  outbox := h.outbox
  removals := h.removals
  waits q job hj := by
    rw [Tracker.find?_put] at hj
    split at hj
    next => cases hj; exact ⟨rfl, rfl, rfl⟩
    next => exact h.waits q job hj
  queued q job hj := by
    change ∃ r ∈ p.interactive ++ (p.background ++ [path]), r.same q = true
    rw [← List.append_assoc]
    rw [Tracker.find?_put] at hj
    split at hj
    next hs => exact ⟨path, by simp, by rwa [Path.same_comm]⟩
    next =>
      obtain ⟨r, hr, hs⟩ := h.queued q job hj
      exact ⟨r, List.mem_append_left _ hr, hs⟩

/-- A job that waits is put back as it was. -/
theorem Pending.join {p : Pipeline σ} (h : p.Pending) {path : Path} {job : Job}
    (hf : p.tracker.jobs.find? path = some job) (counters : Counters) :
    Pending { p with tracker := p.tracker.put path job, counters := counters } where
  batch := h.batch
  hand := h.hand
  outbox := h.outbox
  removals := h.removals
  waits q job hj := h.waits q job ((Tracker.find?_put_same hf q).symm.trans hj)
  queued q job hj := h.queued q job ((Tracker.find?_put_same hf q).symm.trans hj)

theorem Pending.enqueue {p : Pipeline σ} (h : p.Pending) (path : Path) :
    (p.enqueue path false).1.Pending ∧ p.Asked (p.enqueue path false).1 ∧
      ∀ q, ((p.enqueue path false).1.tracker.jobs.find? q).isSome = true ↔
        (p.tracker.jobs.find? q).isSome = true ∨
          p.filter.allows (p.normalize path) = true ∧ (p.normalize path).same q = true := by
  rw [Pipeline.enqueue]
  dsimp only
  split
  next hr =>
    refine ⟨⟨h.batch, h.hand, h.outbox, h.removals, h.waits, h.queued⟩, ⟨_, _, _, rfl⟩,
      fun q => (or_iff_left ?_).symm⟩
    rintro ⟨ha, _⟩
    rw [PathFilter.allows, Option.isNone_iff_eq_none] at ha
    rw [ha] at hr
    cases hr
  next hr =>
    have hallows : p.filter.allows (p.normalize path) = true := by
      simpa [PathFilter.allows] using hr
    generalize p.normalize path = path at hallows ⊢
    rw [Tracker.accept]
    cases hf : p.tracker.jobs.find? path with
    | none =>
      refine ⟨h.put path _, ⟨_, _, _, rfl⟩, fun q => ?_⟩
      change ((p.tracker.put path _).jobs.find? q).isSome = true ↔ _
      rw [Tracker.find?_put, Path.same_comm path q]
      split
      next hs => exact iff_of_true rfl (.inr ⟨hallows, hs⟩)
      next hs => exact (or_iff_left fun hn => hs hn.2).symm
    | some job =>
      -- The request changes nothing: the job that it joins is in the same state already.
      obtain ⟨hstate, _⟩ := h.waits path job hf
      dsimp only
      rw [if_pos hstate, Bool.or_false]
      refine ⟨h.join hf _, ⟨_, _, _, rfl⟩, fun q => ?_⟩
      change ((p.tracker.put path job).jobs.find? q).isSome = true ↔ _
      rw [Tracker.find?_put_same hf]
      refine (or_iff_left_of_imp ?_).symm
      rintro ⟨_, hs⟩
      rw [← Tracker.find?_congr _ hs, hf]
      rfl

theorem Pending.enqueueAll {p : Pipeline σ} (h : p.Pending) (paths : List Path)
    (counts : Enqueued → Bool) :
    (p.enqueueAll paths false counts).1.Pending ∧ p.Asked (p.enqueueAll paths false counts).1 ∧
      ∀ q, ((p.enqueueAll paths false counts).1.tracker.jobs.find? q).isSome = true ↔
        (p.tracker.jobs.find? q).isSome = true ∨ ∃ path ∈ paths,
          p.filter.allows (p.normalize path) = true ∧ (p.normalize path).same q = true := by
  rw [enqueueAll_fst]
  induction paths generalizing p with
  | nil => exact ⟨h, .refl p, fun q => by simp⟩
  | cons path rest ih =>
    obtain ⟨hp, ha, hfind⟩ := h.enqueue path
    obtain ⟨hp', ha', hfind'⟩ := ih hp
    refine ⟨hp', ha.trans ha', fun q => (hfind' q).trans ?_⟩
    rw [hfind, or_assoc]
    obtain ⟨_, _, _, hq⟩ := ha
    rw [hq]
    simp only [List.mem_cons, exists_eq_or_imp, normalize]

theorem Orderly.pending {p : Pipeline σ} (h : p.Orderly) (hi : p.isIdle = true) : p.Pending := by
  obtain ⟨hhand, hout, hjobs⟩ := h.idle hi
  refine ⟨h.batch, hhand, hout, (Tracker.isIdle_iff.mp hi).2, fun path job hj => ?_, fun path job hj => ?_⟩
  · rw [hjobs] at hj
    cases hj
  · rw [hjobs] at hj
    cases hj

section Lined

/-- Nothing is under way, and every entry of the queue is a file with a job of its own. -/
structure Lined (p : Pipeline σ) : Prop where
  pending : p.Pending
  waiting : ∀ path ∈ p.queue, (p.tracker.jobs.find? path).isSome = true
  distinct : p.queue.Pairwise fun a b => a.same b = false

theorem Orderly.lined {p : Pipeline σ} (h : p.Orderly) (hi : p.isIdle = true)
    (hq : p.queue = []) : p.Lined where
  pending := h.pending hi
  waiting path hp := by
    rw [hq] at hp
    cases hp
  distinct := by
    rw [hq]
    exact .nil

/-- Line up for the first request of a file that is let through. -/
def lineUp (allows : Path → Bool) (line : List Path) (path : Path) : List Path :=
  if allows path && !line.any (·.same path) then line ++ [path] else line

theorem mem_foldl_lineUp {dir : Path} (hd : dir.isAbsolute = true) {allows : Path → Bool}
    {paths line : List Path} (hp : ∀ p ∈ paths, dir.Canonical p) (hl : ∀ p ∈ line, dir.Canonical p)
    {q : Path} : q ∈ paths.foldl (lineUp allows) line ↔
      q ∈ line ∨ q ∈ paths ∧ allows q = true := by
  induction paths generalizing line with
  | nil => simp
  | cons path rest ih =>
    obtain ⟨hpath, hrest⟩ := List.forall_mem_cons.mp hp
    -- A canonical spelling is in line already exactly if some spelling of it is.
    have hany : line.any (·.same path) = true ↔ path ∈ line := by
      rw [List.any_eq_true]
      constructor
      · rintro ⟨r, hr, hs⟩
        rwa [← (hl r hr).eq_of_same hd hpath hs]
      · exact fun hm => ⟨path, hm, Path.same_self path⟩
    have hstep : ∀ r, r ∈ lineUp allows line path ↔ r ∈ line ∨ r = path ∧ allows r = true := by
      intro r
      rw [lineUp]
      split
      next hnew =>
        rw [Bool.and_eq_true] at hnew
        rw [List.mem_append, List.mem_singleton]
        exact or_congr_right ⟨fun he => ⟨he, he ▸ hnew.1⟩, And.left⟩
      next hold =>
        refine (or_iff_left_of_imp ?_).symm
        rintro ⟨rfl, ha⟩
        rw [ha, Bool.true_and, Bool.not_eq_true', Bool.not_eq_false] at hold
        exact hany.mp hold
    have hline : ∀ r ∈ lineUp allows line path, dir.Canonical r := by
      intro r hr
      rcases (hstep r).mp hr with hr | ⟨rfl, _⟩
      · exact hl r hr
      · exact hpath
    rw [List.foldl_cons, ih hrest hline, hstep, List.mem_cons, or_assoc, ← or_and_right]

theorem Lined.find?_isSome {p : Pipeline σ} (h : p.Lined) (path : Path) :
    (p.tracker.jobs.find? path).isSome = p.queue.any (·.same path) := by
  rw [Bool.eq_iff_iff, List.any_eq_true]
  constructor
  · intro hs
    obtain ⟨job, hj⟩ := Option.isSome_iff_exists.mp hs
    exact h.pending.queued path job hj
  · rintro ⟨q, hq, hs⟩
    rw [← Tracker.find?_congr p.tracker hs]
    exact h.waiting q hq

theorem Lined.queue_enqueue {p : Pipeline σ} (h : p.Lined) (path : Path) :
    (p.enqueue path false).1.queue = lineUp p.filter.allows p.queue (p.normalize path) := by
  have hsome := h.find?_isSome (p.normalize path)
  rw [Pipeline.enqueue, lineUp, PathFilter.allows, ← hsome]
  dsimp only
  cases hr : p.filter.rejection? (p.normalize path) with
  | some _ => rfl
  | none =>
    rw [Tracker.accept]
    cases hf : p.tracker.jobs.find? (p.normalize path) with
    | none => exact (List.append_assoc _ _ _).symm
    | some job =>
      have hstate := (h.pending.waits _ job hf).1
      dsimp only
      rw [if_pos hstate]
      rfl

theorem Lined.enqueue {p : Pipeline σ} (h : p.Lined) (path : Path) :
    (p.enqueue path false).1.Lined := by
  obtain ⟨hp, _, hfind⟩ := h.pending.enqueue path
  have hqueue := h.queue_enqueue path
  rw [lineUp] at hqueue
  refine ⟨hp, ?_, ?_⟩
  · intro q hq
    rw [hqueue] at hq
    rw [hfind]
    split at hq
    next hallow =>
      rw [Bool.and_eq_true] at hallow
      rcases List.mem_append.mp hq with hq | hq
      · exact .inl (h.waiting q hq)
      · rw [List.mem_singleton.mp hq]
        exact .inr ⟨hallow.1, Path.same_self _⟩
    next => exact .inl (h.waiting q hq)
  · rw [hqueue]
    split
    next hallow =>
      rw [Bool.and_eq_true, Bool.not_eq_true', List.any_eq_false] at hallow
      refine List.pairwise_append.mpr ⟨h.distinct, List.pairwise_singleton _ _, fun a ha b hb => ?_⟩
      rw [List.mem_singleton.mp hb]
      exact Bool.eq_false_iff.mpr (hallow.2 a ha)
    next => exact h.distinct

theorem Lined.enqueueAll {p : Pipeline σ} (h : p.Lined) (paths : List Path)
    (counts : Enqueued → Bool) :
    (p.enqueueAll paths false counts).1.Lined ∧ p.Asked (p.enqueueAll paths false counts).1 ∧
      (p.enqueueAll paths false counts).1.queue =
        (paths.map p.normalize).foldl (lineUp p.filter.allows) p.queue := by
  rw [enqueueAll_fst]
  induction paths generalizing p with
  | nil => exact ⟨h, .refl p, rfl⟩
  | cons path rest ih =>
    obtain ⟨hl, ha, hq⟩ := ih (h.enqueue path)
    have hfirst := (h.pending.enqueue path).2.1
    refine ⟨hl, hfirst.trans ha, ?_⟩
    rw [List.foldl_cons, hq, h.queue_enqueue, List.map_cons, List.foldl_cons]
    obtain ⟨_, _, _, he⟩ := hfirst
    rw [he]
    rfl

theorem Lined.takeUp {p : Pipeline σ} (h : p.Lined) {path : Path} {rest : List Path}
    (hq : p.queue = path :: rest) :
    p.takeUp.Busy path ∧ p.takeUp.queue = rest ∧
      ∀ q, (p.takeUp.tracker.jobs.find? q).isSome = (p.tracker.jobs.find? q).isSome := by
  cases hr : p.receive? with
  | none =>
    rw [receive?_eq_none hr] at hq
    cases hq
  | some received =>
    obtain ⟨p', path'⟩ := received
    obtain ⟨hqueue, _, _, hp'⟩ := receive?_spec hr
    rw [hq] at hqueue
    obtain ⟨rfl, hrest⟩ := List.cons.inj hqueue
    have hwait := h.waiting path (by rw [hq]; exact List.mem_cons_self)
    obtain ⟨job, hj⟩ := Option.isSome_iff_exists.mp hwait
    have hstart : ∃ tracker interactive, p'.tracker.start path = some (tracker, interactive) := by
      rw [hp', Tracker.start, hj]
      exact ⟨_, _, if_pos (h.pending.waits path job hj).1⟩
    obtain ⟨tracker, interactive, hstart⟩ := hstart
    have hbegin : (p'.begin path).inHand = some ⟨path, interactive⟩ ∧
        (p'.begin path).queue = rest := by
      rw [begin, hstart, hrest]
      exact ⟨rfl, rfl⟩
    have htake : p.takeUp = p'.begin path := by
      have hlen : p.interactive.length + p.background.length = rest.length + 1 := by
        rw [← List.length_append]
        exact congrArg List.length hq
      rw [Pipeline.takeUp, hlen, takeUpWithin, h.pending.hand, hr]
      dsimp only [Option.isSome]
      rw [if_neg Bool.false_ne_true]
      cases rest.length with
      | zero => rfl
      | succ fuel => rw [takeUpWithin, hbegin.1]; rfl
    rw [htake]
    rcases (h.pending.begin hr).2 with ⟨hp, _⟩ | ⟨hb, hsome⟩
    · rw [hp.hand] at hbegin
      cases hbegin.1
    · exact ⟨hb, hbegin.2, hsome⟩

theorem Lined.takeUp_nil {p : Pipeline σ} (hq : p.queue = []) : p.takeUp = p := by
  have hlen : p.interactive.length + p.background.length = 0 := by
    rw [← List.length_append]
    exact congrArg List.length hq
  rw [Pipeline.takeUp, hlen, takeUpWithin]

variable [Engine σ]

theorem Lined.work {p : Pipeline σ} (h : p.Lined) {path : Path} {rest : List Path}
    (hq : p.queue = path :: rest) :
    p.takeUp.work.flush.Lined ∧ p.takeUp.work.flush.queue = rest := by
  obtain ⟨hb, hrest, hsome⟩ := h.takeUp hq
  obtain ⟨hp, hqueue, hfind⟩ := hb.flush_work
  rw [hrest] at hqueue
  have hdistinct := h.distinct
  rw [hq, List.pairwise_cons] at hdistinct
  refine ⟨⟨hp, fun q hm => ?_, hqueue ▸ hdistinct.2⟩, hqueue⟩
  rw [hqueue] at hm
  rw [hfind, hdistinct.1 q hm, if_neg Bool.false_ne_true, hsome]
  exact h.waiting q (by rw [hq]; exact List.mem_cons_of_mem _ hm)

theorem errors_run {p : Pipeline σ} (hb : 0 < p.settings.mergeBatchSize) (fuel : Nat) :
    p.counters.errors ⊆ (Pipeline.run fuel p).counters.errors := by
  induction fuel generalizing p with
  | zero => exact fun _ he => he
  | succ fuel ih =>
    rw [Pipeline.run]
    split
    next => exact fun _ he => he
    next hn =>
      obtain ⟨job, hj⟩ := Option.ne_none_iff_exists'.mp (mt Option.isNone_iff_eq_none.mpr hn)
      obtain ⟨_, _, hs, he, _⟩ := step_spec hb hj
      exact List.Subset.trans he (ih (hs ▸ hb))

/-- A relation that every single job preserves is preserved by a run of the jobs in line. -/
theorem Lined.run {μ : Type} {R : Pipeline σ → μ → Prop} {serve : μ → Path → μ}
    {errors : List FileError}
    (hstep : ∀ {p : Pipeline σ} {m path rest}, p.Lined → p.queue = path :: rest → R p m →
      p.takeUp.work.flush.counters.errors ⊆ errors → R p.takeUp.work.flush (serve m path))
    {p : Pipeline σ} (h : p.Lined) {m : μ} (hr : R p m) (fuel : Nat)
    (hf : p.queue.length ≤ fuel) (he : (Pipeline.run fuel p.takeUp).counters.errors ⊆ errors) :
    R (Pipeline.run fuel p.takeUp) (p.queue.foldl serve m) := by
  induction fuel generalizing p m with
  | zero =>
    have hq : p.queue = [] := List.eq_nil_of_length_eq_zero (by omega)
    rw [Pipeline.run, Lined.takeUp_nil hq, hq]
    exact hr
  | succ fuel ih =>
    cases hq : p.queue with
    | nil =>
      rw [Lined.takeUp_nil hq, Pipeline.run, h.pending.hand]
      exact hr
    | cons path rest =>
      obtain ⟨hb, _, _⟩ := h.takeUp hq
      obtain ⟨hl, hrest⟩ := h.work hq
      rw [Pipeline.run, hb.hand] at he ⊢
      have hmore : p.takeUp.work.flush.counters.errors ⊆
          (Pipeline.run fuel p.takeUp.step).counters.errors := by
        have hbatch : 0 < p.takeUp.step.settings.mergeBatchSize := by
          rw [(step_spec hb.batch hb.hand).2.2.1]
          exact hb.batch
        exact List.Subset.trans (errors_takeUp _) (errors_run hbatch fuel)
      have hlen : rest.length ≤ fuel := by
        rw [hq, List.length_cons] at hf
        omega
      have hfirst := hstep h hq hr (List.Subset.trans hmore he)
      have htail := ih hl hfirst (by rw [hrest]; exact hlen) he
      rw [hrest] at htail
      exact htail

end Lined

end Pipeline

end SymbolIndex
