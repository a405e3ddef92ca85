import SymbolIndex.Proofs.Pipeline.Frame
import SymbolIndex.Proofs.Pipeline.Merging
import SymbolIndex.Proofs.Pipeline.Tracker

/-! Reachable pipelines. The client, the worker, the merger and the world outside move in any order;
the merger takes any number of messages at once, up to the size of a batch. Whatever happens, every
job that was taken up and is not merged is under way in the tracker, so an idle pipeline has no work
in flight. -/

namespace SymbolIndex

theorem Config.mergeBatchSize_pos {c : Config} {u : Unit} (h : c.validate = .ok u) :
    0 < c.mergeBatchSize := by
  by_cases hz : c.mergeBatchSize = 0
  · rw [Config.validate, hz] at h
    by_cases hq : c.queueCapacity = 0 <;> simp [hq, bind, Except.bind, throw, throwThe,
      MonadExceptOf.throw] at h
  · omega

/-- What may happen next. -/
inductive Move (σ : Type)
  | enqueue (path : Path) (interactive : Bool)
  | notifyChanged (path : Path)
  | notifyRemoved (path : Path)
  | setUnsaved (path : Path) (text : String)
  | clearUnsaved (path : Path)
  | readJournal
  | takeUp
  | work
  | merge (size : Nat)
  | disk (d : Disk)
  | engine (e : σ)

namespace Pipeline

variable {σ : Type}

def outcomePath? : MergeMessage → Option Path
  | .job outcome => some outcome.path
  | .remove _ => none

def isRemoval : MergeMessage → Bool
  | .job _ => false
  | .remove _ => true

def underway (p : Pipeline σ) : List Path :=
  (p.inHand.map (·.path)).toList ++ p.outbox.filterMap outcomePath?

structure Orderly (p : Pipeline σ) : Prop where
  batch : 0 < p.settings.mergeBatchSize
  cwd : p.disk.cwd.isAbsolute = true
  running : ∀ path ∈ p.underway, p.tracker.Running path
  distinct : p.underway.Pairwise fun a b => a.same b = false
  removals : p.tracker.removals = p.outbox.countP isRemoval

theorem Orderly.idle {p : Pipeline σ} (h : p.Orderly) (hi : p.isIdle = true) :
    p.inHand = none ∧ p.outbox = [] ∧ ∀ path, p.tracker.jobs.find? path = none := by
  obtain ⟨hjobs, hremovals⟩ := Tracker.isIdle_iff.mp hi
  have hnone : p.underway = [] := by
    refine List.eq_nil_iff_forall_not_mem.mpr fun path hp => ?_
    obtain ⟨job, hj, _⟩ := h.running path hp
    rw [hjobs] at hj
    cases hj
  obtain ⟨hhand, hout⟩ := List.append_eq_nil_iff.mp hnone
  refine ⟨by simpa using hhand, ?_, hjobs⟩
  refine List.eq_nil_iff_forall_not_mem.mpr fun m hm => ?_
  cases m with
  | job outcome =>
    exact List.not_mem_nil (hout ▸ List.mem_filterMap.mpr ⟨_, hm, rfl⟩ : outcome.path ∈ [])
  | remove path =>
    have hpos : 0 < p.outbox.countP isRemoval := List.countP_pos_iff.mpr ⟨_, hm, rfl⟩
    rw [← h.removals] at hpos
    omega

/-- What is not about the jobs may change in any way. -/
theorem Orderly.congr {a b : Pipeline σ} (h : a.Orderly) (hs : b.settings = a.settings)
    (hd : b.disk.cwd = a.disk.cwd) (hh : b.inHand = a.inHand) (ho : b.outbox = a.outbox)
    (ht : b.tracker = a.tracker) : b.Orderly := by
  have hu : b.underway = a.underway := by rw [underway, underway, hh, ho]
  exact ⟨hs ▸ h.batch, hd ▸ h.cwd, hu ▸ ht ▸ h.running, hu ▸ h.distinct, by rw [ht, ho, h.removals]⟩

theorem Orderly.accept {p : Pipeline σ} (h : p.Orderly) (path : Path) (interactive : Bool) :
    Orderly { p with tracker := (p.tracker.accept path interactive).1 } where
  batch := h.batch
  cwd := h.cwd
  running q hq := (h.running q hq).accept path interactive
  distinct := h.distinct
  removals := by
    rw [← h.removals]
    exact p.tracker.removals_accept path interactive

theorem send_fields (p : Pipeline σ) (path : Path) (interactive : Bool) :
    (p.send path interactive).settings = p.settings ∧
      (p.send path interactive).disk = p.disk ∧
      (p.send path interactive).inHand = p.inHand ∧
      (p.send path interactive).outbox = p.outbox ∧
      (p.send path interactive).tracker = p.tracker := by
  cases interactive <;> exact ⟨rfl, rfl, rfl, rfl, rfl⟩

theorem Orderly.send {p : Pipeline σ} (h : p.Orderly) (path : Path) (interactive : Bool) :
    (p.send path interactive).Orderly := by
  obtain ⟨hs, hd, hh, ho, ht⟩ := p.send_fields path interactive
  exact h.congr hs (by rw [hd]) hh ho ht

theorem Orderly.enqueue {p : Pipeline σ} (h : p.Orderly) (path : Path) (interactive : Bool) :
    (p.enqueue path interactive).1.Orderly := by
  have ha := h.accept (p.normalize path) interactive
  rw [Pipeline.enqueue]
  dsimp only
  split
  next => exact h.congr rfl rfl rfl rfl rfl
  next =>
    split
    next tracker hacc =>
      rw [hacc] at ha
      refine Orderly.send ?_ _ _
      exact ha.congr rfl rfl rfl rfl rfl
    next tracker upgraded hacc =>
      rw [hacc] at ha
      split
      next =>
        dsimp only
        refine Orderly.send ?_ _ _
        exact ha.congr rfl rfl rfl rfl rfl
      next => exact ha.congr rfl rfl rfl rfl rfl

theorem enqueueAll_fst (p : Pipeline σ) (paths : List Path) (interactive : Bool)
    (counts : Enqueued → Bool) : (p.enqueueAll paths interactive counts).1 =
      paths.foldl (fun p path => (p.enqueue path interactive).1) p := by
  rw [Pipeline.enqueueAll]
  suffices aux : ∀ state : Pipeline σ × Nat, (paths.foldl _ state).1 =
      paths.foldl (fun p path => (p.enqueue path interactive).1) state.1 from aux (p, 0)
  induction paths with
  | nil => exact fun _ => rfl
  | cons path rest ih => exact fun state => ih _

theorem Orderly.enqueueAll {p : Pipeline σ} (h : p.Orderly) (paths : List Path)
    (interactive : Bool) (counts : Enqueued → Bool) :
    (p.enqueueAll paths interactive counts).1.Orderly := by
  rw [enqueueAll_fst]
  induction paths generalizing p with
  | nil => exact h
  | cons path rest ih => exact ih (h.enqueue path interactive)

theorem Orderly.notifyChanged {p : Pipeline σ} (h : p.Orderly) (path : Path) :
    (p.notifyChanged path).1.Orderly := by
  rw [Pipeline.notifyChanged]
  refine Orderly.enqueueAll ?_ _ _ _
  exact h.congr rfl rfl rfl rfl rfl

theorem Orderly.notifyRemoved {p : Pipeline σ} (h : p.Orderly) (path : Path) :
    (p.notifyRemoved path).Orderly := by
  have hu : (p.notifyRemoved path).underway = p.underway := by
    simp [underway, Pipeline.notifyRemoved, outcomePath?, List.filterMap_cons]
  refine ⟨h.batch, h.cwd, hu ▸ h.running, hu ▸ h.distinct, ?_⟩
  simp [Pipeline.notifyRemoved, Tracker.beginRemoval, isRemoval, h.removals]

theorem Orderly.begin {p : Pipeline σ} (h : p.Orderly) (hh : p.inHand = none) (path : Path) :
    (p.begin path).Orderly := by
  rw [Pipeline.begin]
  split
  next => exact h
  next tracker interactive hs =>
    obtain ⟨job, _, _, _, ht⟩ := Tracker.start_spec hs
    have hout : p.underway = p.outbox.filterMap outcomePath? := by
      rw [underway, hh]
      rfl
    refine ⟨h.batch, h.cwd, fun q hq => ?_, ?_, ?_⟩
    · rcases List.mem_cons.mp hq with rfl | hq
      · exact Tracker.running_of_start hs
      · exact ((h.running q (hout ▸ hq)).start hs).1
    · refine List.pairwise_cons.mpr ⟨fun q hq => ?_, hout ▸ h.distinct⟩
      exact ((h.running q (hout ▸ hq)).start hs).2
    · change tracker.removals = p.outbox.countP isRemoval
      rw [← h.removals, ht]
      rfl

def queue (p : Pipeline σ) : List Path := p.interactive ++ p.background

theorem receive?_spec {p p' : Pipeline σ} {path : Path} (h : p.receive? = some (p', path)) :
    p.queue = path :: p'.queue ∧ ∃ interactive background,
      p' = { p with interactive := interactive, background := background } := by
  rw [receive?] at h
  rw [queue]
  split at h
  next hi => cases h; rw [hi]; exact ⟨rfl, _, _, rfl⟩
  next hi hb => cases h; rw [hi, hb]; exact ⟨by simp [queue], _, _, rfl⟩
  next => cases h

theorem Orderly.takeUpWithin {p : Pipeline σ} (h : p.Orderly) (fuel : Nat) :
    (Pipeline.takeUpWithin fuel p).Orderly := by
  induction fuel generalizing p with
  | zero => exact h
  | succ fuel ih =>
    rw [Pipeline.takeUpWithin]
    split
    next => exact h
    next hh =>
      have hnone : p.inHand = none := Option.not_isSome_iff_eq_none.mp hh
      split
      next => exact h
      next p' path hr =>
        obtain ⟨_, _, _, rfl⟩ := receive?_spec hr
        refine ih (Orderly.begin ?_ ?_ path)
        · exact h.congr rfl rfl rfl rfl rfl
        · exact hnone

theorem Orderly.takeUp {p : Pipeline σ} (h : p.Orderly) : p.takeUp.Orderly := h.takeUpWithin _

theorem Orderly.settled {a b : Pipeline σ} (h : a.Orderly) (hs : a.Settled b) : b.Orderly := by
  obtain ⟨_, _, _, _, _, _, _, hd, rfl, _⟩ := hs
  exact h.congr rfl hd rfl rfl rfl

/-- The file of an outcome is under way besides those that stay so once it is retired. -/
theorem underway_perm {p : Pipeline σ} {outcome : Outcome} {outbox : List MergeMessage}
    (ho : p.outbox = .job outcome :: outbox) :
    p.underway.Perm (outcome.path :: underway { p with outbox := outbox }) := by
  rw [underway, ho]
  exact List.perm_middle

theorem Orderly.finish {p : Pipeline σ} {outcome : Outcome} {outbox : List MergeMessage}
    (h : p.Orderly) (ho : p.outbox = .job outcome :: outbox) :
    Orderly { p with
      outbox := outbox
      tracker := (p.tracker.finish outcome.path).1 } := by
  have hperm := underway_perm ho
  have hdistinct := hperm.pairwise h.distinct fun {a b} hab => (Path.same_comm b a).trans hab
  obtain ⟨hother, hdistinct⟩ := List.pairwise_cons.mp hdistinct
  refine ⟨h.batch, h.cwd, fun q hq => ?_, hdistinct, ?_⟩
  · have hrunning := h.running q (hperm.mem_iff.mpr (List.mem_cons_of_mem _ hq))
    exact hrunning.finish (hother q hq)
  · have hremovals := h.removals
    rw [ho, List.countP_cons_of_neg (by simp [isRemoval])] at hremovals
    exact (p.tracker.removals_finish outcome.path).trans hremovals

theorem Orderly.retire {p : Pipeline σ} {m : MergeMessage} {outbox : List MergeMessage}
    (h : p.Orderly) (ho : p.outbox = m :: outbox) :
    Orderly (Pipeline.retire { p with outbox := outbox } m) := by
  cases m with
  | remove path =>
    have hu : underway (Pipeline.retire { p with outbox := outbox } (.remove path)) =
        p.underway := by
      rw [underway, underway, ho]
      rfl
    refine ⟨h.batch, h.cwd, hu ▸ h.running, hu ▸ h.distinct, ?_⟩
    have hr := h.removals
    rw [ho, List.countP_cons_of_pos rfl] at hr
    change p.tracker.removals - 1 = outbox.countP isRemoval
    omega
  | job outcome =>
    have hfinish := h.finish ho
    rw [Pipeline.retire]
    split
    next tracker hf =>
      dsimp only at hf
      rw [hf] at hfinish
      exact hfinish
    next tracker interactive hf =>
      dsimp only at hf
      rw [hf] at hfinish
      exact hfinish.send _ _

/-- Merge a number of messages at once. -/
def mergeFirst (p : Pipeline σ) (size : Nat) : Pipeline σ :=
  { p with outbox := p.outbox.drop size }.mergeBatch (p.outbox.take size)

theorem settled_mergeFirst (p : Pipeline σ) (size : Nat) :
    ((p.outbox.take size).foldl retire { p with outbox := p.outbox.drop size }).Settled
      (p.mergeFirst size) :=
  settled_mergeBatch _ _

theorem mergeFirst_frame (p : Pipeline σ) (size : Nat) :
    (p.mergeFirst size).outbox = p.outbox.drop size ∧ (p.mergeFirst size).filter = p.filter ∧
      (p.mergeFirst size).inHand = p.inHand ∧ (p.mergeFirst size).disk.cwd = p.disk.cwd ∧
      (p.mergeFirst size).settings = p.settings := by
  have hs := p.settled_mergeFirst size
  obtain ⟨_, _, _, hretire⟩ := foldl_retire_spec { p with outbox := p.outbox.drop size }
    (p.outbox.take size)
  rw [hretire] at hs
  obtain ⟨_, _, _, _, _, _, _, hd, hm, -⟩ := hs
  have hcwd : (p.mergeFirst size).disk.cwd = p.disk.cwd := by rw [hm]; exact hd
  exact ⟨by rw [hm], by rw [hm], by rw [hm], hcwd, by rw [hm]⟩

theorem Orderly.mergeFirst {p : Pipeline σ} (h : p.Orderly) (size : Nat) :
    (p.mergeFirst size).Orderly :=
  (foldl_retire_of Orderly.retire h (List.take_append_drop size _).symm).settled
    (p.settled_mergeFirst size)

theorem Orderly.mergeAll {p : Pipeline σ} (h : p.Orderly) (fuel : Nat) :
    (Pipeline.mergeAll fuel p).Orderly := by
  induction fuel generalizing p with
  | zero => exact h
  | succ fuel ih =>
    rw [Pipeline.mergeAll]
    split
    next => exact h
    next => exact ih (h.mergeFirst _)

theorem Orderly.flush {p : Pipeline σ} (h : p.Orderly) : p.flush.Orderly := h.mergeAll _

/-- The job in hand goes to the merger. On the way, no job stops being under way. -/
theorem Orderly.submit {p q : Pipeline σ} (h : p.Orderly) {job : JobInHand}
    (hh : p.inHand = some job) (hs : q.settings = p.settings) (hd : q.disk.cwd = p.disk.cwd)
    (hq : q.inHand = none) (ho : q.outbox = p.outbox)
    (ht : ∀ path, p.tracker.Running path → q.tracker.Running path)
    (hr : q.tracker.removals = p.tracker.removals) {outcome : Outcome}
    (hpath : outcome.path = job.path) : (q.submit outcome).Orderly := by
  have hold : p.underway = job.path :: p.outbox.filterMap outcomePath? := by
    rw [underway, hh]
    rfl
  have hnew : (q.submit outcome).underway = p.outbox.filterMap outcomePath? ++ [job.path] := by
    rw [underway, Pipeline.submit, ← hpath, ← ho]
    simp [hq, outcomePath?]
  have hperm : (q.submit outcome).underway.Perm p.underway := by
    rw [hnew, hold]
    exact List.perm_append_singleton _ _
  refine ⟨hs ▸ h.batch, hd ▸ h.cwd, fun path hm => ?_, ?_, ?_⟩
  · exact (ht path (h.running path (hperm.mem_iff.mp hm))).setState _ JobState.noConfusion
  · refine hperm.symm.pairwise h.distinct fun hab => ?_
    rw [Path.same_comm]
    exact hab
  · change (q.tracker.setState _ _).removals = (q.outbox ++ [MergeMessage.job outcome]).countP _
    rw [Tracker.removals_setState, hr, h.removals, ho]
    simp [isRemoval]

variable [Engine σ]

theorem Orderly.work {p : Pipeline σ} (h : p.Orderly) : p.work.Orderly := by
  cases hh : p.inHand with
  | none =>
    rw [Pipeline.work, hh]
    exact h
  | some job =>
    obtain ⟨⟨_, _, _, _, hp, -⟩, hpath⟩ :=
      process_spec { p with inHand := none } job.path job.interactive
    rw [Pipeline.work, hh]
    dsimp only
    generalize Pipeline.process { p with inHand := none } job.path job.interactive = processed
      at hp hpath
    obtain ⟨q, outcome⟩ := processed
    dsimp only at hp hpath ⊢
    refine h.submit hh ?_ ?_ ?_ ?_ ?_ ?_ hpath <;> rw [hp]
    exact fun _ hr => hr

theorem Orderly.step {p : Pipeline σ} (h : p.Orderly) : p.step.Orderly := h.work.flush.takeUp

omit [Engine σ] in
theorem new_eq {disk : Disk} {engine : σ} {config : Config} {root : Path} {project : Project}
    {p : Pipeline σ} (h : Pipeline.new disk engine config root project = .ok p) :
    0 < config.mergeBatchSize ∧ p = {
      disk := disk
      engine := engine
      project := project
      filter := p.filter
      settings := ⟨config.cacheRead, config.cacheWrite, config.mergeBatchSize⟩
      snapshots := ⟨⟨config.cacheDirFor root, config.cacheFormat, snapshotSchema⟩,
        { capacity := config.snapshotCacheCapacity, maxScore := Lru.defaultMaxScore }⟩ } := by
  rw [Pipeline.new] at h
  cases hv : config.validate with
  | error e =>
    rw [hv] at h
    cases h
  | ok u =>
    cases hf : config.pathFilter with
    | error e =>
      rw [hv, hf] at h
      cases h
    | ok filter =>
      simp only [hv, hf, bind, Except.bind, SnapshotCache.new?, Lru.new?] at h
      by_cases hc : config.snapshotCacheCapacity = 0
      · rw [if_pos hc] at h
        cases h
      · rw [if_neg hc] at h
        cases h
        exact ⟨Config.mergeBatchSize_pos hv, rfl⟩

omit [Engine σ] in
theorem orderly_new {disk : Disk} {engine : σ} {config : Config} {root : Path} {project : Project}
    {p : Pipeline σ} (hd : disk.cwd.isAbsolute = true)
    (h : Pipeline.new disk engine config root project = .ok p) : p.Orderly := by
  obtain ⟨hb, hp⟩ := new_eq h
  rw [hp]
  exact ⟨hb, hd, fun _ hq => absurd hq List.not_mem_nil, .nil, rfl⟩

def act (p : Pipeline σ) : Move σ → Pipeline σ
  | .enqueue path interactive => (p.enqueue path interactive).1
  | .notifyChanged path => (p.notifyChanged path).1
  | .notifyRemoved path => p.notifyRemoved path
  | .setUnsaved path text => p.setUnsaved path text
  | .clearUnsaved path => p.clearUnsaved path
  | .readJournal => p.readJournal.1
  | .takeUp => p.takeUp
  | .work => p.work
  | .merge size => p.mergeFirst size
  | .disk d => { p with disk := d }
  | .engine e => { p with engine := e }

/-- The merger takes at least one message and at most a batch, and nobody moves the working
directory. -/
def Admits (p : Pipeline σ) : Move σ → Prop
  | .merge size => 0 < size ∧ size ≤ p.settings.mergeBatchSize
  | .disk d => d.cwd = p.disk.cwd
  | _ => True

inductive Reachable : Pipeline σ → Prop
  | new {disk : Disk} {engine : σ} {config : Config} {root : Path} {project : Project}
    {p : Pipeline σ} (hd : disk.cwd.isAbsolute = true)
    (h : Pipeline.new disk engine config root project = .ok p) : Reachable p
  | act {p : Pipeline σ} (h : Reachable p) (m : Move σ) (hm : p.Admits m) : Reachable (p.act m)

theorem Orderly.act {p : Pipeline σ} (h : p.Orderly) (m : Move σ) (hm : p.Admits m) :
    (p.act m).Orderly := by
  cases m with
  | enqueue path interactive => exact h.enqueue path interactive
  | notifyChanged path => exact h.notifyChanged path
  | notifyRemoved path => exact h.notifyRemoved path
  | takeUp => exact h.takeUp
  | work => exact h.work
  | merge size => exact h.mergeFirst size
  | disk d => exact h.congr rfl hm rfl rfl rfl
  | _ => exact h.congr rfl rfl rfl rfl rfl

theorem Reachable.orderly {p : Pipeline σ} (h : p.Reachable) : p.Orderly := by
  induction h with
  | new hd h => exact orderly_new hd h
  | act _ m hm ih => exact ih.act m hm

end Pipeline

end SymbolIndex
