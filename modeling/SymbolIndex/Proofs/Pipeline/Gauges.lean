import SymbolIndex.Pipeline.Counters
import SymbolIndex.Proofs.Pipeline.Traffic

/-! The gauges while requests, workers and merges interleave. The counters are changed outside the
critical sections of the tracker, so a step is one critical section, one change of a counter, or one
send to or receive from a queue. What a gauge shows is an account of the jobs that are on their way
through it, up to the decrements that found it at zero. -/

namespace SymbolIndex

namespace Counters

def leaveQueue (c : Counters) : Counters := { c with queued := c.queued - 1 }

def enterParsing (c : Counters) : Counters := { c with parsing := c.parsing + 1 }

def leaveParsing (c : Counters) : Counters := { c with parsing := c.parsing - 1 }

def enterMerging (c : Counters) : Counters := { c with merging := c.merging + 1 }

def leaveMerging (c : Counters) : Counters := { c with merging := c.merging - 1 }

def countApplied (c : Counters) : Counters := { c with applied := c.applied + 1 }

def countFailed (c : Counters) : Counters := { c with failed := c.failed + 1 }

end Counters

/-- How far a run has come. -/
inductive Phase
  | started
  | dequeued
  | parsing
  | parsed
  | merging
  | merged
  | counted
  deriving DecidableEq

namespace Phase

/-- What a run does to the counters when it goes on. -/
def change (failed : Bool) : Phase → Counters → Counters
  | started => Counters.leaveQueue
  | dequeued => Counters.enterParsing
  | parsing => Counters.leaveParsing
  | parsed => Counters.enterMerging
  | merging => Counters.leaveMerging
  | merged => if failed then Counters.countFailed else Counters.countApplied
  | counted => id

def next : Phase → Phase
  | started => dequeued
  | dequeued => parsing
  | parsing => parsed
  | parsed => merging
  | merging => merged
  | merged => counted
  | counted => counted

/-- The change is a decrement of a gauge that is at zero. -/
def loses (c : Counters) : Phase → Bool
  | started => c.queued = 0
  | parsing => c.parsing = 0
  | merging => c.merging = 0
  | _ => false

section Change

/-! A gauge changes by the runs that enter it less those that leave it. -/

variable (failed : Bool) (phase : Phase) (c : Counters)

theorem queued_change :
    (phase.change failed c).queued = c.queued - if phase = started then 1 else 0 := by
  cases phase with
  | merged => cases failed <;> rfl
  | _ => rfl

theorem parsing_change : (phase.change failed c).parsing =
    c.parsing + (if phase.next = parsing then 1 else 0) - if phase = parsing then 1 else 0 := by
  cases phase with
  | merged => cases failed <;> rfl
  | _ => rfl

theorem merging_change : (phase.change failed c).merging =
    c.merging + (if phase.next = merging then 1 else 0) - if phase = merging then 1 else 0 := by
  cases phase with
  | merged => cases failed <;> rfl
  | _ => rfl

/-- A run is counted in one of the totals as it ends. -/
theorem ended_change : (phase.change failed c).applied + (phase.change failed c).failed +
    (if phase.next ≠ counted then 1 else 0) =
      c.applied + c.failed + if phase ≠ counted then 1 else 0 := by
  cases phase with
  | merged =>
    cases failed with
    | false => exact Nat.succ_add _ _
    | true => rfl
  | _ => rfl

theorem next_ne_started : phase.next ≠ started := by
  cases phase <;> exact Phase.noConfusion

theorem loses_toNat : (phase.loses c).toNat = (if phase = started then 1 else 0) - c.queued +
    ((if phase = parsing then 1 else 0) - c.parsing) +
    ((if phase = merging then 1 else 0) - c.merging) := by
  have hzero : ∀ n : Nat, (n = 0 : Bool).toNat = 1 - n := fun n => by cases n <;> simp
  cases phase <;> simp [loses, hzero]

end Change

end Phase

structure Run where
  path : Path
  phase : Phase
  deriving DecidableEq

/-- A thread that has an entry to send. -/
structure Sender where
  path : Path
  priority : Bool
  /-- The gauge counts the job. A new job is sent only then. -/
  announced : Bool
  deriving DecidableEq

def Sender.of? (p : Path) (interactive : Bool) : Admission → Option Sender
  | .accepted => some ⟨p, interactive, false⟩
  | .coalesced upgraded => if upgraded then some ⟨p, true, true⟩ else none

/-- All that is under way around the tracker and the counters, for any number of threads. -/
structure Metered where
  tracker : Tracker := {}
  counters : Counters := {}
  senders : List Sender := []
  /-- The queue of each priority, the oldest entry first. -/
  queue : Bool → List Path := fun _ => []
  /-- Entries that a worker has received and not looked up yet. -/
  taken : List Path := []
  /-- Started and not completed. -/
  runs : List Run := []
  /-- The latest event first. -/
  log : List TrafficEvent := []
  /-- Decrements that found their gauge at zero. -/
  lost : Nat := 0
  /-- Requests that made a queued job interactive. -/
  upgrades : Nat := 0

attribute [ext] Metered

namespace Metered

/-- The state without the counters. -/
def traffic (m : Metered) : Traffic where
  tracker := m.tracker
  sends := m.senders.map fun s => (s.path, s.priority)
  queue := m.queue
  taken := m.taken
  running := m.runs.map (·.path)
  log := m.log

inductive Step (m : Metered) : Metered → Prop
  | request (p : Path) (interactive : Bool) : Step m { m with
      tracker := (m.tracker.accept p interactive).1
      senders := (Sender.of? p interactive (m.tracker.accept p interactive).2).toList ++ m.senders
      log := .request p interactive :: m.log
      upgrades := m.upgrades +
        ((m.tracker.accept p interactive).2 = .coalesced true : Bool).toNat }
  | announce {before after : List Sender} {sender : Sender}
      (h : m.senders = before ++ sender :: after) (hc : sender.announced = false) : Step m { m with
      counters := m.counters.jobQueued
      senders := before ++ { sender with announced := true } :: after }
  | send {before after : List Sender} {sender : Sender}
      (h : m.senders = before ++ sender :: after) (hc : sender.announced = true) : Step m { m with
      senders := before ++ after
      queue := Function.update m.queue sender.priority (m.queue sender.priority ++ [sender.path]) }
  | receive {priority : Bool} {p : Path} {rest : List Path} (h : m.queue priority = p :: rest) :
      Step m { m with queue := Function.update m.queue priority rest, taken := p :: m.taken }
  | start {before after : List Path} {p : Path} {tracker : Tracker} {priority : Bool}
      (h : m.taken = before ++ p :: after) (hs : m.tracker.start p = some (tracker, priority)) :
      Step m { m with
      tracker := tracker
      taken := before ++ after
      runs := m.runs ++ [⟨p, .started⟩]
      log := .start p priority :: m.log }
  | discard {before after : List Path} {p : Path} (h : m.taken = before ++ p :: after)
      (hs : m.tracker.start p = none) : Step m { m with taken := before ++ after }
  | proceed {before after : List Run} {run : Run} (failed : Bool)
      (h : m.runs = before ++ run :: after) : Step m { m with
      counters := run.phase.change failed m.counters
      runs := before ++ { run with phase := run.phase.next } :: after
      lost := m.lost + (run.phase.loses m.counters).toNat }
  | advance {run : Run} (h : run ∈ m.runs) (hr : run.phase = .parsing) {state : JobState}
      (hs : state ≠ .queued) : Step m { m with tracker := m.tracker.setState run.path state }
  | complete {before after : List Run} {run : Run} (h : m.runs = before ++ run :: after)
      (hr : run.phase = .counted) : Step m { m with
      tracker := (m.tracker.finish run.path).1
      senders := ((m.tracker.finish run.path).2.map fun interactive =>
        ⟨run.path, interactive, false⟩).toList ++ m.senders
      runs := before ++ after }
  /-- The counters that no job moves through. -/
  | count {coalesced filtered fromCache filesApplied filesSkipped : Nat} {errors : List FileError} :
      Step m { m with counters := { m.counters with
        coalesced, filtered, fromCache, filesApplied, filesSkipped, errors } }
  | beginRemoval : Step m { m with tracker := m.tracker.beginRemoval }
  | endRemoval : Step m { m with tracker := m.tracker.endRemoval }

inductive Reachable : Metered → Prop
  | init : Reachable {}
  | step {m m' : Metered} (h : Reachable m) (hs : Step m m') : Reachable m'

section Traffic

variable {m m' : Metered}

theorem map_senderOf? (p : Path) (interactive : Bool) (admission : Admission) :
    (Sender.of? p interactive admission).map (fun s => (s.path, s.priority)) =
      Traffic.sent? p interactive admission := by
  cases admission with
  | accepted => rfl
  | coalesced upgraded => cases upgraded <;> rfl

theorem Step.traffic (hs : Step m m') :
    m'.traffic = m.traffic ∨ Traffic.Step m.traffic m'.traffic := by
  cases hs with
  | request p interactive =>
    right
    have hstep := Traffic.Step.request (t := m.traffic) p interactive
    rw [← map_senderOf?] at hstep
    simpa [Metered.traffic, Option.toList_map] using hstep
  | announce h =>
    left
    simp [Metered.traffic, h]
  | @send before after sender h =>
    right
    have hstep := @Traffic.Step.send m.traffic (before.map fun s => (s.path, s.priority))
      (after.map fun s => (s.path, s.priority)) sender.path sender.priority
      (by simp [Metered.traffic, h])
    simpa [Metered.traffic] using hstep
  | receive h => exact .inr (.receive (t := m.traffic) h)
  | start h hs =>
    right
    have hstep := Traffic.Step.start (t := m.traffic) h hs
    simpa [Metered.traffic] using hstep
  | discard h hs => exact .inr (.discard (t := m.traffic) h hs)
  | proceed failed h =>
    left
    simp [Metered.traffic, h]
  | advance h hr hs =>
    exact .inr (.advance (t := m.traffic) (List.mem_map.mpr ⟨_, h, rfl⟩) hs)
  | @complete before after run h hr =>
    right
    have hstep := @Traffic.Step.complete m.traffic (before.map (·.path)) (after.map (·.path))
      run.path (by simp [Metered.traffic, h])
    simpa [Metered.traffic, Option.toList_map, Option.map_map, Function.comp_def] using hstep
  | count => exact .inl rfl
  | beginRemoval => exact .inr .beginRemoval
  | endRemoval => exact .inr .endRemoval

theorem Reachable.traffic (h : Reachable m) : Traffic.Reachable m.traffic := by
  induction h with
  | init => exact .init
  | step _ hs ih =>
    rcases hs.traffic with heq | hstep
    · rw [heq]
      exact ih
    · exact ih.step hstep

theorem Reachable.running (h : Reachable m) {run : Run} (hr : run ∈ m.runs) :
    m.tracker.Running run.path := by
  have hmem : run.path ∈ m.traffic.running := List.mem_map.mpr ⟨run, hr, rfl⟩
  obtain ⟨n, hn⟩ := Traffic.runs_pos hmem
  have hbal := h.traffic.inv.balanced run.path
  rw [Traffic.Balanced, hn] at hbal
  obtain ⟨_, job, hf, hq, _⟩ := hbal.of_running
  exact ⟨job, hf, hq⟩

end Traffic

def starts (log : List TrafficEvent) : Nat :=
  log.countP fun
    | .start _ _ => true
    | .request _ _ => false

/-- Every job on its way is in exactly one gauge or on its way into one, and every run ends in one of
the two totals. -/
structure Accounts (m : Metered) : Prop where
  queued : m.counters.queued + m.senders.countP (!·.announced) =
    m.tracker.queuedAmong (fun _ => true) + m.runs.countP (·.phase = .started) + m.lost
  parsing : m.counters.parsing = m.runs.countP (·.phase = .parsing)
  merging : m.counters.merging = m.runs.countP (·.phase = .merging)
  ended : m.counters.applied + m.counters.failed + m.runs.countP (·.phase ≠ .counted) = starts m.log

section Accounts

variable {m m' : Metered}

theorem Accounts.request (h : m.Accounts) (p : Path) (interactive : Bool) : Accounts { m with
    tracker := (m.tracker.accept p interactive).1
    senders := (Sender.of? p interactive (m.tracker.accept p interactive).2).toList ++ m.senders
    log := .request p interactive :: m.log
    upgrades := m.upgrades +
      ((m.tracker.accept p interactive).2 = .coalesced true : Bool).toNat } where
  queued := by
    have hqueued := Tracker.queuedAmong_accept (P := fun _ => true) (fun _ _ _ => rfl) m.tracker p
      interactive
    have hnew : (Sender.of? p interactive (m.tracker.accept p interactive).2).toList.countP
        (!·.announced) = ((m.tracker.accept p interactive).2 = .accepted : Bool).toNat := by
      cases (m.tracker.accept p interactive).2 with
      | accepted => rfl
      | coalesced upgraded => cases upgraded <;> rfl
    have hold := h.queued
    simp only [Bool.and_true] at hqueued
    simp only [List.countP_append, hnew, hqueued]
    omega
  parsing := h.parsing
  merging := h.merging
  ended := h.ended

theorem Accounts.proceed (h : m.Accounts) {before after : List Run} {run : Run} (failed : Bool)
    (hr : m.runs = before ++ run :: after) : Accounts { m with
    counters := run.phase.change failed m.counters
    runs := before ++ { run with phase := run.phase.next } :: after
    lost := m.lost + (run.phase.loses m.counters).toNat } := by
  obtain ⟨hqueued, hparsing, hmerging, hended⟩ := h
  rw [hr] at hqueued hparsing hmerging hended
  simp only [List.countP_append, List.countP_cons, decide_eq_true_eq] at *
  have hlost := run.phase.loses_toNat m.counters
  constructor <;> simp only [List.countP_append, List.countP_cons, decide_eq_true_eq]
  case queued =>
    rw [Phase.queued_change, if_neg run.phase.next_ne_started]
    omega
  case parsing =>
    rw [Phase.parsing_change]
    omega
  case merging =>
    rw [Phase.merging_change]
    omega
  case ended =>
    have hchange := run.phase.ended_change failed m.counters
    omega

theorem Accounts.complete (h : m.Accounts) {before after : List Run} {run : Run}
    (hr : m.runs = before ++ run :: after) (hcounted : run.phase = .counted)
    (hrun : m.tracker.Running run.path) : Accounts { m with
    tracker := (m.tracker.finish run.path).1
    senders := ((m.tracker.finish run.path).2.map fun interactive =>
      ⟨run.path, interactive, false⟩).toList ++ m.senders
    runs := before ++ after } := by
  obtain ⟨hqueued, hparsing, hmerging, hended⟩ := h
  have hfinish := Tracker.queuedAmong_finish (P := fun _ => true) (fun _ _ _ => rfl) hrun
  have hnew : ((m.tracker.finish run.path).2.map fun interactive =>
      (⟨run.path, interactive, false⟩ : Sender)).toList.countP (!·.announced) =
        (m.tracker.finish run.path).2.isSome.toNat := by
    cases (m.tracker.finish run.path).2 <;> rfl
  rw [hr] at hqueued hparsing hmerging hended
  simp [hcounted] at hqueued hparsing hmerging hended
  constructor <;> simp only [List.countP_append, hnew, hfinish, Bool.and_true]
  case queued => omega
  case parsing => exact hparsing
  case merging => exact hmerging
  case ended => simpa using hended

theorem Accounts.step (h : m.Accounts) (hrun : ∀ run ∈ m.runs, m.tracker.Running run.path)
    (hs : Step m m') : m'.Accounts := by
  cases hs with
  | request p interactive => exact h.request p interactive
  | @announce before after sender hsenders hc =>
    have hqueued := h.queued
    simp [hsenders, hc] at hqueued
    refine { h with queued := ?_ }
    simp [Counters.jobQueued]
    omega
  | @send before after sender hsenders hc =>
    have hqueued := h.queued
    simp [hsenders, hc] at hqueued
    exact { h with queued := by simpa using hqueued }
  | receive => exact { h with }
  | @start before after p tracker priority ht hs =>
    have hstart := Tracker.queuedAmong_start (P := fun _ => true) (fun _ _ _ => rfl) hs
    rw [Bool.toNat_true] at hstart
    obtain ⟨hqueued, hparsing, hmerging, hended⟩ := h
    rw [← hstart] at hqueued
    constructor
    case queued =>
      simp
      omega
    case parsing => simpa using hparsing
    case merging => simpa using hmerging
    case ended =>
      simp [starts] at hended ⊢
      omega
  | discard => exact { h with }
  | proceed failed hr => exact h.proceed failed hr
  | @advance run hr _ state hs =>
    have hset := Tracker.queuedAmong_setState (P := fun _ => true) (fun _ _ _ => rfl)
      (hrun run hr) hs
    exact { h with queued := by simpa [hset] using h.queued }
  | @complete before after run hr hcounted =>
    exact h.complete hr hcounted (hrun run (by simp [hr]))
  | count => exact { h with }
  | beginRemoval => exact { h with }
  | endRemoval => exact { h with }

theorem Reachable.accounts (h : Reachable m) : m.Accounts := by
  induction h with
  | init => exact ⟨rfl, rfl, rfl, rfl⟩
  | step h hs ih => exact ih.step (fun _ hr => h.running hr) hs

end Accounts

/-- How many entries for the paths that pass a test are sent, received or in between, and not looked
up yet. -/
def waiting (m : Metered) (P : Path → Bool) : Nat :=
  m.senders.countP (P ·.path) + (m.queue true).countP P + (m.queue false).countP P +
    m.taken.countP P

/-- Each queued job has one entry, and no decrement was lost. -/
structure Exact (m : Metered) : Prop where
  waiting : ∀ P : Path → Bool, (∀ p q, p.same q = true → P p = P q) →
    m.waiting P = m.tracker.queuedAmong P
  lost : m.lost = 0

section Exact

variable {m m' : Metered}

theorem Exact.queued (h : m.Exact) {p : Path} (hp : p ∈ m.taken) : m.tracker.Queued p := by
  have hpos : 0 < m.taken.countP (·.same p) := List.countP_pos_iff.mpr ⟨p, hp, Path.same_self p⟩
  have hwaiting := h.waiting (·.same p) fun q r hqr => by rw [Path.same_congr hqr]
  refine Tracker.queued_of_queuedAmong ?_
  rw [← hwaiting, Metered.waiting]
  omega

/-- A job that has started was counted: what is not announced yet is queued. -/
theorem Exact.not_loses (h : m.Exact) (ha : m.Accounts) {run : Run} (hr : run ∈ m.runs) :
    run.phase.loses m.counters = false := by
  have hpos : ∀ phase, run.phase = phase → 0 < m.runs.countP (·.phase = phase) :=
    fun phase hp => List.countP_pos_iff.mpr ⟨run, hr, decide_eq_true hp⟩
  have hunannounced : m.senders.countP (!·.announced) ≤ m.waiting fun _ => true := by
    have hle := List.countP_le_length (p := fun s : Sender => !s.announced) (l := m.senders)
    simp only [Metered.waiting, List.countP_true]
    omega
  rw [h.waiting _ fun _ _ _ => rfl] at hunannounced
  have hqueued := ha.queued
  cases hp : run.phase with
  | started =>
    have hstarted := hpos _ hp
    exact decide_eq_false (by omega)
  | parsing => exact decide_eq_false (by rw [ha.parsing]; exact Nat.ne_of_gt (hpos _ hp))
  | merging => exact decide_eq_false (by rw [ha.merging]; exact Nat.ne_of_gt (hpos _ hp))
  | _ => rfl

theorem waiting_step (h : m.Exact) (hrun : ∀ run ∈ m.runs, m.tracker.Running run.path)
    (hs : Step m m') (hu : m'.upgrades = 0) {P : Path → Bool}
    (hP : ∀ p q, p.same q = true → P p = P q) : m'.waiting P = m'.tracker.queuedAmong P := by
  have hold := h.waiting P hP
  cases hs with
  | request p interactive =>
    have haccept := Tracker.queuedAmong_accept hP m.tracker p interactive
    have hnew : (Sender.of? p interactive (m.tracker.accept p interactive).2).toList.countP
        (P ·.path) = ((m.tracker.accept p interactive).2 = .accepted && P p).toNat := by
      cases hadm : (m.tracker.accept p interactive).2 with
      | accepted => cases hp : P p <;> simp [Sender.of?, hp]
      | coalesced upgraded =>
        cases upgraded with
        | false => rfl
        | true => simp [hadm] at hu
    simp only [waiting, List.countP_append, hnew, haccept] at hold ⊢
    omega
  | @announce before after sender hsenders =>
    simpa [waiting, hsenders, List.countP_cons] using hold
  | @send before after sender hsenders =>
    simp only [waiting, hsenders, List.countP_append, List.countP_cons] at hold
    cases hpriority : sender.priority
    all_goals
      simp [waiting, List.countP_singleton]
      omega
  | @receive priority p rest hqueue =>
    cases priority
    all_goals
      simp [waiting, hqueue, List.countP_cons] at hold ⊢
      omega
  | @start before after p tracker priority ht hs =>
    have hstart := Tracker.queuedAmong_start hP hs
    simp only [waiting, ht, List.countP_append, List.countP_cons] at hold ⊢
    cases hp : P p <;> simp [hp] at hold hstart <;> omega
  | @discard before after p ht hs =>
    -- No entry is stale: the one that is looked up belongs to a queued job.
    obtain ⟨job, hf, hq⟩ := h.queued (p := p) (by simp [ht])
    exact absurd hq (Tracker.start_eq_none_iff.mp hs job hf)
  | proceed => exact hold
  | @advance run hr _ state hs =>
    rw [Tracker.queuedAmong_setState hP (hrun run hr) hs]
    exact hold
  | @complete before after run hr =>
    have hfinish := Tracker.queuedAmong_finish hP (hrun run (by simp [hr]))
    have hnew : ((m.tracker.finish run.path).2.map fun interactive =>
        (⟨run.path, interactive, false⟩ : Sender)).toList.countP (P ·.path) =
          ((m.tracker.finish run.path).2.isSome && P run.path).toNat := by
      cases (m.tracker.finish run.path).2 <;> cases hp : P run.path <;> simp [hp]
    simp only [waiting, List.countP_append, hnew, hfinish] at hold ⊢
    omega
  | count => exact hold
  | beginRemoval => exact hold
  | endRemoval => exact hold

theorem upgrades_le (hs : Step m m') : m.upgrades ≤ m'.upgrades := by
  cases hs <;> simp

theorem lost_step (h : m.Exact) (ha : m.Accounts) (hs : Step m m') : m'.lost = 0 := by
  cases hs with
  | @proceed before after run failed hr =>
    have hmem : run ∈ m.runs := by simp [hr]
    simp [h.lost, h.not_loses ha hmem]
  | _ => exact h.lost

theorem Reachable.exact (h : Reachable m) (hu : m.upgrades = 0) : m.Exact := by
  induction h with
  | init => exact ⟨fun _ _ => rfl, rfl⟩
  | step h hs ih =>
    have hold := ih (Nat.le_zero.mp (hu ▸ upgrades_le hs))
    exact ⟨fun _ hP => waiting_step hold (fun _ hr => h.running hr) hs hu hP,
      lost_step hold h.accounts hs⟩

end Exact

section Rest

variable {m m' : Metered}

theorem Reachable.runs_of_isIdle (h : Reachable m) (hidle : m.tracker.isIdle = true) :
    m.runs = [] := by
  refine List.eq_nil_iff_forall_not_mem.mpr fun run hr => ?_
  obtain ⟨job, hf, _⟩ := h.running hr
  rw [(Tracker.isIdle_iff.mp hidle).1] at hf
  cases hf

/-- A decrement is lost only when more jobs are still to be announced than are queued: one of them
has started. -/
theorem Accounts.unannounced_of_lost (h : m.Accounts) (hs : Step m m') (hl : m.lost < m'.lost) :
    m.tracker.queuedAmong (fun _ => true) < m.senders.countP (!·.announced) := by
  cases hs with
  | @proceed before after run failed hr =>
    obtain ⟨hqueued, hparsing, hmerging, _⟩ := h
    have hlost := run.phase.loses_toNat m.counters
    rw [hr] at hqueued hparsing hmerging
    simp only [List.countP_append, List.countP_cons, decide_eq_true_eq] at *
    omega
  | _ => exact absurd hl (Nat.lt_irrefl _)

/-- In every order of the steps the gauges account for the jobs on their way. So when nothing is under
way, no job is parsed or merged, each run was applied or failed, and the jobs that still count as
queued are the decrements that were lost. None is lost without an upgrade, and none unless a job has
started that is not announced yet. -/
theorem Reachable.gauges_at_rest (h : Reachable m) :
    m.Accounts ∧
    (m.tracker.isIdle = true → m.senders = [] →
      m.counters.queued = m.lost ∧ m.counters.parsing = 0 ∧ m.counters.merging = 0 ∧
        m.counters.applied + m.counters.failed = starts m.log) ∧
    (m.upgrades = 0 → m.lost = 0) ∧
    ∀ m', Step m m' → m.lost < m'.lost →
      m.tracker.queuedAmong (fun _ => true) < m.senders.countP (!·.announced) := by
  have haccounts := h.accounts
  refine ⟨haccounts, fun hidle hsenders => ?_, fun hu => (h.exact hu).lost,
    fun m' hs hl => haccounts.unannounced_of_lost hs hl⟩
  obtain ⟨hqueued, hparsing, hmerging, hended⟩ := haccounts
  rw [h.runs_of_isIdle hidle] at hqueued hparsing hmerging hended
  rw [hsenders, Tracker.queuedAmong_of_isIdle hidle] at hqueued
  exact ⟨by simpa using hqueued, hparsing, hmerging, hended⟩

/-- A run that is worked off without a break, with the outcome that it has. -/
theorem Reachable.worked_off (h : Reachable m) {p : Path} (hr : m.runs = [⟨p, .started⟩])
    (error : Option FileError) (fromCache : Bool) : Reachable { m with
      tracker := m.tracker.setState p .mergeQueued
      counters := match error with
        | some e => m.counters.jobStarted.jobMergeQueued.jobFailed e
        | none => m.counters.jobStarted.jobMergeQueued.jobApplied fromCache
      runs := [⟨p, .counted⟩]
      lost := m.lost + (m.counters.queued = 0 : Bool).toNat } := by
  have h₁ := h.step (@Step.proceed _ [] [] _ false hr)
  have h₂ := h₁.step (@Step.proceed _ [] [] _ false rfl)
  have h₃ := h₂.step (@Step.advance _ ⟨p, .parsing⟩ List.mem_cons_self rfl .mergeQueued
    JobState.noConfusion)
  have h₄ := h₃.step (@Step.proceed _ [] [] _ false rfl)
  have h₅ := h₄.step (@Step.proceed _ [] [] _ false rfl)
  have h₆ := h₅.step (@Step.proceed _ [] [] _ false rfl)
  have h₇ := h₆.step (@Step.proceed _ [] [] _ error.isSome rfl)
  cases error with
  | some e => exact h₇.step (@Step.count _ _ _ _ _ _ (m.counters.errors ++ [e]))
  | none =>
    exact h₇.step (@Step.count _ _ _ (m.counters.fromCache + if fromCache then 1 else 0) _ _ _)

/-- One request, from its acceptance to the end of its run. -/
theorem request_served :
    let a : Path := ⟨"/a.cc"⟩
    ∃ m, Reachable m ∧ m.log = [.start a false, .request a false] ∧
      m.tracker.isIdle = true ∧ m.senders = [] ∧
      m.counters.queued = 0 ∧ m.counters.parsing = 0 ∧ m.counters.merging = 0 ∧
      m.counters.applied + m.counters.failed = starts m.log := by
  intro a
  have h₁ := Reachable.init.step (.request a false)
  have h₂ := h₁.step (@Step.announce _ [] [] ⟨a, false, false⟩ (by decide +kernel) rfl)
  have h₃ := h₂.step (@Step.send _ [] [] ⟨a, false, true⟩ (by decide +kernel) rfl)
  have h₄ := h₃.step (@Step.receive _ false a [] (by decide +kernel))
  have h₅ := h₄.step (@Step.start _ [] [] a _ _ rfl (Option.some_get (by decide +kernel)).symm)
  have h₆ := h₅.worked_off rfl none false
  have h₇ := h₆.step (@Step.complete _ [] [] ⟨a, .counted⟩ rfl rfl)
  obtain ⟨_, hrest, hexact, _⟩ := h₇.gauges_at_rest
  obtain ⟨hqueued, hrest⟩ := hrest (by decide +kernel) (by decide +kernel)
  exact ⟨_, h₇, by decide +kernel, by decide +kernel, by decide +kernel,
    hqueued.trans (hexact (by decide +kernel)), hrest⟩

/-- A background request is made interactive and carried out. Its first entry is left behind. -/
theorem upgraded_request_served :
    let a : Path := ⟨"/a.cc"⟩
    Reachable {
      counters := { applied := 1, coalesced := 1 }
      queue := fun priority => if priority then [] else [a]
      log := [.start a true, .request a true, .request a false]
      upgrades := 1 } := by
  intro a
  have h₁ := Reachable.init.step (.request a false)
  have h₂ := h₁.step (@Step.announce _ [] [] ⟨a, false, false⟩ (by decide +kernel) rfl)
  have h₃ := h₂.step (@Step.send _ [] [] ⟨a, false, true⟩ (by decide +kernel) rfl)
  have h₄ := h₃.step (.request a true)
  have h₅ := h₄.step (@Step.count _ 1 0 0 0 0 [])
  have h₆ := h₅.step (@Step.send _ [] [] ⟨a, true, true⟩ (by decide +kernel) rfl)
  have h₇ := h₆.step (@Step.receive _ true a [] (by decide +kernel))
  have h₈ := h₇.step (@Step.start _ [] [] a _ _ rfl (Option.some_get (by decide +kernel)).symm)
  have h₉ := h₈.worked_off rfl none false
  have h₁₀ := h₉.step (@Step.complete _ [] [] ⟨a, .counted⟩ rfl rfl)
  refine (congrArg Reachable ?_).mp h₁₀
  apply Metered.ext
  case queue => exact funext fun priority => by cases priority <;> decide +kernel
  all_goals decide +kernel

/-- When the path is requested anew, a worker starts the new job with the entry that was left behind,
and the run is over before the job is announced. The gauge never comes down again. -/
theorem stale_entry_leaves_gauge_up :
    let a : Path := ⟨"/a.cc"⟩
    ∃ m, Reachable m ∧ m.tracker.isIdle = true ∧
      m.senders = [] ∧ m.queue true = [] ∧ m.queue false = [] ∧ m.taken = [] ∧ m.runs = [] ∧
      m.log = [.start a false, .request a false, .start a true, .request a true,
        .request a false] ∧
      m.counters = { queued := 1, applied := 2, coalesced := 1 } := by
  intro a
  have h₁ := upgraded_request_served.step (@Step.receive _ false a [] rfl)
  have h₂ := h₁.step (.request a false)
  have h₃ := h₂.step (@Step.start _ [] [] a _ _ rfl (Option.some_get (by decide +kernel)).symm)
  have h₄ := h₃.worked_off rfl none false
  have h₅ := h₄.step (@Step.complete _ [] [] ⟨a, .counted⟩ rfl rfl)
  have h₆ := h₅.step (@Step.announce _ [] [] ⟨a, false, false⟩ (by decide +kernel) rfl)
  have h₇ := h₆.step (@Step.send _ [] [] ⟨a, false, true⟩ (by decide +kernel) rfl)
  have h₈ := h₇.step (@Step.receive _ false a [] (by decide +kernel))
  have h₉ := h₈.step (@Step.discard _ [] [] a rfl (by decide +kernel))
  exact ⟨_, h₉, by decide +kernel⟩

end Rest

end Metered
end SymbolIndex
