import Mathlib.Logic.Function.Basic
import Mathlib.Logic.Relation
import SymbolIndex.Proofs.Path
import SymbolIndex.Proofs.Pipeline.Orderly

/-! Requests, workers and merges that interleave. A step is one critical section of the tracker, or one
send to or receive from a queue. What the tracker keeps of a path is an account of the requests since
the path was started last, so none of them is lost and each counts for the priority of one start. -/

namespace SymbolIndex

inductive TrafficEvent
  | request (path : Path) (interactive : Bool)
  | start (path : Path) (priority : Bool)
  deriving DecidableEq

/-- All that is under way around the tracker. -/
structure Traffic where
  tracker : Tracker := {}
  /-- Entries on their way into the queue of their priority. -/
  sends : List (Path × Bool) := []
  /-- The queue of each priority, the oldest entry first. -/
  queue : Bool → List Path := fun _ => []
  /-- Entries that a worker has received and not looked up yet. -/
  taken : List Path := []
  /-- Started and not completed. -/
  running : List Path := []
  /-- The latest event first. -/
  log : List TrafficEvent := []

namespace Traffic

/-- The flags of the requests for a path since it was started last. -/
def pending (p : Path) : List TrafficEvent → List Bool
  | [] => []
  | .request q interactive :: earlier =>
    if q.same p then interactive :: pending p earlier else pending p earlier
  | .start q _ :: earlier => if q.same p then [] else pending p earlier

def sent? (p : Path) (interactive : Bool) : Admission → Option (Path × Bool)
  | .accepted => some (p, interactive)
  | .coalesced upgraded => if upgraded then some (p, true) else none

inductive Step (t : Traffic) : Traffic → Prop
  | request (p : Path) (interactive : Bool) : Step t { t with
      tracker := (t.tracker.accept p interactive).1
      sends := (sent? p interactive (t.tracker.accept p interactive).2).toList ++ t.sends
      log := .request p interactive :: t.log }
  | send {before after : List (Path × Bool)} {p : Path} {priority : Bool}
      (h : t.sends = before ++ (p, priority) :: after) : Step t { t with
      sends := before ++ after
      queue := Function.update t.queue priority (t.queue priority ++ [p]) }
  | receive {priority : Bool} {p : Path} {rest : List Path} (h : t.queue priority = p :: rest) :
      Step t { t with queue := Function.update t.queue priority rest, taken := p :: t.taken }
  | start {before after : List Path} {p : Path} {tracker : Tracker} {priority : Bool}
      (h : t.taken = before ++ p :: after) (hs : t.tracker.start p = some (tracker, priority)) :
      Step t { t with
      tracker := tracker
      taken := before ++ after
      running := t.running ++ [p]
      log := .start p priority :: t.log }
  | discard {before after : List Path} {p : Path} (h : t.taken = before ++ p :: after)
      (hs : t.tracker.start p = none) : Step t { t with taken := before ++ after }
  | advance {p : Path} (h : p ∈ t.running) {state : JobState} (hs : state ≠ .queued) :
      Step t { t with tracker := t.tracker.setState p state }
  | complete {before after : List Path} {p : Path} (h : t.running = before ++ p :: after) :
      Step t { t with
      tracker := (t.tracker.finish p).1
      running := before ++ after
      sends := ((t.tracker.finish p).2.map (p, ·)).toList ++ t.sends }
  | beginRemoval : Step t { t with tracker := t.tracker.beginRemoval }
  | endRemoval : Step t { t with tracker := t.tracker.endRemoval }

inductive Reachable : Traffic → Prop
  | init : Reachable {}
  | step {t t' : Traffic} (h : Reachable t) (hs : Step t t') : Reachable t'

theorem Reachable.steps {t t' : Traffic} (h : Reachable t) (hs : Relation.ReflTransGen Step t t') :
    Reachable t' := by
  induction hs with
  | refl => exact h
  | tail _ hs ih => exact ih.step hs

/-- What the tracker keeps of a path, how many runs of the path there are, and the requests since the
last start. -/
inductive Account : Option Job → Nat → List Bool → Prop
  | idle : Account none 0 []
  | queued {flags : List Bool} (h : flags ≠ []) :
      Account (some { interactive := flags.any id }) 0 flags
  | running {state : JobState} {interactive : Bool} {flags : List Bool} (h : state ≠ .queued) :
      Account (some ⟨state, interactive, !flags.isEmpty, flags.any id⟩) 1 flags

def runs (t : Traffic) (p : Path) : Nat := t.running.countP (·.same p)

/-- An entry that is sent, received or in between, and not looked up yet. -/
def Waiting (t : Traffic) (q : Path) : Prop :=
  q ∈ t.taken ∨ (∃ priority, q ∈ t.queue priority) ∨ ∃ priority, (q, priority) ∈ t.sends

def Balanced (t : Traffic) (p : Path) : Prop :=
  Account (t.tracker.jobs.find? p) (t.runs p) (pending p t.log)

structure Inv (t : Traffic) : Prop where
  balanced : ∀ p, t.Balanced p
  waits : ∀ p, t.tracker.Queued p → ∃ q, t.Waiting q ∧ q.same p = true
  starts : ∀ later earlier p priority, t.log = later ++ .start p priority :: earlier →
    priority = (pending p earlier).any id

section Account

variable {job? : Option Job} {job : Job} {n : Nat} {flags : List Bool}

theorem Account.le_one (h : Account job? n flags) : n ≤ 1 := by
  cases h <;> omega

theorem Account.of_running (h : Account job? (n + 1) flags) : n = 0 ∧
    ∃ job, job? = some job ∧ job.state ≠ .queued ∧ job.rerun = !flags.isEmpty ∧
      job.rerunInteractive = flags.any id := by
  cases h with
  | running hs => exact ⟨rfl, _, rfl, hs, rfl, rfl⟩

theorem Account.of_none (h : Account none n flags) : flags = [] := by
  cases h
  rfl

theorem Account.of_queued (h : Account (some job) n flags) (hs : job.state = .queued) :
    n = 0 ∧ job = { interactive := flags.any id } := by
  cases h with
  | queued => exact ⟨rfl, rfl⟩
  | running hn => exact absurd hs hn

end Account

section Pending

variable {p q : Path}

theorem pending_congr (h : p.same q = true) (log : List TrafficEvent) :
    pending p log = pending q log := by
  induction log with
  | nil => rfl
  | cons e earlier ih => cases e <;> simp only [pending, Path.same_congr_right h, ih]

theorem mem_pending {log later earlier : List TrafficEvent} {interactive : Bool}
    (hlog : log = later ++ .request q interactive :: earlier) (hq : q.same p = true)
    (hstart : ∀ r priority, .start r priority ∈ later → r.same p = false) :
    interactive ∈ pending p log := by
  induction later generalizing log with
  | nil =>
    rw [hlog, List.nil_append, pending, if_pos hq]
    exact List.mem_cons_self
  | cons e rest ih =>
    have hrest : interactive ∈ pending p (rest ++ .request q interactive :: earlier) :=
      ih rfl fun r priority hr => hstart r priority (List.mem_cons_of_mem _ hr)
    rw [hlog, List.cons_append]
    cases e with
    | request r i =>
      rw [pending]
      split
      next => exact List.mem_cons_of_mem _ hrest
      next => exact hrest
    | start r i =>
      rw [pending, hstart r i List.mem_cons_self]
      exact hrest

end Pending

section Balanced

variable {t t' : Traffic} {p q : Path}

theorem Balanced.congr (h : t.Balanced p) (hpq : p.same q = true) : t.Balanced q := by
  have hruns : t.runs p = t.runs q :=
    congrArg (t.running.countP ·) (funext (Path.same_congr_right hpq))
  rw [Balanced, ← Tracker.find?_congr _ hpq, ← hruns, ← pending_congr hpq]
  exact h

/-- A step that concerns one path leaves the accounts of all others as they are. -/
theorem balanced_of_touched (h : ∀ q, t.Balanced q) (hp : t'.Balanced p)
    (hother : ∀ q, q.same p = false → t'.tracker.jobs.find? q = t.tracker.jobs.find? q ∧
      t'.runs q = t.runs q ∧ pending q t'.log = pending q t.log) (q : Path) : t'.Balanced q := by
  cases hq : q.same p with
  | true => exact hp.congr (by rwa [Path.same_comm])
  | false =>
    obtain ⟨hfind, hruns, hlog⟩ := hother q hq
    rw [Balanced, hfind, hruns, hlog]
    exact h q

theorem account_accept {tracker : Tracker} {n : Nat} {flags : List Bool}
    (h : Account (tracker.jobs.find? p) n flags) (interactive : Bool) :
    Account ((tracker.accept p interactive).1.jobs.find? p) n (interactive :: flags) := by
  rw [Tracker.accept]
  generalize hf : tracker.jobs.find? p = job? at h
  cases h with
  | idle =>
    dsimp only
    rw [Tracker.find?_put_self]
    have hq := @Account.queued [interactive] (List.cons_ne_nil _ _)
    simpa using hq
  | queued hn =>
    dsimp only
    rw [if_pos rfl, Tracker.find?_put_self]
    have hq := @Account.queued (interactive :: flags) (List.cons_ne_nil _ _)
    simpa [Bool.or_comm] using hq
  | running hs =>
    dsimp only
    rw [if_neg hs, Tracker.find?_put_self, Bool.or_comm]
    exact @Account.running _ _ (interactive :: flags) hs

theorem account_start {tracker tracker' : Tracker} {n : Nat} {flags : List Bool} {priority : Bool}
    (h : Account (tracker.jobs.find? p) n flags)
    (hs : tracker.start p = some (tracker', priority)) :
    priority = flags.any id ∧ Account (tracker'.jobs.find? p) (n + 1) [] := by
  obtain ⟨job, hf, hq, rfl, rfl⟩ := Tracker.start_spec hs
  rw [hf] at h
  obtain ⟨rfl, rfl⟩ := h.of_queued hq
  rw [Tracker.find?_put_self]
  exact ⟨rfl, @Account.running .parsing _ [] JobState.noConfusion⟩

theorem account_setState {tracker : Tracker} {n : Nat} {flags : List Bool} {state : JobState}
    (h : Account (tracker.jobs.find? p) (n + 1) flags) (hs : state ≠ .queued) :
    Account ((tracker.setState p state).jobs.find? p) (n + 1) flags := by
  rw [Tracker.setState]
  generalize hf : tracker.jobs.find? p = job? at h
  cases h with
  | running =>
    dsimp only
    rw [Tracker.find?_put_self]
    exact Account.running hs

theorem account_finish {tracker : Tracker} {n : Nat} {flags : List Bool}
    (h : Account (tracker.jobs.find? p) (n + 1) flags) :
    Account ((tracker.finish p).1.jobs.find? p) n flags := by
  rw [Tracker.finish]
  generalize hf : tracker.jobs.find? p = job? at h
  cases h with
  | running =>
    dsimp only
    cases flags with
    | nil =>
      rw [if_neg (by simp)]
      dsimp only
      rw [OrderedMap.find?_erase, if_pos Std.ReflOrd.compare_self]
      exact Account.idle
    | cons flag rest =>
      rw [if_pos (by simp), Tracker.find?_put_self]
      exact Account.queued (List.cons_ne_nil _ _)

end Balanced

section Step

variable {t t' : Traffic} {p q : Path}

theorem runs_pos (h : p ∈ t.running) : ∃ n, t.runs p = n + 1 :=
  Nat.exists_eq_succ_of_ne_zero (Nat.ne_of_gt (List.countP_pos_iff.mpr ⟨p, h, Path.same_self p⟩))

theorem balanced_step (h : ∀ q, t.Balanced q) (hs : Step t t') : ∀ q, t'.Balanced q := by
  cases hs with
  | request p interactive =>
    refine balanced_of_touched (p := p) h ?_ fun q hq => ⟨Tracker.find?_accept hq _, rfl, ?_⟩
    · rw [Balanced, pending, if_pos (Path.same_self p)]
      exact account_accept (h p) interactive
    · rw [pending, Path.same_comm, hq]
      rfl
  | send => exact h
  | receive => exact h
  | @start before after p tracker priority ht hs =>
    refine balanced_of_touched (p := p) h ?_ fun q hq => ⟨Tracker.find?_start hq hs, ?_, ?_⟩
    · rw [Balanced, pending, if_pos (Path.same_self p), runs, List.countP_append,
        List.countP_singleton, if_pos (Path.same_self p)]
      exact (account_start (h p) hs).2
    · rw [runs, List.countP_append, List.countP_singleton, Path.same_comm, hq]
      rfl
    · rw [pending, Path.same_comm, hq]
      rfl
  | discard => exact h
  | @advance p hp state hs =>
    refine balanced_of_touched (p := p) h ?_ fun q hq => ⟨Tracker.find?_setState hq _, rfl, rfl⟩
    obtain ⟨n, hn⟩ := runs_pos hp
    have hbal := h p
    rw [Balanced, hn] at hbal
    have hacc := account_setState hbal hs
    rw [← hn] at hacc
    exact hacc
  | @complete before after p hr =>
    have hruns : ∀ q, t.runs q = (before ++ after).countP (·.same q) +
        if p.same q = true then 1 else 0 := by
      intro q
      rw [runs, hr, List.countP_append, List.countP_cons, List.countP_append]
      omega
    refine balanced_of_touched (p := p) h ?_ fun q hq => ⟨Tracker.find?_finish hq, ?_, rfl⟩
    · have hbal := h p
      rw [Balanced, hruns, if_pos (Path.same_self p)] at hbal
      exact account_finish hbal
    · rw [hruns q, Path.same_comm, hq]
      rfl
  | beginRemoval => exact h
  | endRemoval => exact h

theorem starts_step (hb : ∀ q, t.Balanced q)
    (h : ∀ later earlier p priority, t.log = later ++ .start p priority :: earlier →
      priority = (pending p earlier).any id) (hs : Step t t') :
    ∀ later earlier p priority, t'.log = later ++ .start p priority :: earlier →
      priority = (pending p earlier).any id := by
  cases hs with
  | request p interactive =>
    intro later earlier q priority hlog
    cases later with
    | nil => cases hlog
    | cons e later => exact h later earlier q priority (List.cons.inj hlog).2
  | @start before after p tracker priority ht hs =>
    intro later earlier q priority' hlog
    cases later with
    | nil =>
      cases hlog
      exact (account_start (hb p) hs).1
    | cons e later => exact h later earlier q priority' (List.cons.inj hlog).2
  | send => exact h
  | receive => exact h
  | discard => exact h
  | advance => exact h
  | complete => exact h
  | beginRemoval => exact h
  | endRemoval => exact h

/-- The entry that a step looks up is the only one that goes. -/
theorem Waiting.of_taken {before after : List Path} (ht : t.taken = before ++ p :: after)
    {tracker : Tracker} {running : List Path} {log : List TrafficEvent} (h : t.Waiting q) :
    q = p ∨ Waiting ⟨tracker, t.sends, t.queue, before ++ after, running, log⟩ q := by
  rcases h with h | h
  · rw [ht, List.mem_append, List.mem_cons] at h
    rcases h with h | rfl | h
    · exact .inr (.inl (List.mem_append_left _ h))
    · exact .inl rfl
    · exact .inr (.inl (List.mem_append_right _ h))
  · exact .inr (.inr h)

theorem Waiting.mono {tracker : Tracker} {new : List (Path × Bool)} {running : List Path}
    {log : List TrafficEvent} (h : t.Waiting q) :
    Waiting ⟨tracker, new ++ t.sends, t.queue, t.taken, running, log⟩ q := by
  rcases h with h | h | ⟨priority, h⟩
  · exact .inl h
  · exact .inr (.inl h)
  · exact .inr (.inr ⟨priority, List.mem_append_right _ h⟩)

theorem waits_step (h : ∀ p, t.tracker.Queued p → ∃ q, t.Waiting q ∧ q.same p = true)
    (hs : Step t t') : ∀ p, t'.tracker.Queued p → ∃ q, t'.Waiting q ∧ q.same p = true := by
  intro r hr
  cases hs with
  | request p interactive =>
    rcases Tracker.queued_accept hr with hold | ⟨hsame, hnew⟩
    · obtain ⟨q, hq, hqr⟩ := h r hold
      exact ⟨q, hq.mono, hqr⟩
    · exact ⟨p, .inr (.inr ⟨interactive, by simp [hnew, sent?]⟩), hsame⟩
  | @send before after p priority hsends =>
    obtain ⟨q, hq, hqr⟩ := h r hr
    refine ⟨q, ?_, hqr⟩
    rcases hq with hq | ⟨other, hq⟩ | ⟨other, hq⟩
    · exact .inl hq
    · refine .inr (.inl ⟨other, ?_⟩)
      by_cases ho : other = priority
      · subst ho
        simp [hq]
      · simpa [Function.update_of_ne ho] using hq
    · rw [hsends, List.mem_append, List.mem_cons] at hq
      rcases hq with hq | hq | hq
      · exact .inr (.inr ⟨other, List.mem_append_left _ hq⟩)
      · cases hq
        exact .inr (.inl ⟨priority, by simp⟩)
      · exact .inr (.inr ⟨other, List.mem_append_right _ hq⟩)
  | @receive priority p rest hqueue =>
    obtain ⟨q, hq, hqr⟩ := h r hr
    refine ⟨q, ?_, hqr⟩
    rcases hq with hq | ⟨other, hq⟩ | hq
    · exact .inl (List.mem_cons_of_mem _ hq)
    · by_cases ho : other = priority
      · subst ho
        rw [hqueue, List.mem_cons] at hq
        rcases hq with rfl | hq
        · exact .inl List.mem_cons_self
        · exact .inr (.inl ⟨other, by simpa using hq⟩)
      · exact .inr (.inl ⟨other, by simpa [Function.update_of_ne ho] using hq⟩)
    · exact .inr (.inr hq)
  | @start before after p tracker priority ht hs =>
    -- The entry may be one that an upgrade left behind. It starts the job all the same, and what is
    -- queued after that has an entry of its own.
    obtain ⟨hold, hne⟩ := Tracker.queued_start hs hr
    obtain ⟨q, hq, hqr⟩ := h r hold
    refine ⟨q, (hq.of_taken ht).resolve_left ?_, hqr⟩
    rintro rfl
    rw [hne] at hqr
    cases hqr
  | @discard before after p ht hs =>
    obtain ⟨q, hq, hqr⟩ := h r hr
    refine ⟨q, (hq.of_taken ht).resolve_left ?_, hqr⟩
    rintro rfl
    obtain ⟨job, hj, hjq⟩ := hr
    rw [← Tracker.find?_congr _ hqr] at hj
    exact Tracker.start_eq_none_iff.mp hs job hj hjq
  | advance hp hne =>
    obtain ⟨q, hq, hqr⟩ := h r (Tracker.queued_setState hne hr)
    exact ⟨q, hq, hqr⟩
  | @complete before after p hrunning =>
    rcases Tracker.queued_finish hr with hold | ⟨hsame, interactive, hnew⟩
    · obtain ⟨q, hq, hqr⟩ := h r hold
      exact ⟨q, hq.mono, hqr⟩
    · exact ⟨p, .inr (.inr ⟨interactive, by simp [hnew]⟩), hsame⟩
  | beginRemoval => exact h r hr
  | endRemoval => exact h r hr

end Step

theorem inv_init : Inv {} where
  balanced _ := .idle
  waits _ h := by
    obtain ⟨job, hj, _⟩ := h
    cases hj
  starts later earlier p priority h := by
    cases later <;> cases h

theorem Inv.step {t t' : Traffic} (h : t.Inv) (hs : Step t t') : t'.Inv where
  balanced := balanced_step h.balanced hs
  waits := waits_step h.waits hs
  starts := starts_step h.balanced h.starts hs

theorem Reachable.inv {t : Traffic} (h : Reachable t) : t.Inv := by
  induction h with
  | init => exact inv_init
  | step _ hs ih => exact ih.step hs

/-- In every order of the steps: a path has at most one run; a queued job has an entry that is being
sent, is in a queue or was received by a worker that has not looked it up; when nothing is under way,
each request was followed by a start; and each start has the priority of the requests since the last
one. -/
theorem Reachable.no_request_lost {t : Traffic} (h : Reachable t) :
    (∀ p, t.runs p ≤ 1) ∧
    (∀ p, t.tracker.Queued p → ∃ q, t.Waiting q ∧ q.same p = true) ∧
    (t.tracker.isIdle = true → ∀ later earlier p interactive,
      t.log = later ++ .request p interactive :: earlier →
      ∃ q priority, .start q priority ∈ later ∧ q.same p = true) ∧
    ∀ later earlier p priority, t.log = later ++ .start p priority :: earlier →
      priority = (pending p earlier).any id := by
  have hinv := h.inv
  refine ⟨fun p => (hinv.balanced p).le_one, hinv.waits,
    fun hidle later earlier p interactive hlog => ?_, hinv.starts⟩
  by_contra hnone
  have hmem := mem_pending hlog (Path.same_self p) fun r priority hr =>
    Bool.eq_false_iff.mpr fun hs => hnone ⟨r, priority, hr, hs⟩
  have hacc := hinv.balanced p
  rw [Balanced, (Tracker.isIdle_iff.mp hidle).1] at hacc
  rw [hacc.of_none] at hmem
  cases hmem

/-- Between the receipt of an entry and its start, the job is queued with nothing in a queue and
nothing being sent. -/
theorem received_entry_in_no_queue :
    let a : Path := ⟨"/a.cc"⟩
    ∃ t, Reachable t ∧ t.tracker.Queued a ∧ (∀ priority, t.queue priority = []) ∧ t.sends = [] ∧
      t.taken = [a] := by
  intro a
  have h₁ := Reachable.init.step (.request a true)
  have h₂ := h₁.step (@Step.send _ [] [] a true (by decide +kernel))
  have h₃ := h₂.step (@Step.receive _ true a [] (by decide +kernel))
  refine ⟨_, h₃, ⟨{ interactive := true }, ?_, rfl⟩, ?_, rfl, rfl⟩
  · decide +kernel
  · decide +kernel

/-- A background request is made interactive while its entry waits. The entry left behind is dropped
when the job is done. -/
theorem upgraded_request_started :
    let a : Path := ⟨"/a.cc"⟩
    ∃ t, Reachable t ∧ t.tracker.isIdle = true ∧
      t.log = [.start a true, .request a true, .request a false] ∧
      (∃ q priority, .start q priority ∈ [TrafficEvent.start a true] ∧ q.same a = true) ∧
      true = (pending a [.request a true, .request a false]).any id := by
  intro a
  have h₁ := Reachable.init.step (.request a false)
  have h₂ := h₁.step (.request a true)
  have h₃ := h₂.step (@Step.send _ [(a, true)] [] a false (by decide +kernel))
  have h₄ := h₃.step (@Step.send _ [] [] a true (by decide +kernel))
  have h₅ := h₄.step (@Step.receive _ true a [] (by decide +kernel))
  have h₆ := h₅.step (@Step.start _ [] [] a _ _ rfl (Option.some_get (by decide +kernel)).symm)
  have h₇ := h₆.step (@Step.complete _ [] [] a rfl)
  have h₈ := h₇.step (@Step.receive _ false a [] (by decide +kernel))
  have h₉ := h₈.step (@Step.discard _ [] [] a rfl (by decide +kernel))
  obtain ⟨_, _, hidle, hstarts⟩ := h₉.no_request_lost
  refine ⟨_, h₉, by decide +kernel, by decide +kernel, ?_, ?_⟩
  · exact hidle (by decide +kernel) [.start a true] [.request a false] a true (by decide +kernel)
  · exact hstarts [] _ a true (by decide +kernel)

end Traffic

end SymbolIndex
