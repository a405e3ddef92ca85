import SymbolIndex.Pipeline.Tracker

/-! Jobs under way. A job that a worker has taken up stays under way whatever is asked for, until it
is finished itself. -/

namespace SymbolIndex

open Std

namespace Tracker

def Running (t : Tracker) (p : Path) : Prop :=
  ∃ job, t.jobs.find? p = some job ∧ job.state ≠ .queued

variable {t t' : Tracker} {p q : Path}

theorem find?_put (t : Tracker) (p q : Path) (job : Job) :
    (t.put p job).jobs.find? q = if q.same p then some job else t.jobs.find? q := by
  rw [put, OrderedMap.find?_insert]
  simp only [Path.compare_eq_iff]

theorem find?_put_self (t : Tracker) (p : Path) (job : Job) :
    (t.put p job).jobs.find? p = some job := by
  rw [find?_put, if_pos (Path.same_self p)]

theorem find?_congr (t : Tracker) (h : p.same q = true) : t.jobs.find? p = t.jobs.find? q :=
  OrderedMap.find?_congr _ (Path.compare_eq_iff.mpr h)

theorem find?_put_same {job : Job} (h : t.jobs.find? p = some job) (q : Path) :
    (t.put p job).jobs.find? q = t.jobs.find? q := by
  rw [find?_put]
  split
  next hq => rw [find?_congr t hq, h]
  next => rfl

theorem Running.congr (h : t.Running p) (hpq : p.same q = true) : t.Running q := by
  rw [Running, ← find?_congr t hpq]
  exact h

theorem Running.put (h : t.Running q) {job : Job}
    (hj : q.same p = true → job.state ≠ .queued) : (t.put p job).Running q := by
  rw [Running, find?_put]
  split
  next hs => exact ⟨job, rfl, hj hs⟩
  next => exact h

theorem Running.accept (h : t.Running q) (p : Path) (interactive : Bool) :
    (t.accept p interactive).1.Running q := by
  rw [Tracker.accept]
  cases hf : t.jobs.find? p with
  | none =>
    refine h.put fun hs => ?_
    obtain ⟨job, hj, _⟩ := h.congr hs
    rw [hf] at hj
    cases hj
  | some job =>
    dsimp only
    split
    next hq =>
      refine h.put fun hs => ?_
      obtain ⟨job', hj, hn⟩ := h.congr hs
      rw [hf] at hj
      cases hj
      exact absurd hq hn
    next hq => exact h.put fun _ => hq

theorem removals_accept (t : Tracker) (p : Path) (interactive : Bool) :
    (t.accept p interactive).1.removals = t.removals := by
  rw [accept]
  split
  next => rfl
  next => split <;> rfl

theorem accept_accepted_iff (t : Tracker) (p : Path) (interactive : Bool) :
    (t.accept p interactive).2 = .accepted ↔ t.jobs.find? p = none := by
  rw [accept]
  cases t.jobs.find? p with
  | none => simp
  | some job =>
    dsimp only
    split <;> simp

theorem start_spec {interactive : Bool} (h : t.start p = some (t', interactive)) :
    ∃ job, t.jobs.find? p = some job ∧ job.state = .queued ∧ job.interactive = interactive ∧
      t' = t.put p { job with state := .parsing } := by
  rw [start] at h
  cases hf : t.jobs.find? p with
  | none =>
    rw [hf] at h
    cases h
  | some job =>
    rw [hf] at h
    dsimp only at h
    split at h
    next hq =>
      cases h
      exact ⟨job, rfl, hq, rfl, rfl⟩
    next => cases h

theorem start_eq_none_iff : t.start p = none ↔
    ∀ job, t.jobs.find? p = some job → job.state ≠ .queued := by
  rw [start]
  cases hf : t.jobs.find? p with
  | none => simp
  | some job => simp

theorem Running.start {interactive : Bool} (h : t.Running q)
    (hs : t.start p = some (t', interactive)) : t'.Running q ∧ p.same q = false := by
  obtain ⟨job, hf, hq, _, rfl⟩ := start_spec hs
  refine ⟨h.put fun _ => JobState.noConfusion, ?_⟩
  rw [Bool.eq_false_iff]
  intro hpq
  obtain ⟨job', hj, hn⟩ := h
  rw [← find?_congr t hpq, hf] at hj
  cases hj
  exact hn hq

theorem running_of_start {interactive : Bool} (hs : t.start p = some (t', interactive)) :
    t'.Running p := by
  obtain ⟨job, _, _, _, rfl⟩ := start_spec hs
  exact ⟨_, t.find?_put_self p _, JobState.noConfusion⟩

theorem isSome_find?_start {interactive : Bool} (hs : t.start p = some (t', interactive))
    (q : Path) : (t'.jobs.find? q).isSome = (t.jobs.find? q).isSome := by
  obtain ⟨job, hf, _, _, rfl⟩ := start_spec hs
  rw [find?_put]
  split
  next hq => rw [find?_congr t hq, hf]; rfl
  next => rfl

theorem Running.setState (h : t.Running q) (p : Path) {state : JobState} (hs : state ≠ .queued) :
    (t.setState p state).Running q := by
  rw [Tracker.setState]
  split
  next => exact h.put fun _ => hs
  next => exact h

theorem Running.finish (h : t.Running q) (hpq : p.same q = false) : (t.finish p).1.Running q := by
  have hqp : ¬ q.same p = true := by
    rw [Path.same_comm]
    exact Bool.eq_false_iff.mp hpq
  rw [Tracker.finish]
  split
  next job hj =>
    split
    next => exact h.put fun hs => absurd hs hqp
    next =>
      rw [Running, OrderedMap.find?_erase]
      simp only [Path.compare_eq_iff, hpq, Bool.false_eq_true, if_false]
      exact h
  next => exact h

theorem removals_setState (t : Tracker) (p : Path) (state : JobState) :
    (t.setState p state).removals = t.removals := by
  rw [setState]
  split <;> rfl

theorem removals_finish (t : Tracker) (p : Path) : (t.finish p).1.removals = t.removals := by
  rw [finish]
  split
  next => split <;> rfl
  next => rfl

/-- A job that no request joined is retired. -/
theorem finish_setState {job : Job} (hf : t.jobs.find? p = some job) (hr : job.rerun = false)
    (state : JobState) : ∃ t', (t.setState p state).finish p = (t', none) ∧
      t'.removals = t.removals ∧
      ∀ q, t'.jobs.find? q = if p.same q then none else t.jobs.find? q := by
  have hput : (t.put p { job with state }).jobs.find? p = some { job with state } :=
    t.find?_put_self p _
  rw [setState, hf]
  dsimp only
  rw [finish, hput]
  dsimp only
  rw [hr, if_neg Bool.false_ne_true]
  refine ⟨_, rfl, rfl, fun q => ?_⟩
  simp only [OrderedMap.find?_erase, Path.compare_eq_iff, find?_put]
  split
  next => rfl
  next hn => rw [if_neg (by rw [Path.same_comm]; exact hn)]

section Elsewhere

/-! A critical section for one path leaves the jobs of all others alone. -/

theorem find?_accept (h : q.same p = false) (interactive : Bool) :
    (t.accept p interactive).1.jobs.find? q = t.jobs.find? q := by
  rw [accept]
  split
  next => rw [find?_put, h]; rfl
  next => split <;> rw [find?_put, h] <;> rfl

theorem find?_start {interactive : Bool} (h : q.same p = false)
    (hs : t.start p = some (t', interactive)) : t'.jobs.find? q = t.jobs.find? q := by
  obtain ⟨_, _, _, _, rfl⟩ := start_spec hs
  rw [find?_put, h]
  rfl

theorem find?_setState (h : q.same p = false) (state : JobState) :
    (t.setState p state).jobs.find? q = t.jobs.find? q := by
  rw [setState]
  split
  next => rw [find?_put, h]; rfl
  next => rfl

theorem find?_finish (h : q.same p = false) :
    (t.finish p).1.jobs.find? q = t.jobs.find? q := by
  have hpq : ¬ p.same q = true := by rw [Path.same_comm, h]; exact Bool.false_ne_true
  rw [finish]
  split
  next =>
    split
    next => rw [find?_put, h]; rfl
    next =>
      dsimp only
      rw [OrderedMap.find?_erase, if_neg fun he => hpq (Path.compare_eq_iff.mp he)]
  next => rfl

end Elsewhere

section Besides

/-- The second tracker differs from the first at most in the job of a path. -/
structure AgreesOff (p : Path) (t t' : Tracker) : Prop where
  jobs : ∀ q, q.same p = false → t'.jobs.find? q = t.jobs.find? q
  removals : t'.removals = t.removals

theorem AgreesOff.refl (p : Path) (t : Tracker) : AgreesOff p t t := ⟨fun _ _ => rfl, rfl⟩

theorem AgreesOff.trans {t'' : Tracker} (h : AgreesOff p t t') (h' : AgreesOff p t' t'') :
    AgreesOff p t t'' :=
  ⟨fun q hq => (h'.jobs q hq).trans (h.jobs q hq), h'.removals.trans h.removals⟩

theorem agreesOff_accept (t : Tracker) (p : Path) (interactive : Bool) :
    AgreesOff p t (t.accept p interactive).1 :=
  ⟨fun _ hq => find?_accept hq interactive, t.removals_accept p interactive⟩

theorem agreesOff_start {interactive : Bool} (hs : t.start p = some (t', interactive)) :
    AgreesOff p t t' := by
  refine ⟨fun _ hq => find?_start hq hs, ?_⟩
  obtain ⟨_, _, _, _, rfl⟩ := start_spec hs
  rfl

theorem agreesOff_setState (t : Tracker) (p : Path) (state : JobState) :
    AgreesOff p t (t.setState p state) :=
  ⟨fun _ hq => find?_setState hq state, t.removals_setState p state⟩

theorem agreesOff_finish (t : Tracker) (p : Path) : AgreesOff p t (t.finish p).1 :=
  ⟨fun _ hq => find?_finish hq, t.removals_finish p⟩

theorem AgreesOff.put (h : AgreesOff p t t') (q : Path) (job : Job) :
    AgreesOff p (t.put q job) (t'.put q job) := by
  refine ⟨fun r hr => ?_, h.removals⟩
  rw [find?_put, find?_put, h.jobs r hr]

/-- A request for another path is answered alike. -/
theorem AgreesOff.accept (h : AgreesOff p t t') (hq : q.same p = false) (interactive : Bool) :
    AgreesOff p (t.accept q interactive).1 (t'.accept q interactive).1 ∧
      (t'.accept q interactive).2 = (t.accept q interactive).2 := by
  rw [Tracker.accept, Tracker.accept, h.jobs q hq]
  cases t.jobs.find? q with
  | none => exact ⟨h.put q _, rfl⟩
  | some job =>
    dsimp only
    split
    next => exact ⟨h.put q _, rfl⟩
    next => exact ⟨h.put q _, rfl⟩

/-- The job of another path ends alike. -/
theorem AgreesOff.finish (h : AgreesOff p t t') (hq : q.same p = false) :
    AgreesOff p (t.finish q).1 (t'.finish q).1 ∧ (t'.finish q).2 = (t.finish q).2 := by
  rw [Tracker.finish, Tracker.finish, h.jobs q hq]
  cases t.jobs.find? q with
  | none => exact ⟨h, rfl⟩
  | some job =>
    dsimp only
    split
    next => exact ⟨h.put q _, rfl⟩
    next =>
      refine ⟨⟨fun r hr => ?_, h.removals⟩, rfl⟩
      rw [OrderedMap.find?_erase, OrderedMap.find?_erase, h.jobs r hr]

end Besides

section Queued

def Queued (t : Tracker) (p : Path) : Prop :=
  ∃ job, t.jobs.find? p = some job ∧ job.state = .queued

theorem Queued.congr (h : t.Queued p) (hpq : p.same q = true) : t.Queued q := by
  rw [Queued, ← find?_congr t hpq]
  exact h

theorem Queued.of_find? (h : t'.Queued q) (hf : t'.jobs.find? q = t.jobs.find? q) : t.Queued q := by
  rw [Queued, ← hf]
  exact h

theorem queued_accept {interactive : Bool} (h : (t.accept p interactive).1.Queued q) :
    t.Queued q ∨ p.same q = true ∧ (t.accept p interactive).2 = .accepted := by
  cases hq : q.same p with
  | false => exact .inl (h.of_find? (find?_accept hq interactive))
  | true =>
    rw [Path.same_comm] at hq
    rw [accept] at h ⊢
    cases hf : t.jobs.find? p with
    | none => exact .inr ⟨hq, rfl⟩
    | some job =>
      left
      rw [hf] at h
      dsimp only at h
      split at h
      next hs => exact Queued.congr ⟨job, hf, hs⟩ hq
      next hs =>
        obtain ⟨job', hj, hs'⟩ := h
        rw [find?_put, Path.same_comm, hq] at hj
        cases hj
        exact absurd hs' hs

theorem queued_start {interactive : Bool} (hs : t.start p = some (t', interactive))
    (h : t'.Queued q) : t.Queued q ∧ p.same q = false := by
  cases hq : q.same p with
  | false => exact ⟨h.of_find? (find?_start hq hs), by rw [Path.same_comm, hq]⟩
  | true =>
    obtain ⟨job, _, _, _, rfl⟩ := start_spec hs
    obtain ⟨job', hj, hs'⟩ := h
    rw [find?_put, hq] at hj
    cases hj
    cases hs'

theorem queued_setState {state : JobState} (hs : state ≠ .queued)
    (h : (t.setState p state).Queued q) : t.Queued q := by
  cases hq : q.same p with
  | false => exact h.of_find? (find?_setState hq state)
  | true =>
    rw [setState] at h
    split at h
    next =>
      obtain ⟨job', hj, hs'⟩ := h
      rw [find?_put, hq] at hj
      cases hj
      exact absurd hs' hs
    next => exact h

/-- A job that is queued anew is given back with its priority. -/
theorem queued_finish (h : (t.finish p).1.Queued q) :
    t.Queued q ∨ p.same q = true ∧ ∃ interactive, (t.finish p).2 = some interactive := by
  cases hq : q.same p with
  | false => exact .inl (h.of_find? (find?_finish hq))
  | true =>
    have hpq : p.same q = true := by rwa [Path.same_comm]
    rw [finish] at h ⊢
    split at h
    next job hf =>
      split at h
      next hr => exact .inr ⟨hpq, _, by rw [if_pos hr]⟩
      next =>
        obtain ⟨job', hj, _⟩ := h
        dsimp only at hj
        rw [OrderedMap.find?_erase, if_pos (Path.compare_eq_iff.mpr hpq)] at hj
        cases hj
    next => exact .inl h

end Queued

section Owed

/-- The job of a path is to start, now or once more when it is done. -/
def Owed (t : Tracker) (p : Path) : Prop :=
  ∃ job, t.jobs.find? p = some job ∧ (job.state = .queued ∨ job.rerun = true)

theorem Owed.congr (h : t.Owed p) (hpq : p.same q = true) : t.Owed q := by
  rw [Owed, ← find?_congr t hpq]
  exact h

theorem Owed.of_find? (h : t.Owed q) (hf : t'.jobs.find? q = t.jobs.find? q) : t'.Owed q := by
  rw [Owed, hf]
  exact h

theorem owed_put (t : Tracker) (p : Path) {job : Job} (hj : job.state = .queued ∨ job.rerun = true) :
    (t.put p job).Owed p :=
  ⟨job, t.find?_put_self p job, hj⟩

theorem owed_accept (t : Tracker) (p : Path) (interactive : Bool) :
    (t.accept p interactive).1.Owed p := by
  rw [accept]
  split
  next => exact t.owed_put p (.inl rfl)
  next =>
    split
    next hs => exact t.owed_put p (.inl hs)
    next => exact t.owed_put p (.inr rfl)

theorem Owed.accept (h : t.Owed q) (p : Path) (interactive : Bool) :
    (t.accept p interactive).1.Owed q := by
  cases hq : q.same p with
  | false => exact h.of_find? (find?_accept hq interactive)
  | true =>
    rw [Path.same_comm] at hq
    exact (t.owed_accept p interactive).congr hq

theorem Owed.start {interactive : Bool} (h : t.Owed q) (hs : t.start p = some (t', interactive))
    (hq : p.same q = false) : t'.Owed q := by
  rw [Path.same_comm] at hq
  exact h.of_find? (find?_start hq hs)

/-- A running job that is owed is to run once more. -/
theorem Owed.rerun (h : t.Owed p) (hr : t.Running p) :
    ∃ job, t.jobs.find? p = some job ∧ job.rerun = true := by
  obtain ⟨job, hj, hs⟩ := h
  obtain ⟨job', hj', hn⟩ := hr
  cases hj.symm.trans hj'
  exact ⟨job, hj, hs.resolve_left hn⟩

theorem Owed.setState (h : t.Owed q) (hr : t.Running p) (state : JobState) :
    (t.setState p state).Owed q := by
  cases hq : q.same p with
  | false => exact h.of_find? (find?_setState hq state)
  | true =>
    obtain ⟨job, hj, hrerun⟩ := (h.congr hq).rerun hr
    have hput : (t.put p { job with state := state }).Owed p := t.owed_put p (.inr hrerun)
    rw [Path.same_comm] at hq
    rw [Tracker.setState, hj]
    exact hput.congr hq

theorem Owed.finish (h : t.Owed q) (hr : t.Running p) : (t.finish p).1.Owed q := by
  cases hq : q.same p with
  | false => exact h.of_find? (find?_finish hq)
  | true =>
    obtain ⟨job, hj, hrerun⟩ := (h.congr hq).rerun hr
    rw [Path.same_comm] at hq
    rw [Tracker.finish, hj]
    dsimp only
    rw [if_pos hrerun]
    exact (t.owed_put p (.inl rfl)).congr hq

end Owed

section Counting

/-- How many jobs are queued for the paths that pass a test. -/
def queuedAmong (t : Tracker) (P : Path → Bool) : Nat :=
  t.jobs.entries.countP fun e => P e.1 && e.2.state = .queued

variable {P : Path → Bool}

/-- The jobs left when the one of a path is dropped. -/
theorem queuedAmong_erase (hP : ∀ p q, p.same q = true → P p = P q) (t : Tracker) (p : Path) :
    { t with jobs := t.jobs.erase p }.queuedAmong P +
        ((t.jobs.find? p).any fun job => P p && job.state = .queued).toNat =
      t.queuedAmong P :=
  OrderedMap.countP_erase t.jobs p fun q _ hq => by rw [hP p q (Path.compare_eq_iff.mp hq)]

theorem queuedAmong_put (hP : ∀ p q, p.same q = true → P p = P q) (t : Tracker) (p : Path)
    (job : Job) :
    (t.put p job).queuedAmong P +
        ((t.jobs.find? p).any fun old => P p && old.state = .queued).toNat =
      t.queuedAmong P + (P p && job.state = .queued).toNat := by
  have hinsert : (t.put p job).queuedAmong P =
      { t with jobs := t.jobs.erase p }.queuedAmong P + (P p && job.state = .queued).toNat :=
    OrderedMap.countP_insert t.jobs p
      (fun q _ hq => by rw [hP p q (Path.compare_eq_iff.mp hq)]) job
  rw [hinsert, ← queuedAmong_erase hP t p]
  omega

theorem queuedAmong_accept (hP : ∀ p q, p.same q = true → P p = P q) (t : Tracker) (p : Path)
    (interactive : Bool) :
    (t.accept p interactive).1.queuedAmong P =
      t.queuedAmong P + ((t.accept p interactive).2 = .accepted && P p).toNat := by
  rw [accept]
  split
  next hf =>
    have hput := queuedAmong_put hP t p { interactive }
    rw [hf] at hput
    simpa using hput
  next job hf =>
    split
    next hq =>
      have hput := queuedAmong_put hP t p { job with interactive := job.interactive || interactive }
      rw [hf] at hput
      simpa [hq] using hput
    next hq =>
      have hput := queuedAmong_put hP t p
        { job with rerun := true, rerunInteractive := job.rerunInteractive || interactive }
      rw [hf] at hput
      simpa [hq] using hput

theorem queuedAmong_start (hP : ∀ p q, p.same q = true → P p = P q) {interactive : Bool}
    (hs : t.start p = some (t', interactive)) :
    t'.queuedAmong P + (P p).toNat = t.queuedAmong P := by
  obtain ⟨job, hf, hq, _, rfl⟩ := start_spec hs
  have hput := queuedAmong_put hP t p { job with state := .parsing }
  rw [hf] at hput
  simpa [hq] using hput

theorem queuedAmong_setState (hP : ∀ p q, p.same q = true → P p = P q) (h : t.Running p)
    {state : JobState} (hs : state ≠ .queued) :
    (t.setState p state).queuedAmong P = t.queuedAmong P := by
  obtain ⟨job, hf, hn⟩ := h
  have hput := queuedAmong_put hP t p { job with state }
  rw [hf] at hput
  rw [setState, hf]
  simpa [hn, hs] using hput

theorem queuedAmong_finish (hP : ∀ p q, p.same q = true → P p = P q) (h : t.Running p) :
    (t.finish p).1.queuedAmong P = t.queuedAmong P + ((t.finish p).2.isSome && P p).toNat := by
  obtain ⟨job, hf, hn⟩ := h
  rw [finish, hf]
  dsimp only
  split
  next =>
    have hput := queuedAmong_put hP t p { interactive := job.rerunInteractive }
    rw [hf] at hput
    simpa [hn] using hput
  next =>
    have herase := queuedAmong_erase hP t p
    rw [hf] at herase
    simpa [hn] using herase

theorem queued_of_queuedAmong (h : 0 < t.queuedAmong (·.same p)) : t.Queued p := by
  obtain ⟨e, he, hq⟩ := List.countP_pos_iff.mp h
  rw [Bool.and_eq_true, decide_eq_true_eq] at hq
  exact Queued.congr ⟨e.2, OrderedMap.find?_eq_some_of_mem he, hq.2⟩ hq.1

theorem queuedAmong_of_isIdle (h : t.isIdle = true) (P : Path → Bool) : t.queuedAmong P = 0 := by
  rw [isIdle, Bool.and_eq_true, OrderedMap.isEmpty, List.isEmpty_iff] at h
  rw [queuedAmong, h.1]
  rfl

end Counting

theorem isIdle_iff : t.isIdle = true ↔ (∀ p, t.jobs.find? p = none) ∧ t.removals = 0 := by
  rw [isIdle, Bool.and_eq_true, decide_eq_true_eq, OrderedMap.isEmpty_iff]

end Tracker

end SymbolIndex
