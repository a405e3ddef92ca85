import SymbolIndex.Proofs.Pipeline.Moves

/-! Requests are promises. From the request on there is a job for the file that is to start, or that the
worker has in hand; if the pipeline is idle after some moves, then the job was carried out in one of
them. -/

namespace SymbolIndex

namespace Pipeline

variable {σ : Type} {p : Pipeline σ} {q : Path}

/-- A job for the file is to start, or in hand. -/
def Promised (p : Pipeline σ) (q : Path) : Prop :=
  p.tracker.Owed q ∨ ∃ job, p.inHand = some job ∧ job.path.same q = true

theorem Promised.congr (h : p.Promised q) {p' : Pipeline σ} (ht : p'.tracker = p.tracker)
    (hh : p'.inHand = p.inHand) : p'.Promised q := by
  rw [Promised, ht, hh]
  exact h

theorem tracker_enqueue (p : Pipeline σ) (path : Path) (interactive : Bool) :
    (p.enqueue path interactive).1.inHand = p.inHand ∧ (p.enqueue path interactive).1.tracker =
      if p.filter.allows (p.normalize path) then
        (p.tracker.accept (p.normalize path) interactive).1
      else p.tracker := by
  rw [enqueue, PathFilter.allows]
  dsimp only
  cases p.filter.rejection? (p.normalize path) with
  | some pattern => exact ⟨rfl, rfl⟩
  | none =>
    cases p.tracker.accept (p.normalize path) interactive with
    | mk tracker admission =>
      cases admission with
      | accepted => cases interactive <;> exact ⟨rfl, rfl⟩
      | coalesced upgraded => cases upgraded <;> exact ⟨rfl, rfl⟩

theorem promised_enqueue {path : Path} (hf : p.filter.allows (p.normalize path) = true)
    (interactive : Bool) : (p.enqueue path interactive).1.Promised (p.normalize path) := by
  obtain ⟨-, ht⟩ := p.tracker_enqueue path interactive
  rw [if_pos hf] at ht
  left
  rw [ht]
  exact p.tracker.owed_accept _ _

theorem Promised.enqueue (h : p.Promised q) (path : Path) (interactive : Bool) :
    (p.enqueue path interactive).1.Promised q := by
  obtain ⟨hh, ht⟩ := p.tracker_enqueue path interactive
  rw [Promised, ht, hh]
  refine h.imp_left fun ho => ?_
  split
  next => exact ho.accept _ _
  next => exact ho

theorem Promised.enqueueAll (h : p.Promised q) (paths : List Path) (interactive : Bool)
    (counts : Enqueued → Bool) : (p.enqueueAll paths interactive counts).1.Promised q := by
  rw [enqueueAll_fst]
  induction paths generalizing p with
  | nil => exact h
  | cons path rest ih => exact ih (h.enqueue path interactive)

theorem Promised.notifyChanged (h : p.Promised q) (path : Path) :
    (p.notifyChanged path).1.Promised q := by
  let forgotten : Pipeline σ := { p with timestamps := p.timestamps.erase (p.normalize path) }
  have hforgotten : forgotten.Promised q := h
  exact hforgotten.enqueueAll _ _ _

theorem Promised.notifyRemoved (h : p.Promised q) (path : Path) :
    (p.notifyRemoved path).Promised q := h

theorem takeUpWithin_of_inHand {job : JobInHand} (h : p.inHand = some job) (fuel : Nat) :
    takeUpWithin fuel p = p := by
  cases fuel with
  | zero => rfl
  | succ fuel => rw [takeUpWithin, h]; rfl

theorem Promised.takeUp (h : p.Promised q) : p.takeUp.Promised q := by
  rw [Pipeline.takeUp]
  generalize p.interactive.length + p.background.length = fuel
  induction fuel generalizing p with
  | zero => exact h
  | succ fuel ih =>
    rw [takeUpWithin]
    split
    next => exact h
    next hh =>
      have hnone : p.inHand = none := Option.not_isSome_iff_eq_none.mp hh
      have ho : p.tracker.Owed q := by
        refine h.resolve_right ?_
        rintro ⟨job, hj, -⟩
        rw [hnone] at hj
        cases hj
      split
      next => exact h
      next p' path hr =>
        obtain ⟨-, _, _, rfl⟩ := receive?_spec hr
        rw [begin]
        split
        next => exact ih (.inl ho)
        next tracker interactive hs =>
          rw [takeUpWithin_of_inHand rfl]
          by_cases hq : path.same q = true
          · exact .inr ⟨_, rfl, hq⟩
          · exact .inl (ho.start hs (Bool.eq_false_iff.mpr hq))

theorem Promised.retire {m : MergeMessage} {outbox : List MergeMessage}
    (h : p.Orderly ∧ p.Promised q) (ho : p.outbox = m :: outbox) :
    Orderly (retire { p with outbox := outbox } m) ∧
      Promised (retire { p with outbox := outbox } m) q := by
  refine ⟨h.1.retire ho, ?_⟩
  cases m with
  | remove path => exact h.2
  | job outcome =>
    have hr : p.tracker.Running outcome.path :=
      h.1.running _ (by simp [underway, ho, outcomePath?])
    have hpromise : Promised { p with
        outbox := outbox, tracker := (p.tracker.finish outcome.path).1 } q :=
      h.2.imp_left fun howed => howed.finish hr
    rw [Pipeline.retire]
    split
    next tracker hf =>
      dsimp only at hf
      rw [hf] at hpromise
      exact hpromise
    next tracker interactive hf =>
      dsimp only at hf
      rw [hf] at hpromise
      obtain ⟨-, -, hh, -, ht⟩ := send_fields { p with outbox := outbox, tracker := tracker }
        outcome.path interactive
      exact hpromise.congr ht hh

theorem Promised.mergeFirst (h : p.Promised q) (ho : p.Orderly) (size : Nat) :
    (p.mergeFirst size).Promised q := by
  have hretire := foldl_retire_of (P := fun p => p.Orderly ∧ p.Promised q) Promised.retire ⟨ho, h⟩
    (List.take_append_drop size p.outbox).symm
  obtain ⟨_, _, _, _, _, _, _, -, hm, -⟩ := p.settled_mergeFirst size
  rw [hm]
  exact hretire.2

variable [Engine σ] {past : List Finding} {moves : List (Move σ)}

/-- A promise is kept until the worker carries the job out. -/
theorem Promised.act (h : p.Promised q) (ho : p.Orderly) {m : Move σ}
    (hm : m = .work → ∀ job, p.inHand = some job → job.path.same q = false) :
    (p.act m).Promised q := by
  cases m with
  | enqueue path interactive => exact h.enqueue path interactive
  | notifyChanged path => exact h.notifyChanged path
  | notifyRemoved path => exact h.notifyRemoved path
  | takeUp => exact h.takeUp
  | merge size => exact h.mergeFirst ho size
  | work =>
    cases hh : p.inHand with
    | none =>
      rw [Pipeline.act, work, hh]
      exact h
    | some job =>
      obtain ⟨_, _, -, _, _, _, hw, -⟩ := work_spec hh
      have hother := hm rfl job hh
      have hr : p.tracker.Running job.path := ho.running _ (by simp [underway, hh])
      have howed : p.tracker.Owed q := by
        refine h.resolve_right ?_
        rintro ⟨job', hj, hs⟩
        cases hh.symm.trans hj
        rw [hother] at hs
        cases hs
      left
      rw [Pipeline.act, hw]
      exact howed.setState hr _
  | _ => exact h

def actAll (p : Pipeline σ) (moves : List (Move σ)) : Pipeline σ := moves.foldl act p

def AllowsAll (past : List Finding) (p : Pipeline σ) : List (Move σ) → Prop
  | [] => True
  | m :: rest => p.Allows past m ∧ AllowsAll (past ++ p.found m) (p.act m) rest

theorem allowsAll_of_within (h : moves.all (·.within p.settings.mergeBatchSize) = true) :
    AllowsAll past p moves := by
  induction moves generalizing past p with
  | nil => trivial
  | cons m rest ih =>
    rw [List.all_cons, Bool.and_eq_true] at h
    have hm : p.Allows past m := by
      cases m with
      | merge size => simpa [Move.within, Allows] using h.1
      | disk d => cases h.1
      | _ => trivial
    refine ⟨hm, ih ?_⟩
    rw [(act_frame hm).2.1]
    exact h.2

/-- In one of the moves the worker carries out this job, in this state. -/
def CarriesOut (p : Pipeline σ) (moves : List (Move σ)) (t : Pipeline σ) (job : JobInHand) : Prop :=
  ∃ before after, moves = before ++ .work :: after ∧ p.actAll before = t ∧ t.inHand = some job

theorem carriesOut_nil {t : Pipeline σ} {job : JobInHand} : ¬ p.CarriesOut [] t job := by
  rintro ⟨before, after, h, -⟩
  cases before <;> cases h

theorem carriesOut_cons {m : Move σ} {t : Pipeline σ} {job : JobInHand} :
    p.CarriesOut (m :: moves) t job ↔
      m = .work ∧ p = t ∧ p.inHand = some job ∨ (p.act m).CarriesOut moves t job := by
  constructor
  · rintro ⟨_ | ⟨m', before⟩, after, h, hp, hj⟩
    · cases h
      cases hp
      exact .inl ⟨rfl, rfl, hj⟩
    · cases h
      exact .inr ⟨before, after, rfl, hp, hj⟩
  · rintro (⟨rfl, rfl, hj⟩ | ⟨before, after, rfl, hp, hj⟩)
    · exact ⟨[], moves, rfl, rfl, hj⟩
    · exact ⟨m :: before, after, rfl, hp, hj⟩

/-- The jobs that are carried out, each with the state before. -/
def jobsWithin (p : Pipeline σ) : List (Move σ) → List (Pipeline σ × JobInHand)
  | [] => []
  | .work :: rest => p.inHand.toList.map (p, ·) ++ jobsWithin p.work rest
  | m :: rest => jobsWithin (p.act m) rest

theorem CarriesOut.mem_jobsWithin {t : Pipeline σ} {job : JobInHand}
    (h : p.CarriesOut moves t job) : (t, job) ∈ p.jobsWithin moves := by
  induction moves generalizing p with
  | nil => exact absurd h carriesOut_nil
  | cons m rest ih =>
    rcases carriesOut_cons.mp h with ⟨rfl, rfl, hj⟩ | h
    · rw [jobsWithin, hj]
      exact List.mem_cons_self
    · have hrest := ih h
      cases m with
      | work => exact List.mem_append_right _ hrest
      | _ => exact hrest

/-- A run goes on through any moves that are allowed, up to the moves that come after them. -/
theorem Run.actAll {more : List (Move σ)} (h : Run past p) (hm : AllowsAll past p (moves ++ more)) :
    ∃ found, Run (past ++ found) (p.actAll moves) ∧
      AllowsAll (past ++ found) (p.actAll moves) more := by
  induction moves generalizing past p with
  | nil => exact ⟨[], by rwa [List.append_nil], by rwa [List.append_nil]⟩
  | cons m rest ih =>
    obtain ⟨found, hrun, hmore⟩ := ih (h.act m hm.1) hm.2
    rw [List.append_assoc] at hrun hmore
    exact ⟨_, hrun, hmore⟩

theorem actAll_append (p : Pipeline σ) (moves more : List (Move σ)) :
    p.actAll (moves ++ more) = (p.actAll moves).actAll more :=
  List.foldl_append

theorem actAll_frame {more : List (Move σ)} (hm : AllowsAll past p (moves ++ more)) :
    (p.actAll moves).filter = p.filter ∧ (p.actAll moves).disk.cwd = p.disk.cwd := by
  induction moves generalizing past p with
  | nil => exact ⟨rfl, rfl⟩
  | cons m rest ih =>
    obtain ⟨hfilter, -, hcwd⟩ := act_frame hm.1
    obtain ⟨hfilter', hcwd'⟩ := ih hm.2
    exact ⟨hfilter'.trans hfilter, hcwd'.trans hcwd⟩

/-- A job is carried out in a state of the run, and the other moves follow. -/
theorem Run.carriesOut (h : Run past p) (hm : AllowsAll past p moves) {t : Pipeline σ}
    {job : JobInHand} (hc : p.CarriesOut moves t job) :
    ∃ found later, Run (past ++ found) t ∧ AllowsAll (past ++ found) t (.work :: later) ∧
      p.actAll moves = t.actAll (.work :: later) ∧ t.disk.cwd = p.disk.cwd ∧ later ⊆ moves := by
  obtain ⟨before, later, rfl, rfl, -⟩ := hc
  obtain ⟨found, hrun, hmore⟩ := h.actAll hm
  refine ⟨found, later, hrun, hmore, p.actAll_append before (.work :: later), (actAll_frame hm).2, ?_⟩
  exact fun m hm => List.mem_append_right _ (List.mem_cons_of_mem _ hm)

/-- What is promised has been carried out once the pipeline is idle. -/
theorem Run.carried_out (h : Run past p) (hm : AllowsAll past p moves) (hp : p.Promised q)
    (hi : (p.actAll moves).isIdle = true) :
    ∃ t job, p.CarriesOut moves t job ∧ job.path.same q = true := by
  induction moves generalizing past p with
  | nil =>
    obtain ⟨hhand, -, hjobs⟩ := h.orderly.idle hi
    rcases hp with ⟨job, hj, -⟩ | ⟨job, hj, -⟩
    · cases (hjobs q).symm.trans hj
    · cases hhand.symm.trans hj
  | cons m rest ih =>
    by_cases hnow : m = .work ∧ ∃ job, p.inHand = some job ∧ job.path.same q = true
    · obtain ⟨rfl, job, hj, hs⟩ := hnow
      exact ⟨p, job, carriesOut_cons.mpr (.inl ⟨rfl, rfl, hj⟩), hs⟩
    · have hkept : (p.act m).Promised q := by
        refine hp.act h.orderly fun hw job hj => ?_
        rw [Bool.eq_false_iff]
        exact fun hs => hnow ⟨hw, job, hj, hs⟩
      obtain ⟨t, job, hc, hs⟩ := ih (h.act m hm.1) hm.2 hkept hi
      exact ⟨t, job, carriesOut_cons.mpr (.inr hc), hs⟩

/-- A request that the filter lets through has been carried out once the pipeline is idle. -/
theorem Run.request_carried_out (h : Run past p) {path : Path} {interactive : Bool}
    (hf : p.filter.allows (p.normalize path) = true)
    (hm : AllowsAll past p (.enqueue path interactive :: moves))
    (hi : (p.actAll (.enqueue path interactive :: moves)).isIdle = true) :
    ∃ t job, (p.enqueue path interactive).1.CarriesOut moves t job ∧ job.path = p.normalize path := by
  have hasked := h.act _ hm.1
  obtain ⟨t, job, hc, hs⟩ := hasked.carried_out hm.2 (promised_enqueue hf interactive) hi
  obtain ⟨_, _, hrun, -, -, hcwd, -⟩ := hasked.carriesOut hm.2 hc
  obtain ⟨_, _, -, -, hj⟩ := id hc
  have hspelled := hrun.spelled job.path (by simp [underway, hj])
  rw [hcwd, (act_frame hm.1).2.2] at hspelled
  have hd : p.disk.cwd.isAbsolute = true := h.orderly.cwd
  exact ⟨t, job, hc, hspelled.eq_of_same hd (Path.canonical_normalize hd path) hs⟩

end Pipeline

end SymbolIndex
