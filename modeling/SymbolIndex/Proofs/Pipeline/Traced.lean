import SymbolIndex.Proofs.Pipeline.Traffic

/-! The traffic of a pipeline. It sends an entry as soon as a request is admitted and looks one up as
soon as it is received, so all that it does to its jobs is made of steps, and what holds of the steps in
every order holds of every reachable pipeline. -/

namespace SymbolIndex

namespace Pipeline

open Relation Traffic

variable {σ : Type} {p p' : Pipeline σ} {path : Path} {running : List Path} {log : List TrafficEvent}

def traffic (p : Pipeline σ) (running : List Path) (log : List TrafficEvent) : Traffic where
  tracker := p.tracker
  queue priority := if priority then p.interactive else p.background
  running := running
  log := log

theorem traffic_send (p : Pipeline σ) (path : Path) (priority : Bool) :
    (p.send path priority).traffic running log = { p.traffic running log with
      queue := Function.update (p.traffic running log).queue priority
        ((p.traffic running log).queue priority ++ [path]) } := by
  have hqueue : ((p.send path priority).traffic running log).queue =
      Function.update (p.traffic running log).queue priority
        ((p.traffic running log).queue priority ++ [path]) := by
    funext other
    cases priority <;> cases other <;> simp [traffic, send]
  rw [← hqueue, send]
  split <;> rfl

theorem step_send (p : Pipeline σ) (path : Path) (priority : Bool) :
    Traffic.Step { p.traffic running log with sends := [(path, priority)] }
      ((p.send path priority).traffic running log) := by
  rw [traffic_send]
  exact @Traffic.Step.send { p.traffic running log with sends := [(path, priority)] } [] [] path
    priority rfl

theorem steps_enqueue (h : (p.filter.rejection? (p.normalize path)).isSome = false)
    (interactive : Bool) :
    ReflTransGen Traffic.Step (p.traffic running log) ((p.enqueue path interactive).1.traffic running
      (.request (p.normalize path) interactive :: log)) := by
  have hrequest := @Traffic.Step.request (p.traffic running log) (p.normalize path) interactive
  rw [enqueue]
  dsimp only
  rw [if_neg (by simp [h])]
  generalize p.normalize path = path at hrequest ⊢
  rw [show (p.traffic running log).tracker = p.tracker from rfl] at hrequest
  cases ha : p.tracker.accept path interactive with
  | mk tracker admission =>
    rw [ha] at hrequest
    cases admission with
    | accepted =>
      exact (ReflTransGen.single hrequest).tail
        (step_send { p with tracker, counters := p.counters.jobQueued } path interactive)
    | coalesced upgraded =>
      cases upgraded with
      | false => exact .single hrequest
      | true =>
        exact (ReflTransGen.single hrequest).tail
          (step_send { p with tracker, counters := p.counters.requestCoalesced } path true)

theorem steps_begin (h : p.receive? = some (p', path)) :
    ReflTransGen Traffic.Step (p.traffic running log) ((p'.begin path).traffic
      (running ++ (p.tracker.start path).toList.map fun _ => path)
      ((p.tracker.start path).toList.map (fun s => .start path s.2) ++ log)) := by
  have hreceive : Traffic.Step (p.traffic running log)
      { p'.traffic running log with taken := [path] } := by
    rw [receive?] at h
    split at h
    next rest hi =>
      cases h
      have hr := @Traffic.Step.receive (p.traffic running log) true path rest hi
      have hqueue : Function.update (p.traffic running log).queue true rest =
          (traffic { p with interactive := rest } running log).queue := by
        funext priority
        cases priority <;> simp [traffic]
      rw [hqueue] at hr
      exact hr
    next rest hi hb =>
      cases h
      have hr := @Traffic.Step.receive (p.traffic running log) false path rest hb
      have hqueue : Function.update (p.traffic running log).queue false rest =
          (traffic { p with background := rest } running log).queue := by
        funext priority
        cases priority <;> simp [traffic]
      rw [hqueue] at hr
      exact hr
    next => cases h
  have htracker : p'.tracker = p.tracker := by
    obtain ⟨_, _, _, rfl⟩ := receive?_spec h
    rfl
  rw [← htracker, begin]
  cases hs : p'.tracker.start path with
  | none =>
    have hdiscard := @Traffic.Step.discard { p'.traffic running log with taken := [path] } [] [] path
      rfl hs
    rw [Option.toList_none, List.map_nil, List.map_nil, List.append_nil, List.nil_append]
    exact (ReflTransGen.single hreceive).tail hdiscard
  | some started =>
    have hstart := @Traffic.Step.start { p'.traffic running log with taken := [path] } [] [] path
      started.1 started.2 rfl hs
    exact (ReflTransGen.single hreceive).tail hstart

theorem steps_complete {before after : List Path} :
    ReflTransGen Traffic.Step (p.traffic (before ++ path :: after) log)
      ((p.complete path).traffic (before ++ after) log) := by
  have hcomplete := @Traffic.Step.complete (p.traffic (before ++ path :: after) log) before after path
    rfl
  rw [show (p.traffic (before ++ path :: after) log).tracker = p.tracker from rfl] at hcomplete
  rw [complete]
  cases hf : p.tracker.finish path with
  | mk tracker again =>
    rw [hf] at hcomplete
    cases again with
    | none => exact .single hcomplete
    | some priority =>
      exact (ReflTransGen.single hcomplete).tail
        (step_send { p with tracker, counters := p.counters.jobQueued } path priority)

def Traced (p : Pipeline σ) : Prop :=
  ∃ running log, Traffic.Reachable (p.traffic running log) ∧ running.Perm p.underway

theorem Settled.traffic_eq {a b : Pipeline σ} (h : a.Settled b) :
    b.traffic running log = a.traffic running log := by
  obtain ⟨_, _, _, _, _, _, _, _, rfl, _⟩ := h
  rfl

theorem enqueue_fields (p : Pipeline σ) (path : Path) (interactive : Bool) :
    (p.enqueue path interactive).1.inHand = p.inHand ∧
      (p.enqueue path interactive).1.outbox = p.outbox := by
  rw [enqueue]
  dsimp only
  split
  next => exact ⟨rfl, rfl⟩
  next =>
    split
    next => cases interactive <;> exact ⟨rfl, rfl⟩
    next =>
      dsimp only
      split <;> exact ⟨rfl, rfl⟩

theorem Traced.enqueue (h : p.Traced) (path : Path) (interactive : Bool) :
    (p.enqueue path interactive).1.Traced := by
  obtain ⟨running, log, hr, hperm⟩ := h
  have hunder : (p.enqueue path interactive).1.underway = p.underway := by
    obtain ⟨hhand, hout⟩ := p.enqueue_fields path interactive
    rw [underway, underway, hhand, hout]
  cases hf : (p.filter.rejection? (p.normalize path)).isSome with
  | true =>
    refine ⟨running, log, ?_, hunder ▸ hperm⟩
    rw [Pipeline.enqueue]
    dsimp only
    rw [if_pos hf]
    exact hr
  | false => exact ⟨running, _, hr.steps (steps_enqueue hf interactive), hunder ▸ hperm⟩

theorem Traced.enqueueAll (h : p.Traced) (paths : List Path) (interactive : Bool)
    (counts : Enqueued → Bool) : (p.enqueueAll paths interactive counts).1.Traced := by
  rw [enqueueAll_fst]
  induction paths generalizing p with
  | nil => exact h
  | cons path rest ih => exact ih (h.enqueue path interactive)

theorem Traced.notifyRemoved (h : p.Traced) (path : Path) : (p.notifyRemoved path).Traced := by
  obtain ⟨running, log, hr, hperm⟩ := h
  have hunder : (p.notifyRemoved path).underway = p.underway := by
    simp [underway, Pipeline.notifyRemoved, outcomePath?, List.filterMap_cons]
  exact ⟨running, log, hr.step .beginRemoval, hunder ▸ hperm⟩

theorem Traced.takeUpWithin (h : p.Traced) (fuel : Nat) : (Pipeline.takeUpWithin fuel p).Traced := by
  induction fuel generalizing p with
  | zero => exact h
  | succ fuel ih =>
    rw [Pipeline.takeUpWithin]
    split
    next => exact h
    next hh =>
      split
      next => exact h
      next p' path hrec =>
        obtain ⟨running, log, hr, hperm⟩ := h
        obtain ⟨_, _, _, rfl⟩ := receive?_spec hrec
        refine ih ⟨_, _, hr.steps (steps_begin hrec), ?_⟩
        have hnone : p.inHand = none := Option.not_isSome_iff_eq_none.mp hh
        rw [underway, hnone] at hperm
        rw [Pipeline.begin]
        dsimp only
        cases hs : p.tracker.start path with
        | none =>
          rw [underway]
          dsimp only
          rw [hnone, Option.toList_none, List.map_nil, List.append_nil]
          exact hperm
        | some started =>
          exact (hperm.append_right [path]).trans (List.perm_append_singleton _ _)

/-- The job of a message is one of the runs, and the message retires it. -/
theorem Traced.retire {m : MergeMessage} {outbox : List MergeMessage} (h : p.Traced)
    (hout : p.outbox = m :: outbox) : Traced (Pipeline.retire { p with outbox := outbox } m) := by
  obtain ⟨running, log, hr, hperm⟩ := h
  cases m with
  | remove path =>
    rw [underway, hout] at hperm
    exact ⟨running, log, hr.step .endRemoval, hperm⟩
  | job outcome =>
    have hunder : p.underway = (p.inHand.map (·.path)).toList ++
        outcome.path :: outbox.filterMap outcomePath? := by
      rw [underway, hout]
      rfl
    rw [hunder] at hperm
    have hmem : outcome.path ∈ running := hperm.mem_iff.mpr (by simp)
    obtain ⟨before, after, rfl⟩ := List.append_of_mem hmem
    have hsteps := @steps_complete σ { p with outbox := outbox } outcome.path log before after
    have hsettled := settled_complete { p with outbox := outbox } outcome
    rw [hsettled.traffic_eq] at hsteps
    refine ⟨before ++ after, log, hr.steps hsteps, ?_⟩
    have hrest := (List.perm_middle.symm.trans hperm).trans List.perm_middle
    obtain ⟨_, _, _, hretire⟩ := foldl_retire_spec { p with outbox := outbox } [.job outcome]
    rw [List.foldl_cons, List.foldl_nil] at hretire
    rw [underway, hretire]
    exact hrest.cons_inv

theorem Traced.settled {a b : Pipeline σ} (h : a.Traced) (hs : a.Settled b) : b.Traced := by
  obtain ⟨running, log, hr, hperm⟩ := h
  refine ⟨running, log, hs.traffic_eq ▸ hr, ?_⟩
  obtain ⟨_, _, _, _, _, _, _, _, rfl, _⟩ := hs
  exact hperm

theorem Traced.mergeFirst (h : p.Traced) (size : Nat) : (p.mergeFirst size).Traced :=
  (foldl_retire_of Traced.retire h (List.take_append_drop _ _).symm).settled
    (p.settled_mergeFirst size)

variable [Engine σ]

theorem Traced.work (h : p.Traced) : p.work.Traced := by
  cases hh : p.inHand with
  | none =>
    rw [Pipeline.work, hh]
    exact h
  | some job =>
    obtain ⟨running, log, hr, hperm⟩ := h
    obtain ⟨engine, outcome, hpath, _, _, _, hw, _⟩ := work_spec hh
    have hold : p.underway = job.path :: p.outbox.filterMap outcomePath? := by
      rw [underway, hh]
      rfl
    rw [hold] at hperm
    have hmem : job.path ∈ running := hperm.mem_iff.mpr List.mem_cons_self
    have hstep := @Traffic.Step.advance (p.traffic running log) job.path hmem .mergeQueued
      JobState.noConfusion
    rw [hw]
    refine ⟨running, log, hr.step hstep, ?_⟩
    have hnew : (p.outbox ++ [MergeMessage.job outcome]).filterMap outcomePath? =
        p.outbox.filterMap outcomePath? ++ [job.path] := by
      rw [List.filterMap_append, ← hpath]
      rfl
    rw [underway]
    dsimp only
    rw [hnew]
    exact hperm.trans (List.perm_append_singleton _ _).symm

theorem Traced.act (h : p.Traced) (m : Move σ) : (p.act m).Traced := by
  cases m with
  | enqueue path interactive => exact h.enqueue path interactive
  | notifyChanged path =>
    let forgotten : Pipeline σ := { p with timestamps := p.timestamps.erase (p.normalize path) }
    have hforgotten : forgotten.Traced := h
    exact hforgotten.enqueueAll _ _ _
  | notifyRemoved path => exact h.notifyRemoved path
  | takeUp => exact h.takeUpWithin _
  | work => exact h.work
  | merge size => exact h.mergeFirst size
  | _ => exact h

/-- Whatever happens to a pipeline, its jobs are where steps of the traffic lead. -/
theorem Reachable.traced (h : p.Reachable) : p.Traced := by
  induction h with
  | @new _ _ _ _ _ p hd h =>
    obtain ⟨_, hp⟩ := new_eq h
    have hqueue : p.traffic [] [] = {} := by
      rw [hp, traffic]
      congr 1
      funext priority
      cases priority <;> rfl
    refine ⟨[], [], ?_, ?_⟩
    · rw [hqueue]
      exact .init
    · rw [hp]
      exact .refl _
  | act _ m _ ih => exact ih.act m

end Pipeline

end SymbolIndex
