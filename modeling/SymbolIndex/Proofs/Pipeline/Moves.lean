import SymbolIndex.Proofs.Cache.Attested
import SymbolIndex.Proofs.Pipeline.Replica
import SymbolIndex.Proofs.Pipeline.Turns

/-! Runs as sequences of moves. Beside the state goes what the engine has found so far, so that what
is read back from the cache directory can be traced to it. -/

namespace SymbolIndex

/-- A record of the engine, with the directory and the arguments that it was made with, and what
editors held meanwhile. -/
structure Finding where
  record : Record
  dir : Path
  args : List String
  buffers : Buffers

def Finding.snapshot (x : Finding) : Snapshot := (x.record.entry x.dir x.args).payload

/-- The snapshot was extracted while no editor held its file. -/
def Extracted (past : List Finding) (s : Snapshot) : Prop :=
  ∃ x ∈ past, x.snapshot = s ∧ x.buffers.contains s.path = false

theorem Extracted.append {past : List Finding} {s : Snapshot} (h : Extracted past s)
    (more : List Finding) : Extracted (past ++ more) s := by
  obtain ⟨x, hx, hs⟩ := h
  exact ⟨x, List.mem_append_left _ hx, hs⟩

/-- A move that leaves alone what is known about files, except that a time may be forgotten. -/
def Move.quiet {σ : Type} : Move σ → Bool
  | .notifyRemoved _ | .work | .merge _ | .disk _ => false
  | _ => true

/-- A move of which nothing is asked but that it merges at least one message and not too many. -/
def Move.within {σ : Type} (batch : Nat) : Move σ → Bool
  | .merge size => 0 < size && size ≤ batch
  | .disk _ => false
  | _ => true

namespace Pipeline

variable {σ : Type}

/-- The second pipeline knows the same about files, except that it may have forgotten times. -/
structure SameFiles (a b : Pipeline σ) : Prop where
  settings : b.settings = a.settings
  filter : b.filter = a.filter
  disk : b.disk = a.disk
  snapshots : b.snapshots = a.snapshots
  ownership : b.ownership = a.ownership
  db : b.db = a.db
  outbox : b.outbox = a.outbox
  times : ∀ q t, b.timestamps.find? q = some t → a.timestamps.find? q = some t

theorem SameFiles.refl (p : Pipeline σ) : p.SameFiles p :=
  ⟨rfl, rfl, rfl, rfl, rfl, rfl, rfl, fun _ _ h => h⟩

theorem SameFiles.trans {a b c : Pipeline σ} (h : a.SameFiles b) (h' : b.SameFiles c) :
    a.SameFiles c :=
  ⟨h'.settings.trans h.settings, h'.filter.trans h.filter, h'.disk.trans h.disk,
    h'.snapshots.trans h.snapshots, h'.ownership.trans h.ownership, h'.db.trans h.db,
    h'.outbox.trans h.outbox, fun q t ht => h.times q t (h'.times q t ht)⟩

/-- A request changes the jobs, and at most its own path comes into a queue. -/
theorem enqueue_spec (p : Pipeline σ) (path : Path) (interactive : Bool) :
    ∃ tracker counters fore back, (p.enqueue path interactive).1 = { p with
        tracker := tracker
        counters := counters
        interactive := fore
        background := back } ∧
      ∀ q ∈ fore ++ back, q ∈ p.queue ∨ q = p.normalize path := by
  have hqueue : ∀ q ∈ p.interactive ++ p.background, q ∈ p.queue ∨ q = p.normalize path :=
    fun q hq => .inl hq
  have hfore : ∀ q ∈ (p.interactive ++ [p.normalize path]) ++ p.background,
      q ∈ p.queue ∨ q = p.normalize path := by
    intro q hq
    simp only [List.mem_append, List.mem_singleton, queue] at hq ⊢
    grind
  have hback : ∀ q ∈ p.interactive ++ (p.background ++ [p.normalize path]),
      q ∈ p.queue ∨ q = p.normalize path := by
    intro q hq
    simp only [List.mem_append, List.mem_singleton, queue] at hq ⊢
    grind
  rw [enqueue]
  dsimp only
  split
  next => exact ⟨_, _, _, _, rfl, hqueue⟩
  next =>
    split
    next => cases interactive with
      | true => exact ⟨_, _, _, _, rfl, hfore⟩
      | false => exact ⟨_, _, _, _, rfl, hback⟩
    next upgraded _ => cases upgraded with
      | true => exact ⟨_, _, _, _, rfl, hfore⟩
      | false => exact ⟨_, _, _, _, rfl, hqueue⟩

theorem sameFiles_enqueue (p : Pipeline σ) (path : Path) (interactive : Bool) :
    p.SameFiles (p.enqueue path interactive).1 := by
  obtain ⟨_, _, _, _, he, -⟩ := p.enqueue_spec path interactive
  rw [he]
  exact ⟨rfl, rfl, rfl, rfl, rfl, rfl, rfl, fun _ _ h => h⟩

theorem sameFiles_enqueueAll (p : Pipeline σ) (paths : List Path) (interactive : Bool)
    (counts : Enqueued → Bool) : p.SameFiles (p.enqueueAll paths interactive counts).1 := by
  rw [enqueueAll_fst]
  induction paths generalizing p with
  | nil => exact .refl p
  | cons path rest ih => exact (p.sameFiles_enqueue path interactive).trans (ih _)

theorem sameFiles_notifyChanged (p : Pipeline σ) (path : Path) :
    p.SameFiles (p.notifyChanged path).1 := by
  refine SameFiles.trans (b := { p with
    timestamps := p.timestamps.erase (p.normalize path) }) ?_ (sameFiles_enqueueAll _ _ _ _)
  refine ⟨rfl, rfl, rfl, rfl, rfl, rfl, rfl, fun q t ht => ?_⟩
  rw [OrderedMap.find?_erase] at ht
  split at ht
  next => cases ht
  next => exact ht

theorem takeUp_spec (p : Pipeline σ) :
    ∃ tracker fore back counters inHand, ∃ started : List Path, p.takeUp = { p with
      tracker := tracker
      interactive := fore
      background := back
      counters := counters
      inHand := inHand
      journal := started.map .job ++ p.journal } := by
  obtain ⟨_, _, _, _, _, _, hs, -⟩ :=
    takeUpWithin_spec (p.interactive.length + p.background.length) p
  exact ⟨_, _, _, _, _, _, hs⟩

theorem sameFiles_takeUp (p : Pipeline σ) : p.SameFiles p.takeUp := by
  obtain ⟨_, _, _, _, _, _, hs⟩ := p.takeUp_spec
  rw [hs]
  exact ⟨rfl, rfl, rfl, rfl, rfl, rfl, rfl, fun _ _ h => h⟩

variable [Engine σ]

/-- What the engine reports when a job is carried out, if it is called at all. -/
def reported (p : Pipeline σ) (path : Path) (interactive : Bool) : List Finding :=
  let args := p.project.argsFor path
  if p.due path interactive then
    match (Engine.extract p.engine p.disk path args p.unsaved).2 with
    | .records records => records.map (⟨·, p.disk.cwd, args, p.unsaved⟩)
    | .failed _ | .crashed _ => []
  else []

theorem dir_of_reported {p : Pipeline σ} {path : Path} {interactive : Bool} {x : Finding}
    (hx : x ∈ p.reported path interactive) : x.dir = p.disk.cwd := by
  rw [reported] at hx
  split at hx
  next =>
    split at hx
    next records _ =>
      obtain ⟨r, -, rfl⟩ := List.mem_map.mp hx
      rfl
    next => cases hx
    next => cases hx
  next => cases hx

/-- What a move adds to the past. -/
def found (p : Pipeline σ) : Move σ → List Finding
  | .work => p.inHand.elim [] fun job => p.reported job.path job.interactive
  | _ => []

/-- The merger takes at least one message and at most a batch. Outside, files change in any way, but
nothing is written to the cache directory that could be read back, unless the engine has found it. -/
def Allows (p : Pipeline σ) (past : List Finding) : Move σ → Prop
  | .merge size => 0 < size ∧ size ≤ p.settings.mergeBatchSize
  | .disk d => d.cwd = p.disk.cwd ∧ p.snapshots.store.Attests (Extracted past) d
  | _ => True

/-- A state of a run, with all that the engine has found in this run and in earlier ones whose entries
may still be in the cache directory. -/
inductive Run : List Finding → Pipeline σ → Prop
  | new {past : List Finding} {disk : Disk} {engine : σ} {config : Config} {root : Path}
    {project : Project} {p : Pipeline σ} (hpast : ∀ x ∈ past, x.dir.isAbsolute = true)
    (hd : disk.cwd.isAbsolute = true)
    (h : Pipeline.new disk engine config root project = .ok p)
    (hc : p.snapshots.store.Attests (Extracted past) disk) : Run past p
  | act {past : List Finding} {p : Pipeline σ} (h : Run past p) (m : Move σ)
    (hm : p.Allows past m) : Run (past ++ p.found m) (p.act m)

theorem sameFiles_act (p : Pipeline σ) {m : Move σ} (hm : m.quiet = true) :
    p.SameFiles (p.act m) := by
  cases m with
  | enqueue path interactive => exact p.sameFiles_enqueue path interactive
  | notifyChanged path => exact p.sameFiles_notifyChanged path
  | setUnsaved path text => exact ⟨rfl, rfl, rfl, rfl, rfl, rfl, rfl, fun _ _ h => h⟩
  | clearUnsaved path => exact ⟨rfl, rfl, rfl, rfl, rfl, rfl, rfl, fun _ _ h => h⟩
  | readJournal => exact ⟨rfl, rfl, rfl, rfl, rfl, rfl, rfl, fun _ _ h => h⟩
  | takeUp => exact p.sameFiles_takeUp
  | engine e => exact ⟨rfl, rfl, rfl, rfl, rfl, rfl, rfl, fun _ _ h => h⟩
  | notifyRemoved path => cases hm
  | work => cases hm
  | merge size => cases hm
  | disk d => cases hm

/-- The filter, the settings and the working directory do not change in a run. -/
theorem act_frame {p : Pipeline σ} {past : List Finding} {m : Move σ} (hm : p.Allows past m) :
    (p.act m).filter = p.filter ∧ (p.act m).settings = p.settings ∧
      (p.act m).disk.cwd = p.disk.cwd := by
  by_cases hq : m.quiet = true
  · have hs := p.sameFiles_act hq
    exact ⟨hs.filter, hs.settings, by rw [hs.disk]⟩
  · cases m with
    | notifyRemoved path => exact ⟨rfl, rfl, rfl⟩
    | work =>
      cases hh : p.inHand with
      | none =>
        rw [act, work, hh]
        exact ⟨rfl, rfl, rfl⟩
      | some job =>
        obtain ⟨_, _, -, _, _, _, hw, -⟩ := work_spec hh
        rw [act, hw]
        exact ⟨rfl, rfl, rfl⟩
    | merge size =>
      obtain ⟨-, hf, -, hd, hs⟩ := p.mergeFirst_frame size
      exact ⟨hf, hs, hd⟩
    | disk d => exact ⟨rfl, rfl, hm.1⟩
    | _ => exact absurd rfl hq

variable {past : List Finding} {p : Pipeline σ}

omit [Engine σ] in
theorem Allows.admits {m : Move σ} (hm : p.Allows past m) : p.Admits m := by
  cases m with
  | merge size => exact hm
  | disk d => exact hm.1
  | _ => trivial

/-- A run is one way to reach a state; beside the state it keeps what the engine has found. -/
theorem Run.reachable (h : Run past p) : p.Reachable := by
  induction h with
  | new _ hd h _ => exact .new hd h
  | act _ m hm ih => exact ih.act m hm.admits

theorem Run.orderly (h : Run past p) : p.Orderly := h.reachable.orderly

theorem Run.absolute (h : Run past p) : ∀ x ∈ past, x.dir.isAbsolute = true := by
  induction h with
  | new hpast _ _ _ => exact hpast
  | act h m hm ih =>
    intro x hx
    rcases List.mem_append.mp hx with hx | hx
    · exact ih x hx
    · cases m with
      | work =>
        have hd := h.orderly.cwd
        rw [found] at hx
        cases hh : Pipeline.inHand _ with
        | none =>
          rw [hh] at hx
          cases hx
        | some job =>
          rw [hh] at hx
          rwa [dir_of_reported hx]
      | _ => cases hx

theorem Run.move (h : Run past p) (m : Move σ) (hm : p.Allows past m) (hf : p.found m = []) :
    Run past (p.act m) := by
  have hstep := h.act m hm
  rwa [hf, List.append_nil] at hstep

theorem Run.enqueueAll (h : Run past p) (paths : List Path) (interactive : Bool)
    (counts : Enqueued → Bool) : Run past (p.enqueueAll paths interactive counts).1 := by
  rw [enqueueAll_fst]
  induction paths generalizing p with
  | nil => exact h
  | cons path rest ih => exact ih (h.move (.enqueue path interactive) trivial rfl)

theorem Run.takeUp (h : Run past p) : Run past p.takeUp := h.move .takeUp trivial rfl

theorem Run.work (h : Run past p) : Run (past ++ p.found .work) p.work := h.act .work trivial

theorem Run.flush (h : Run past p) : Run past p.flush ∧ p.flush.outbox = [] := by
  rw [Pipeline.flush]
  generalize hf : p.outbox.length = fuel
  replace hf : p.outbox.length ≤ fuel := Nat.le_of_eq hf
  induction fuel generalizing p with
  | zero =>
    have hnil : p.outbox = [] := List.eq_nil_of_length_eq_zero (by omega)
    exact ⟨h, hnil⟩
  | succ fuel ih =>
    rw [mergeAll]
    split
    next he => exact ⟨h, List.isEmpty_iff.mp he⟩
    next he =>
      let size := p.settings.mergeBatchSize
      have hb : 0 < size := h.orderly.batch
      have hmerge := h.move (.merge size) ⟨hb, Nat.le_refl _⟩ rfl
      have hout : p.merge.outbox = p.outbox.drop size := (p.mergeFirst_frame size).1
      have hlen : p.outbox.length ≠ 0 := by simpa using he
      refine ih hmerge ?_
      rw [hout, List.length_drop]
      omega

theorem Run.step (h : Run past p) :
    Run (past ++ p.found .work) p.step ∧ p.step.outbox = [] := by
  obtain ⟨hmerged, hnone⟩ := h.work.flush
  rw [← p.work.flush.sameFiles_takeUp.outbox] at hnone
  exact ⟨hmerged.takeUp, hnone⟩

theorem Run.start (h : Run past p) : Run past p.flush.takeUp ∧ p.flush.takeUp.outbox = [] := by
  obtain ⟨hflush, hnone⟩ := h.flush
  rw [← p.flush.sameFiles_takeUp.outbox] at hnone
  exact ⟨hflush.takeUp, hnone⟩

theorem Run.run (fuel : Nat) (h : Run past p) : ∃ more, Run (past ++ more) (run fuel p) := by
  induction fuel generalizing past p with
  | zero => exact ⟨[], by rwa [List.append_nil]⟩
  | succ fuel ih =>
    rw [Pipeline.run]
    split
    next => exact ⟨[], by rwa [List.append_nil]⟩
    next =>
      obtain ⟨more, hrun⟩ := ih h.step.1
      rw [List.append_assoc] at hrun
      exact ⟨_, hrun⟩

theorem Run.settle (h : Run past p) : ∃ more, Run (past ++ more) p.settle := h.start.1.run _

theorem Run.turnsWithin (fuel : Nat) (h : Run past p) (ho : p.outbox = []) :
    ∀ t ∈ turnsWithin fuel p, ∃ more, Run (past ++ more) t ∧ t.outbox = [] ∧
      ∃ job, t.inHand = some job := by
  induction fuel generalizing past p with
  | zero => exact fun t ht => absurd ht List.not_mem_nil
  | succ fuel ih =>
    intro t ht
    rw [Pipeline.turnsWithin] at ht
    split at ht
    next => cases ht
    next hn =>
      rcases List.mem_cons.mp ht with rfl | ht
      · refine ⟨[], ?_, ho, Option.ne_none_iff_exists'.mp (mt Option.isNone_iff_eq_none.mpr hn)⟩
        rwa [List.append_nil]
      · obtain ⟨more, hrun, hrest⟩ := ih h.step.1 h.step.2 t ht
        rw [List.append_assoc] at hrun
        exact ⟨_, hrun, hrest⟩

/-- In every turn of a run to idle, a job is in hand and nothing waits for the merger. -/
theorem Run.turns (h : Run past p) : ∀ t ∈ p.turns, ∃ more, Run (past ++ more) t ∧
    t.outbox = [] ∧ ∃ job, t.inHand = some job :=
  h.start.1.turnsWithin _ h.start.2

/-- A pipeline that is new, in front of a cache directory without files. -/
theorem Run.vacant {disk : Disk} {engine : σ} {config : Config} {root : Path} {project : Project}
    (hd : disk.cwd.isAbsolute = true)
    (h : Pipeline.new disk engine config root project = .ok p)
    (hv : disk.Vacant p.snapshots.store.root) : Run [] p :=
  .new (fun _ hx => nomatch hx) hd h (CacheStore.attests_vacant hv)

section Spelled

/-! Jobs go by the canonical spelling of their file. -/

omit [Engine σ]

def Spelled (p : Pipeline σ) : Prop := ∀ path ∈ p.queue ++ p.underway, p.disk.cwd.Canonical path

theorem Spelled.enqueue (h : p.Spelled) (hd : p.disk.cwd.isAbsolute = true) (path : Path)
    (interactive : Bool) : (p.enqueue path interactive).1.Spelled := by
  obtain ⟨_, _, _, _, he, hqueue⟩ := p.enqueue_spec path interactive
  rw [he]
  intro q hq
  rcases List.mem_append.mp hq with hq | hq
  · rcases hqueue q hq with hq | rfl
    · exact h q (List.mem_append_left _ hq)
    · exact Path.canonical_normalize hd path
  · exact h q (List.mem_append_right _ hq)

theorem Spelled.enqueueAll (h : p.Spelled) (hd : p.disk.cwd.isAbsolute = true) (paths : List Path)
    (interactive : Bool) (counts : Enqueued → Bool) :
    (p.enqueueAll paths interactive counts).1.Spelled := by
  rw [enqueueAll_fst]
  induction paths generalizing p with
  | nil => exact h
  | cons path rest ih =>
    exact ih (h.enqueue hd path interactive)
      (by rwa [(p.sameFiles_enqueue path interactive).disk])

theorem Spelled.notifyChanged (h : p.Spelled) (hd : p.disk.cwd.isAbsolute = true) (path : Path) :
    (p.notifyChanged path).1.Spelled := by
  let forgotten : Pipeline σ := { p with timestamps := p.timestamps.erase (p.normalize path) }
  have hforgotten : forgotten.Spelled := h
  exact hforgotten.enqueueAll hd _ _ _

theorem Spelled.takeUp (h : p.Spelled) : p.takeUp.Spelled := by
  rw [Pipeline.takeUp]
  generalize p.interactive.length + p.background.length = fuel
  induction fuel generalizing p with
  | zero => exact h
  | succ fuel ih =>
    rw [takeUpWithin]
    split
    next => exact h
    next hh =>
      split
      next => exact h
      next p' path hr =>
        obtain ⟨hq, _, _, rfl⟩ := receive?_spec hr
        have hpath : p.disk.cwd.Canonical path := h path (by simp [hq])
        have hrest : ∀ q ∈ p.queue ++ p.underway, p.disk.cwd.Canonical q := h
        refine ih ?_
        rw [begin]
        split
        next =>
          intro q hm
          refine hrest q ?_
          rw [hq]
          exact List.mem_cons_of_mem _ hm
        next =>
          intro q hm
          rcases List.mem_append.mp hm with hm | hm
          · exact hrest q (by rw [hq]; exact List.mem_append_left _ (List.mem_cons_of_mem _ hm))
          · rcases List.mem_cons.mp hm with rfl | hm
            · exact hpath
            · exact hrest q (List.mem_append_right _ (List.mem_append_right _ hm))

theorem Spelled.retire {m : MergeMessage} {outbox : List MergeMessage} (h : p.Spelled)
    (ho : p.outbox = m :: outbox) : Spelled (retire { p with outbox := outbox } m) := by
  have hrest : ∀ q ∈ p.queue ++ underway { p with outbox := outbox }, p.disk.cwd.Canonical q := by
    intro q hq
    refine h q ?_
    have hsub : outbox.filterMap outcomePath? ⊆ p.outbox.filterMap outcomePath? := by
      intro x hx
      obtain ⟨m', hm', hx⟩ := List.mem_filterMap.mp hx
      exact List.mem_filterMap.mpr ⟨m', by rw [ho]; exact List.mem_cons_of_mem _ hm', hx⟩
    simp only [List.mem_append, underway] at hq ⊢
    exact hq.imp_right fun hq => hq.imp_right fun hq => hsub hq
  cases m with
  | remove path => exact hrest
  | job outcome =>
    have hpath : p.disk.cwd.Canonical outcome.path := h _ (by simp [underway, ho, outcomePath?])
    rw [Pipeline.retire]
    split
    next => exact hrest
    next interactive _ =>
      intro q hq
      cases interactive <;>
      · simp only [send, queue, underway, List.mem_append, List.mem_singleton, Bool.false_eq_true,
          if_false, if_true] at hq hrest ⊢
        grind

theorem Spelled.notifyRemoved (h : p.Spelled) (path : Path) : (p.notifyRemoved path).Spelled := by
  intro q hq
  refine h q ?_
  simpa [Pipeline.notifyRemoved, queue, underway, outcomePath?, List.filterMap_append] using hq

theorem Spelled.mergeFirst (h : p.Spelled) (size : Nat) : (p.mergeFirst size).Spelled := by
  have hretire := foldl_retire_of Spelled.retire h (List.take_append_drop size p.outbox).symm
  obtain ⟨_, _, _, _, _, _, _, hcwd, hm, -⟩ := p.settled_mergeFirst size
  rw [hm]
  intro q hq
  have hq' := hretire q hq
  rwa [← hcwd] at hq'

theorem Spelled.work [Engine σ] (h : p.Spelled) : p.work.Spelled := by
  cases hh : p.inHand with
  | none =>
    rw [Pipeline.work, hh]
    exact h
  | some job =>
    obtain ⟨_, outcome, hpath, _, _, _, hw, -⟩ := work_spec hh
    rw [hw]
    intro q hq
    refine h q ?_
    simp only [queue, underway, hh, List.filterMap_append, outcomePath?, List.filterMap_cons,
      List.filterMap_nil, List.mem_append, hpath, Option.map_none, Option.map_some,
      Option.toList_none, Option.toList_some, List.mem_singleton, List.not_mem_nil] at hq ⊢
    grind

end Spelled

theorem Run.spelled (h : Run past p) : p.Spelled := by
  induction h with
  | new _ _ h _ =>
    obtain ⟨-, hp⟩ := new_eq h
    rw [hp]
    exact fun path hp => absurd hp List.not_mem_nil
  | act h m hm ih =>
    have hd := h.orderly.cwd
    cases m with
    | enqueue path interactive => exact ih.enqueue hd path interactive
    | notifyChanged path => exact ih.notifyChanged hd path
    | notifyRemoved path => exact ih.notifyRemoved path
    | takeUp => exact ih.takeUp
    | work => exact ih.work
    | merge size => exact ih.mergeFirst size
    | disk d =>
      intro q hq
      have hq' := ih q hq
      rwa [← hm.1] at hq'
    | _ => exact ih

end Pipeline

end SymbolIndex
