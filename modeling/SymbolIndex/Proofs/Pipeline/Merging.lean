import SymbolIndex.Proofs.Cache.Store
import SymbolIndex.Pipeline

/-! What merging does to the jobs. A merge retires the messages one by one; for the rest, only the
database and what is known about files change. -/

namespace SymbolIndex

namespace Pipeline

variable {σ : Type}

/-- The second pipeline differs from the first in what a merge may change besides the jobs. -/
def Settled (a b : Pipeline σ) : Prop :=
  ∃ disk snapshots timestamps ownership db counters merged, disk.cwd = a.disk.cwd ∧
    b = { a with
      disk := disk
      snapshots := snapshots
      timestamps := timestamps
      ownership := ownership
      db := db
      counters := counters
      merged := merged } ∧ a.counters.errors ⊆ counters.errors

theorem Settled.refl (p : Pipeline σ) : p.Settled p := ⟨_, _, _, _, _, _, _, rfl, rfl, fun _ he => he⟩

theorem Settled.trans {a b c : Pipeline σ} (h : a.Settled b) (h' : b.Settled c) : a.Settled c := by
  obtain ⟨_, _, _, _, _, _, _, hd, rfl, he⟩ := h
  obtain ⟨_, _, _, _, _, _, _, hd', rfl, he'⟩ := h'
  exact ⟨_, _, _, _, _, _, _, hd'.trans hd, rfl, List.Subset.trans he he'⟩

theorem settled_foldl {α : Type} {f : Pipeline σ → α → Pipeline σ}
    (h : ∀ (p : Pipeline σ) a, p.Settled (f p a)) (items : List α) (p : Pipeline σ) :
    p.Settled (items.foldl f p) := by
  induction items generalizing p with
  | nil => exact .refl p
  | cons a rest ih => exact (h p a).trans (ih _)

theorem settled_applyChange (p : Pipeline σ) (f : FileChange) : p.Settled (p.applyChange f) := by
  rw [applyChange]
  split <;> exact ⟨_, _, _, _, _, _, _, rfl, rfl, fun _ he => he⟩

theorem settled_applyMessage (p : Pipeline σ) (m : MergeMessage) :
    p.Settled (p.applyMessage m) := by
  cases m with
  | job outcome => exact settled_foldl settled_applyChange _ p
  | remove path =>
    rw [applyMessage, removeFile]
    split <;> exact ⟨_, _, _, _, _, _, _, rfl, rfl, fun _ he => he⟩

theorem settled_saveEntry (p : Pipeline σ) (f : FileChange) : p.Settled (p.saveEntry f) := by
  unfold saveEntry
  split
  next => exact .refl p
  next entry _ =>
    have hcwd := p.snapshots.cwd_save p.disk f.path entry
    split
    next =>
      split
      next snapshots disk hs =>
        rw [hs] at hcwd
        exact ⟨_, _, _, _, _, _, _, hcwd, rfl, fun _ he => he⟩
      next snapshots disk cause hs =>
        rw [hs] at hcwd
        exact ⟨_, _, _, _, _, _, _, hcwd, rfl, fun _ he => List.mem_append_left _ he⟩
    next => exact .refl p

theorem settled_finishFile (p : Pipeline σ) (f : FileChange) : p.Settled (p.finishFile f) :=
  Settled.trans (b := p.noteTime f) ⟨_, _, _, _, _, _, _, rfl, rfl, fun _ he => he⟩ (settled_saveEntry _ f)

/-- Take a message off the jobs and removals that are waiting. -/
def retire (p : Pipeline σ) : MergeMessage → Pipeline σ
  | .job outcome =>
    match p.tracker.finish outcome.path with
    | (tracker, none) => { p with tracker }
    | (tracker, some interactive) => { p with tracker }.send outcome.path interactive
  | .remove _ => { p with tracker := p.tracker.endRemoval }

theorem Settled.retire {a b : Pipeline σ} (h : a.Settled b) (m : MergeMessage) :
    (a.retire m).Settled (b.retire m) := by
  obtain ⟨_, _, _, _, _, _, _, hd, rfl, he⟩ := h
  cases m with
  | job outcome =>
    rw [Pipeline.retire, Pipeline.retire]
    generalize a.tracker.finish outcome.path = finished
    obtain ⟨tracker, rerun⟩ := finished
    cases rerun with
    | none => exact ⟨_, _, _, _, _, _, _, hd, rfl, he⟩
    | some interactive => cases interactive <;> exact ⟨_, _, _, _, _, _, _, hd, rfl, he⟩
  | remove path => exact ⟨_, _, _, _, _, _, _, hd, rfl, he⟩

theorem settled_complete (p : Pipeline σ) (outcome : Outcome) :
    (p.retire (.job outcome)).Settled (p.complete outcome.path) := by
  rw [complete, retire]
  generalize p.tracker.finish outcome.path = finished
  obtain ⟨tracker, rerun⟩ := finished
  cases rerun with
  | none => exact .refl _
  | some interactive => cases interactive <;> exact ⟨_, _, _, _, _, _, _, rfl, rfl, fun _ he => he⟩

theorem settled_finishMessage (p : Pipeline σ) (m : MergeMessage) :
    (p.retire m).Settled (p.finishMessage m) := by
  cases m with
  | job outcome =>
    rw [finishMessage, finishJob]
    refine Settled.trans ?_ (settled_complete _ outcome)
    refine Settled.retire ?_ _
    have hcount : p.Settled { p with
        counters := p.counters.addFilesApplied outcome.files.length } :=
      ⟨_, _, _, _, _, _, _, rfl, rfl, fun _ he => he⟩
    obtain ⟨_, _, _, _, _, _, _, hd, hf, he⟩ :=
      hcount.trans (settled_foldl settled_finishFile outcome.files _)
    rw [hf]
    refine ⟨_, _, _, _, _, _, _, hd, rfl, ?_⟩
    split
    next => exact fun _ h => List.mem_append_left _ (he h)
    next => exact he
  | remove path =>
    have hcwd := p.snapshots.cwd_remove p.disk path
    unfold finishMessage finishRemoval
    dsimp only
    generalize p.snapshots.remove p.disk path = removed at hcwd
    exact ⟨_, _, _, _, _, _, _, hcwd, rfl, fun _ he => he⟩

theorem settled_mergeBatch (p : Pipeline σ) (batch : List MergeMessage) :
    (batch.foldl retire p).Settled (p.mergeBatch batch) := by
  rw [mergeBatch]
  have happly := settled_foldl settled_applyMessage batch p
  generalize batch.foldl applyMessage p = q at happly
  induction batch generalizing p q with
  | nil => exact happly
  | cons m rest ih =>
    rw [List.foldl_cons, List.foldl_cons]
    refine ih _ _ ?_
    exact (happly.retire m).trans (settled_finishMessage q m)

theorem retire_outbox (p : Pipeline σ) (outbox : List MergeMessage) (m : MergeMessage) :
    retire { p with outbox := outbox } m = { p.retire m with outbox := outbox } := by
  cases m with
  | job outcome =>
    rw [retire, retire]
    generalize p.tracker.finish outcome.path = finished
    obtain ⟨tracker, rerun⟩ := finished
    cases rerun with
    | none => rfl
    | some interactive => cases interactive <;> rfl
  | remove path => rfl

/-- What every message keeps that is taken off the outbox and retired, a batch keeps. -/
theorem foldl_retire_of {P : Pipeline σ → Prop} (hP : ∀ {p : Pipeline σ} {m outbox}, P p →
      p.outbox = m :: outbox → P (retire { p with outbox := outbox } m))
    {p : Pipeline σ} {batch outbox : List MergeMessage} (h : P p)
    (ho : p.outbox = batch ++ outbox) : P (batch.foldl retire { p with outbox := outbox }) := by
  induction batch generalizing p with
  | nil =>
    rw [List.nil_append] at ho
    rw [← ho]
    exact h
  | cons m rest ih =>
    have hm := hP h ho
    rw [retire_outbox] at hm
    have hrest := ih hm rfl
    rw [List.foldl_cons, retire_outbox]
    exact hrest

theorem foldl_retire_outbox (p : Pipeline σ) (outbox : List MergeMessage)
    (batch : List MergeMessage) :
    batch.foldl retire { p with outbox := outbox } =
      { batch.foldl retire p with outbox := outbox } := by
  induction batch generalizing p with
  | nil => rfl
  | cons m rest ih => rw [List.foldl_cons, List.foldl_cons, retire_outbox, ih]

theorem Settled.foldl_retire {a b : Pipeline σ} (h : a.Settled b) (batch : List MergeMessage) :
    (batch.foldl Pipeline.retire a).Settled (batch.foldl Pipeline.retire b) := by
  induction batch generalizing a b with
  | nil => exact h
  | cons m rest ih => exact ih (h.retire m)

theorem Settled.outbox {a b : Pipeline σ} (h : a.Settled b) (outbox : List MergeMessage) :
    Settled { a with outbox := outbox } { b with outbox := outbox } := by
  obtain ⟨_, _, _, _, _, _, _, hd, rfl, he⟩ := h
  exact ⟨_, _, _, _, _, _, _, hd, rfl, he⟩

theorem foldl_retire_spec (p : Pipeline σ) (batch : List MergeMessage) :
    ∃ tracker interactive background, batch.foldl retire p = { p with
      tracker := tracker
      interactive := interactive
      background := background } := by
  have hretire : ∀ (p : Pipeline σ) (m : MergeMessage), ∃ tracker interactive background,
      p.retire m = { p with
        tracker := tracker
        interactive := interactive
        background := background } := by
    intro p m
    cases m with
    | job outcome =>
      rw [retire]
      split
      next => exact ⟨_, _, _, rfl⟩
      next interactive _ => cases interactive <;> exact ⟨_, _, _, rfl⟩
    | remove path => exact ⟨_, _, _, rfl⟩
  induction batch generalizing p with
  | nil => exact ⟨_, _, _, rfl⟩
  | cons m rest ih =>
    obtain ⟨_, _, _, hm⟩ := hretire p m
    obtain ⟨_, _, _, hrest⟩ := ih (p.retire m)
    rw [List.foldl_cons, hrest, hm]
    exact ⟨_, _, _, rfl⟩

theorem settled_merge (p : Pipeline σ) :
    ((p.outbox.take p.settings.mergeBatchSize).foldl retire { p with
      outbox := p.outbox.drop p.settings.mergeBatchSize }).Settled p.merge :=
  settled_mergeBatch _ _

theorem settled_mergeAll (fuel : Nat) (p : Pipeline σ) (hb : 0 < p.settings.mergeBatchSize)
    (hf : p.outbox.length ≤ fuel) :
    (p.outbox.foldl retire { p with outbox := [] }).Settled (mergeAll fuel p) := by
  induction fuel generalizing p with
  | zero =>
    have hnil : p.outbox = [] := List.eq_nil_of_length_eq_zero (by omega)
    rw [mergeAll, hnil, List.foldl_nil, ← hnil]
    exact .refl p
  | succ fuel ih =>
    rw [mergeAll]
    split
    next he =>
      have hnil := List.isEmpty_iff.mp he
      rw [hnil, List.foldl_nil, ← hnil]
      exact .refl p
    next he =>
      let size := p.settings.mergeBatchSize
      have hmerge : ((p.outbox.take size).foldl retire
          { p with outbox := p.outbox.drop size }).Settled p.merge := settled_merge p
      have hout : p.merge.outbox = p.outbox.drop size := by
        rw [foldl_retire_outbox] at hmerge
        obtain ⟨_, _, _, _, _, _, _, _, hm, _⟩ := hmerge
        rw [hm]
      have hset : p.merge.settings = p.settings := by
        obtain ⟨_, _, _, hspec⟩ := foldl_retire_spec { p with outbox := p.outbox.drop size }
          (p.outbox.take size)
        rw [hspec] at hmerge
        obtain ⟨_, _, _, _, _, _, _, _, hm, _⟩ := hmerge
        rw [hm]
      have hne : p.outbox ≠ [] := fun h => he (by simp [h])
      have hlen : 0 < p.outbox.length := List.length_pos_iff.mpr hne
      have hrest := ih p.merge (by rw [hset]; exact hb) (by
        rw [hout, List.length_drop]
        omega)
      -- What the first batch retires does not depend on the messages behind it.
      have hfirst : ((p.outbox.take size).foldl retire { p with outbox := [] }).Settled
          { p.merge with outbox := [] } := by
        rw [foldl_retire_outbox] at hmerge ⊢
        exact hmerge.outbox []
      have hboth := hfirst.foldl_retire (p.outbox.drop size)
      rw [← List.foldl_append, List.take_append_drop] at hboth
      rw [hout] at hrest
      exact hboth.trans hrest

theorem settled_flush (p : Pipeline σ) (hb : 0 < p.settings.mergeBatchSize) :
    (p.outbox.foldl retire { p with outbox := [] }).Settled p.flush :=
  settled_mergeAll _ p hb (Nat.le_refl _)

theorem flush_of_outbox {p : Pipeline σ} (h : p.outbox = []) : p.flush = p := by
  rw [flush, h]
  rfl

end Pipeline

end SymbolIndex
