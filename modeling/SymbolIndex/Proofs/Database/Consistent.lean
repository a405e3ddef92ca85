import SymbolIndex.Proofs.Database.Files

/-! Consistency of a database with the snapshots it has on record. A delta that leads from the
snapshot on record for its path is never refused, keeps the database consistent, and changes the
record of that path alone (`Consistent.applyFile`). -/

namespace SymbolIndex

open Std

/-- Whether the changes of a delta lead from a recorded snapshot to the delta's own. -/
def FileDelta.LeadsFrom (d : FileDelta) (previous : Option Snapshot) : Prop :=
  ∀ c id, (d.changes.get c).viewAfter id
      ((previous.bind fun s => s.find? c id).map SymbolView.tidy) =
    (d.snapshot.bind fun s => s.find? c id).map SymbolView.tidy

theorem FileDelta.leadsFrom_between (previous : Option Snapshot) (current : Snapshot) :
    (between previous current).LeadsFrom previous := by
  intro c id
  have hp : (previous.bind fun s => s.find? c id) =
      ((previous.map fun (s : Snapshot) => s.symbols.get c).getD ∅).find? id := by
    cases previous <;> rfl
  rw [between, PerCategory.get_build, hp]
  exact CategoryDelta.viewAfter_between _ _ id

theorem FileDelta.leadsFrom_removal (previous : Snapshot) :
    (removal previous).LeadsFrom (some previous) := by
  intro c id
  rw [removal, PerCategory.get_build]
  exact CategoryDelta.viewAfter_removal _ id

namespace Database

def snapshotAt? (db : Database) (file : FileId) : Option Snapshot :=
  (db.files.find? file).map (·.snapshot)

theorem snapshot?_eq_bind (db : Database) (p : Path) :
    db.snapshot? p = (db.fileId? p).bind db.snapshotAt? := by
  rw [snapshot?, file?]
  cases db.fileId? p <;> rfl

structure Consistent (db : Database) : Prop where
  sound : db.Sound
  distinct : db.Distinct
  recorded : ∀ file s, db.snapshotAt? file = some s →
    ∃ p, db.pathOf? file = some p ∧ p.same s.path = true
  views : ∀ c id file, db.contribution? c id file =
    ((db.snapshotAt? file).bind fun s => s.find? c id).map SymbolView.tidy

theorem consistent_empty : empty.Consistent where
  sound := sound_empty
  distinct := .nil
  recorded file s h := by cases h
  views c id file := by cases c <;> rfl

/-- The database after a delta, seen through what it records. -/
structure Merged (before : Database) (d : FileDelta) (after : Database) : Prop where
  consistent : after.Consistent
  paths : after.paths =
    if before.paths.any d.path.same then before.paths else before.paths ++ [d.path]
  includes : after.includes = match d.snapshot with
    | some s => before.includes.setIncludes d.path s.dependencies.keys
    | none => before.includes.remove d.path
  snapshot? : ∀ p, after.snapshot? p =
    if d.path.same p then d.snapshot else before.snapshot? p

theorem Consistent.snapshot?_path {db : Database} (h : db.Consistent) {p : Path} {s : Snapshot}
    (hs : db.snapshot? p = some s) : p.same s.path = true := by
  rw [snapshot?_eq_bind] at hs
  obtain ⟨file, hf, hs⟩ := Option.bind_eq_some_iff.mp hs
  obtain ⟨q, hq, hpq⟩ := same_of_fileId? hf
  obtain ⟨q', hq', hs'⟩ := h.recorded file s hs
  rw [hq] at hq'
  cases hq'
  exact Path.same_trans hpq hs'

theorem Consistent.snapshotAt?_intern {db : Database} (h : db.Consistent) (p : Path) :
    db.snapshotAt? (db.intern p).2 = db.snapshot? p := by
  rw [snapshot?_eq_bind, intern]
  cases hf : db.fileId? p with
  | some file => rfl
  | none =>
    cases hs : db.snapshotAt? db.paths.length with
    | none => rfl
    | some s =>
      obtain ⟨q, hq, _⟩ := h.recorded _ s hs
      have := (List.getElem?_eq_some_iff.mp hq).choose
      omega

theorem Consistent.ne_intern {db : Database} {p q : Path} {file : FileId}
    (hpq : ¬ p.same q = true) (hq : db.fileId? q = some file) : file ≠ (db.intern p).2 := by
  intro he
  have hq' := fileId?_intern db p q
  have hp' := fileId?_intern db p p
  rw [if_neg hpq, hq, he] at hq'
  rw [if_pos (Path.same_self p)] at hp'
  obtain ⟨r, hr, hqr⟩ := same_of_fileId? hq'
  obtain ⟨r', hr', hpr⟩ := same_of_fileId? hp'
  rw [hr] at hr'
  cases hr'
  rw [Path.same_comm] at hqr
  exact hpq (Path.same_trans hpr hqr)

/-- The state once the changes of a delta are entered and before the delta is settled. -/
def entered (state : Database × ApplyStats) (d : FileDelta) : Database × ApplyStats :=
  applyChanges (state.1.intern d.path).2 d.changes ((state.1.intern d.path).1, state.2)

theorem sameFiles_entered (state : Database × ApplyStats) (d : FileDelta) :
    (entered state d).1.SameFiles (state.1.intern d.path).1 :=
  sameFiles_applyChanges ..

theorem Sound.entered {state : Database × ApplyStats} (h : state.1.Sound) (d : FileDelta) :
    (Database.entered state d).1.Sound := by
  have hstart : (state.1.intern d.path).1.Sound := h.congr (by rw [intern_fst]) (by rw [intern_fst])
  rw [Database.entered, applyChanges_eq_edits]
  refine Sound.foldl_edit ?_ _
  exact hstart

theorem Consistent.contribution?_entered {state : Database × ApplyStats} (h : state.1.Consistent)
    {d : FileDelta} (hd : d.LeadsFrom (state.1.snapshot? d.path)) (c : Category) (id : SymbolId)
    (file : FileId) :
    (entered state d).1.contribution? c id file =
      if file = (state.1.intern d.path).2 then
        (d.snapshot.bind fun s => s.find? c id).map SymbolView.tidy
      else state.1.contribution? c id file := by
  have hsame : (state.1.intern d.path).1.contribution? = state.1.contribution? :=
    contribution?_congr (by rw [intern_fst])
  rw [entered, contribution?_applyChanges]
  dsimp only
  rw [hsame]
  split
  next => rw [h.views, ← hd, ← h.snapshotAt?_intern]
  next => rfl

/-- A delta is refused only if it is a removal that leaves contributions behind. -/
theorem applyFile_eq_ok {state : Database × ApplyStats} {d : FileDelta}
    (h : d.snapshot = none → ∀ c id,
      (entered state d).1.contribution? c id (state.1.intern d.path).2 = none) :
    applyFile state d = .ok (settle d (state.1.intern d.path).2 (entered state d)) := by
  rw [applyFile]
  refine if_pos ?_
  split
  next hnone _ =>
    rw [Bool.not_eq_true', contributesTo, List.any_eq_false]
    exact fun e _ => Option.not_isSome_iff_eq_none.mpr (h hnone e.1 e.2.1)
  next => rfl

theorem snapshotAt?_settle (d : FileDelta) (file file' : FileId)
    (state : Database × ApplyStats) :
    (settle d file state).1.snapshotAt? file' =
      if file' = file then d.snapshot else state.1.snapshotAt? file' := by
  rw [settle, snapshotAt?, snapshotAt?]
  cases d.snapshot with
  | some s =>
    simp only [OrderedMap.find?_insert, LawfulEqOrd.compare_eq_iff_eq]
    split <;> rfl
  | none =>
    simp only [OrderedMap.find?_erase, LawfulEqOrd.compare_eq_iff_eq, eq_comm (a := file)]
    split <;> rfl

theorem settle_frame (d : FileDelta) (file : FileId) (state : Database × ApplyStats) :
    (settle d file state).1 = { state.1 with
      files := (settle d file state).1.files
      includes := match d.snapshot with
        | some s => state.1.includes.setIncludes d.path s.dependencies.keys
        | none => state.1.includes.remove d.path } := by
  rw [settle]
  cases d.snapshot <;> rfl

@[simp] theorem paths_settle (d : FileDelta) (file : FileId) (state : Database × ApplyStats) :
    (settle d file state).1.paths = state.1.paths := by rw [settle_frame]

section Settled

variable {state : Database × ApplyStats} {d : FileDelta}

theorem paths_settled (state : Database × ApplyStats) (d : FileDelta) (file : FileId) :
    (settle d file (entered state d)).1.paths = (state.1.intern d.path).1.paths := by
  rw [paths_settle, (sameFiles_entered state d).1]

theorem snapshotAt?_settled (state : Database × ApplyStats) (d : FileDelta) (f : FileId) :
    (settle d (state.1.intern d.path).2 (entered state d)).1.snapshotAt? f =
      if f = (state.1.intern d.path).2 then d.snapshot else state.1.snapshotAt? f := by
  rw [snapshotAt?_settle, snapshotAt?, snapshotAt?, (sameFiles_entered state d).2.1, intern_fst]

theorem Consistent.settled (h : state.1.Consistent) (hd : d.LeadsFrom (state.1.snapshot? d.path))
    (hp : ∀ s, d.snapshot = some s → d.path.same s.path = true) :
    (settle d (state.1.intern d.path).2 (entered state d)).1.Consistent where
  sound := (h.sound.entered d).congr (by rw [settle_frame]) (by rw [settle_frame])
  distinct := by
    rw [Distinct, paths_settled]
    exact h.distinct.intern d.path
  recorded f s hs := by
    rw [snapshotAt?_settled] at hs
    rw [pathOf?, paths_settled]
    split at hs
    next hf =>
      have hfile := fileId?_intern state.1 d.path d.path
      rw [if_pos (Path.same_self _)] at hfile
      obtain ⟨q, hq, hdq⟩ := same_of_fileId? hfile
      rw [Path.same_comm] at hdq
      exact ⟨q, hf ▸ hq, Path.same_trans hdq (hp s hs)⟩
    next =>
      obtain ⟨q, hq, hqs⟩ := h.recorded f s hs
      exact ⟨q, pathOf?_intern hq, hqs⟩
  views c id f := by
    have hdefinitions : (settle d (state.1.intern d.path).2 (entered state d)).1.definitions =
        (entered state d).1.definitions := by rw [settle_frame]
    rw [contribution?_congr hdefinitions, h.contribution?_entered hd, snapshotAt?_settled]
    split
    next => rfl
    next => exact h.views c id f

theorem snapshot?_settled (state : Database × ApplyStats) (d : FileDelta) (p : Path) :
    (settle d (state.1.intern d.path).2 (entered state d)).1.snapshot? p =
      if d.path.same p then d.snapshot else state.1.snapshot? p := by
  rw [snapshot?_eq_bind, fileId?, paths_settled, ← fileId?, fileId?_intern]
  split
  next => exact (snapshotAt?_settled state d _).trans (if_pos rfl)
  next hdp =>
    rw [snapshot?_eq_bind]
    cases hf : state.1.fileId? p with
    | none => rfl
    | some f => exact (snapshotAt?_settled state d f).trans (if_neg (Consistent.ne_intern hdp hf))

theorem Consistent.applyFile (h : state.1.Consistent)
    (hd : d.LeadsFrom (state.1.snapshot? d.path))
    (hp : ∀ s, d.snapshot = some s → d.path.same s.path = true) :
    ∃ out, Database.applyFile state d = .ok out ∧ state.1.Merged d out.1 := by
  have hnone : d.snapshot = none → ∀ c id,
      (entered state d).1.contribution? c id (state.1.intern d.path).2 = none := by
    intro hn c id
    rw [h.contribution?_entered hd, if_pos rfl, hn]
    rfl
  refine ⟨_, applyFile_eq_ok hnone, h.settled hd hp, ?_, ?_, snapshot?_settled state d⟩
  · rw [paths_settled, intern_fst]
  · rw [settle_frame, (sameFiles_entered state d).2.2, intern_fst]

end Settled

end Database

end SymbolIndex
