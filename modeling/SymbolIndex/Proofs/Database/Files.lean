import SymbolIndex.Proofs.Database.Sound

/-! The files of a database. A path is numbered when it is met first and keeps its number whatever
happens to the file later, and a delta changes nothing here but the file it is about. -/

namespace SymbolIndex

open Std

namespace Database

def Distinct (db : Database) : Prop := db.paths.Pairwise fun p q => p.same q = false

theorem same_of_fileId? {db : Database} {p : Path} {file : FileId} (h : db.fileId? p = some file) :
    ∃ q, db.pathOf? file = some q ∧ p.same q = true := by
  obtain ⟨hlt, hsame, _⟩ := List.findIdx?_eq_some_iff_getElem.mp h
  exact ⟨_, List.getElem?_eq_getElem hlt, hsame⟩

theorem Distinct.fileId?_eq {db : Database} (h : db.Distinct) {p q : Path} {file : FileId}
    (hq : db.pathOf? file = some q) (hp : p.same q = true) : db.fileId? p = some file := by
  obtain ⟨hlt, rfl⟩ := List.getElem?_eq_some_iff.mp hq
  refine List.findIdx?_eq_some_iff_getElem.mpr ⟨hlt, hp, fun j hj hs => ?_⟩
  have hne := List.pairwise_iff_getElem.mp h j file (by omega) hlt hj
  rw [← Path.same_congr hs, hp] at hne
  cases hne

theorem fileId?_congr (db : Database) {p q : Path} (h : p.same q = true) :
    db.fileId? p = db.fileId? q := by
  rw [fileId?, fileId?, Path.same_congr h]

theorem file?_congr (db : Database) {p q : Path} (h : p.same q = true) :
    db.file? p = db.file? q := by
  rw [file?, file?, fileId?_congr db h]

theorem snapshot?_congr (db : Database) {p q : Path} (h : p.same q = true) :
    db.snapshot? p = db.snapshot? q := by
  rw [snapshot?, snapshot?, file?_congr db h]

theorem fileId?_eq_none_iff {db : Database} {p : Path} :
    db.fileId? p = none ↔ ∀ q ∈ db.paths, p.same q = false :=
  List.findIdx?_eq_none_iff

theorem intern_fst (db : Database) (p : Path) :
    (db.intern p).1 =
      { db with paths := if db.paths.any p.same then db.paths else db.paths ++ [p] } := by
  rw [intern]
  cases hf : db.fileId? p with
  | some file =>
    have hany : db.paths.any p.same = true := by
      obtain ⟨hlt, hs, _⟩ := List.findIdx?_eq_some_iff_getElem.mp hf
      exact List.any_eq_true.mpr ⟨_, List.getElem_mem hlt, hs⟩
    simp [hany]
  | none =>
    have hany : db.paths.any p.same = false :=
      List.any_eq_false.mpr fun q hq => by simp [fileId?_eq_none_iff.mp hf q hq]
    simp [hany]

theorem fileId?_intern (db : Database) (p q : Path) :
    (db.intern p).1.fileId? q =
      if p.same q then some (db.intern p).2 else db.fileId? q := by
  rw [intern]
  cases hf : db.fileId? p with
  | some file =>
    by_cases hpq : p.same q = true
    · rw [if_pos hpq, ← fileId?_congr db hpq]
      exact hf
    · rw [if_neg hpq]
  | none =>
    have hnone := fileId?_eq_none_iff.mp hf
    simp only [fileId?, List.findIdx?_append]
    by_cases hpq : p.same q = true
    · have hq : db.paths.findIdx? q.same = none := by
        rw [← Path.same_congr hpq]
        exact hf
      rw [if_pos hpq, hq, Path.same_comm] at *
      simp [List.findIdx?_cons, hpq]
    · rw [Path.same_comm] at hpq
      simp [List.findIdx?_cons, hpq, Path.same_comm p q]

theorem Distinct.intern {db : Database} (h : db.Distinct) (p : Path) : (db.intern p).1.Distinct := by
  rw [Distinct, intern_fst]
  dsimp only
  split
  next => exact h
  next hany =>
    rw [Bool.not_eq_true, List.any_eq_false] at hany
    refine List.pairwise_append.mpr ⟨h, List.pairwise_singleton .., fun q hq r hr => ?_⟩
    rw [List.mem_singleton.mp hr, Path.same_comm]
    exact Bool.eq_false_iff.mpr (hany q hq)

theorem pathOf?_intern {db : Database} {p q : Path} {file : FileId}
    (h : db.pathOf? file = some q) : (db.intern p).1.pathOf? file = some q := by
  rw [pathOf?, intern_fst]
  dsimp only
  split
  next => exact h
  next => rw [List.getElem?_append_left (List.getElem?_eq_some_iff.mp h).choose]; exact h

/-- Two databases that number and record the same files. -/
def SameFiles (a b : Database) : Prop :=
  a.paths = b.paths ∧ a.files = b.files ∧ a.includes = b.includes

theorem sameFiles_edit (state : Database × ApplyStats) (e : Edit) :
    (edit state e).1.SameFiles state.1 := by
  cases e with
  | takeBack file c id =>
    change (retract c file state id).1.SameFiles state.1
    rcases retract_cases c file state id with ⟨_, hr⟩ | ⟨_, _, _, _, _, ⟨_, hr⟩ | ⟨_, hr⟩⟩ <;>
      rw [hr] <;> exact ⟨rfl, rfl, rfl⟩
  | enter file c u => exact ⟨rfl, rfl, rfl⟩

theorem sameFiles_applyChanges (file : FileId) (changes : PerCategory CategoryDelta)
    (state : Database × ApplyStats) : (applyChanges file changes state).1.SameFiles state.1 := by
  rw [applyChanges_eq_edits]
  generalize changes.edits file = edits
  induction edits generalizing state with
  | nil => exact ⟨rfl, rfl, rfl⟩
  | cons e rest ih =>
    obtain ⟨hpaths, hfiles, hincludes⟩ := ih (edit state e)
    obtain ⟨hpaths', hfiles', hincludes'⟩ := sameFiles_edit state e
    exact ⟨hpaths.trans hpaths', hfiles.trans hfiles', hincludes.trans hincludes'⟩

end Database

end SymbolIndex
