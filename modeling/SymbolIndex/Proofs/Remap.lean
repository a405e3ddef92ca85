import SymbolIndex.Remap

/-! What remapping takes over from a record as it is: the file with its time and arguments, and the
includes. Entries only add symbols, and what the index knows is only counted. -/

namespace SymbolIndex

namespace Remap

/-- The second snapshot differs from the first in its symbols. -/
def Relabeled (a b : Snapshot) : Prop := ∃ symbols, b = { a with symbols := symbols }

theorem Relabeled.refl (s : Snapshot) : Relabeled s s := ⟨_, rfl⟩

theorem Relabeled.trans {a b c : Snapshot} (h : Relabeled a b) (h' : Relabeled b c) :
    Relabeled a c := by
  obtain ⟨_, rfl⟩ := h
  obtain ⟨_, rfl⟩ := h'
  exact ⟨_, rfl⟩

theorem relabeled_foldl {α : Type} {f : Snapshot → α → Snapshot}
    (h : ∀ s a, Relabeled s (f s a)) (items : List α) (s : Snapshot) :
    Relabeled s (items.foldl f s) := by
  induction items generalizing s with
  | nil => exact .refl s
  | cons a rest ih => exact (h s a).trans (ih _)

/-- Entering an entry adds its uses to the unknown id if it has no signature, does nothing if its id is
claimed by another category, and otherwise describes the id and adds the backward relations. -/
theorem enter_cases (entries : Identified) (s : Snapshot) (id : SymbolId) (e : Entry) :
    (id.isUnknown = true ∧ enter entries s id e =
      s.update e.category .unknown fun v => { v with uses := v.uses.insertAll e.uses }) ∨
    (id.isUnknown = false ∧ claimed? entries id ≠ some e.category ∧ enter entries s id e = s) ∨
    (id.isUnknown = false ∧ claimed? entries id = some e.category ∧ enter entries s id e =
      ((backward entries e).filter fun b => accepts entries b.1 b.2.1).foldl
        (fun s b => s.update b.1 b.2.1 (·.relate b.2.2 id))
        (s.update e.category id (describe entries e))) := by
  rw [enter]
  split
  next hu => exact .inl ⟨hu, rfl⟩
  next hu =>
    split
    next hc => exact .inr (.inl ⟨Bool.eq_false_iff.mpr hu, hc, rfl⟩)
    next hc => exact .inr (.inr ⟨Bool.eq_false_iff.mpr hu, Decidable.not_not.mp hc, rfl⟩)

theorem relabeled_enter (entries : Identified) (s : Snapshot) (id : SymbolId) (e : Entry) :
    Relabeled s (enter entries s id e) := by
  rcases enter_cases entries s id e with ⟨-, h⟩ | ⟨-, -, h⟩ | ⟨-, -, h⟩ <;> rw [h]
  · exact ⟨_, rfl⟩
  · exact .refl s
  · have hown : Relabeled s (s.update e.category id (describe entries e)) := ⟨_, rfl⟩
    exact hown.trans (relabeled_foldl (fun _ _ => ⟨_, rfl⟩) _ _)

end Remap

theorem Record.relabeled_remap (r : Record) (cwd : Option Path)
    (known : SymbolId → Option Category) :
    Remap.Relabeled {
      path := r.path.normalize cwd
      modified := r.modified
      args := r.args
      dependencies := .ofList (r.dependencies.map fun d => (d.path.normalize cwd, d.modified)) }
      (r.remap cwd known).1 :=
  Remap.relabeled_foldl (fun s (e : SymbolId × Entry) => Remap.relabeled_enter _ s e.1 e.2) _ _

theorem Record.remap_known (r : Record) (cwd : Option Path)
    (known known' : SymbolId → Option Category) :
    (r.remap cwd known).1 = (r.remap cwd known').1 := rfl

end SymbolIndex
