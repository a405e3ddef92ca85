import SymbolIndex.Database.Apply
import SymbolIndex.Proofs.Delta

/-! What applying a delta does to the contributions of files. The database is seen through
`contribution?`: every step of a delta changes what its own file says about one symbol and nothing
else, and a whole delta acts on each contribution by `CategoryDelta.viewAfter`. -/

namespace SymbolIndex

open Std

/-- One change of a file to a symbol. -/
inductive Edit
  | takeBack (file : FileId) (c : Category) (id : SymbolId)
  | enter (file : FileId) (c : Category) (u : ViewUpdate)

/-- The changes of a file in the order in which they are made. -/
def PerCategory.edits (changes : PerCategory CategoryDelta) (file : FileId) : List Edit :=
  Category.all.flatMap fun c => (changes.get c).removed.map (.takeBack file c) ++
    (changes.get c).updates.map (.enter file c)

namespace Database

theorem definitionIn?_putDefinition (db : Database) (c c' : Category) (id id' : SymbolId)
    (d : Definition) :
    (db.putDefinition c id d).definitionIn? c' id' =
      if c' = c ∧ id' = id then
        if d.contributions.isEmpty then none else some d
      else db.definitionIn? c' id' := by
  rw [definitionIn?, definitionIn?, putDefinition, PerCategory.get_modify]
  by_cases hc : c' = c <;> by_cases hid : id' = id <;>
    cases d.contributions.isEmpty <;>
    simp [hc, hid, eq_comm (a := id), OrderedMap.find?_insert, OrderedMap.find?_erase]

theorem contribution?_putDefinition (db : Database) (c c' : Category) (id id' : SymbolId)
    (d : Definition) (file : FileId) :
    (db.putDefinition c id d).contribution? c' id' file =
      if c' = c ∧ id' = id then d.contributions.find? file
      else db.contribution? c' id' file := by
  rw [contribution?, definitionIn?_putDefinition]
  by_cases h : c' = c ∧ id' = id
  · rw [if_pos h, if_pos h]
    split
    next he => exact (OrderedMap.isEmpty_iff.mp he file).symm
    next => rfl
  · rw [if_neg h, if_neg h, contribution?]

theorem contribution?_of_definitionIn? {db : Database} {c : Category} {id : SymbolId}
    {d : Definition} (h : db.definitionIn? c id = some d) (file : FileId) :
    db.contribution? c id file = d.contributions.find? file := by
  rw [contribution?, h]
  rfl

theorem contribution?_congr {a b : Database} (h : a.definitions = b.definitions) :
    a.contribution? = b.contribution? := by
  funext c id file
  simp only [contribution?, definitionIn?, h]

theorem contribution?_retract (c c' : Category) (id id' : SymbolId) (file file' : FileId)
    (state : Database × ApplyStats) :
    (retract c file state id).1.contribution? c' id' file' =
      if c' = c ∧ id' = id ∧ file' = file then none
      else state.1.contribution? c' id' file' := by
  rw [retract]
  cases hd : state.1.definitionIn? c id with
  | none =>
    by_cases h : c' = c ∧ id' = id ∧ file' = file
    · rw [if_pos h, h.1, h.2.1, contribution?, hd]
      rfl
    · rw [if_neg h]
  | some d =>
    let rest : Definition := { d with contributions := d.contributions.erase file }
    have hdb : ∀ out : Database × ApplyStats,
        out.1.definitions = (state.1.putDefinition c id rest).definitions →
        out.1.contribution? c' id' file' =
          if c' = c ∧ id' = id ∧ file' = file then none
          else state.1.contribution? c' id' file' := by
      intro out hout
      rw [contribution?_congr hout, contribution?_putDefinition]
      by_cases h : c' = c ∧ id' = id
      · rw [if_pos h, h.1, h.2, contribution?_of_definitionIn? hd]
        simp only [rest, OrderedMap.find?_erase, true_and, LawfulEqOrd.compare_eq_iff_eq,
          eq_comm (a := file)]
      · rw [if_neg h, if_neg fun h' => h ⟨h'.1, h'.2.1⟩]
    dsimp only
    split
    next => exact hdb _ rfl
    next => exact hdb _ rfl

theorem contribution?_contribute (c c' : Category) (id' : SymbolId) (file file' : FileId)
    (u : ViewUpdate) (state : Database × ApplyStats) :
    (contribute c file state u).1.contribution? c' id' file' =
      if c' = c ∧ id' = u.id ∧ file' = file then
        some (u.applyTo ((state.1.contribution? c u.id file).getD .empty))
      else state.1.contribution? c' id' file' := by
  let d := (state.1.definitionIn? c u.id).getD { id := u.id, category := c }
  have hd : ∀ f, d.contributions.find? f = state.1.contribution? c u.id f := by
    intro f
    simp only [d, contribution?]
    cases state.1.definitionIn? c u.id <;> rfl
  have hdef : (contribute c file state u).1.definitions =
      (state.1.putDefinition c u.id { d with
        contributions := d.contributions.alter file fun v =>
          some (u.applyTo (v.getD .empty)) }).definitions := rfl
  rw [contribution?_congr hdef, contribution?_putDefinition]
  by_cases h : c' = c ∧ id' = u.id
  · rw [if_pos h, h.1, h.2, OrderedMap.find?_alter, hd, hd]
    simp only [true_and, LawfulEqOrd.compare_eq_iff_eq]
  · rw [if_neg h, if_neg fun h' => h ⟨h'.1, h'.2.1⟩]

theorem contribution?_retractAll (c c' : Category) (id' : SymbolId) (file file' : FileId)
    (ids : List SymbolId) (state : Database × ApplyStats) :
    (ids.foldl (retract c file) state).1.contribution? c' id' file' =
      if c' = c ∧ file' = file ∧ id' ∈ ids then none
      else state.1.contribution? c' id' file' := by
  induction ids generalizing state with
  | nil => simp
  | cons id rest ih =>
    rw [List.foldl_cons, ih, contribution?_retract]
    by_cases hc : c' = c <;> by_cases hf : file' = file <;> by_cases hi : id' = id <;>
      simp [hc, hf, hi]

theorem contribution?_contributeAll (c c' : Category) (id' : SymbolId) (file file' : FileId)
    (updates : List ViewUpdate) (state : Database × ApplyStats) :
    (updates.foldl (contribute c file) state).1.contribution? c' id' file' =
      if c' = c ∧ file' = file then
        (updates.filter fun u => u.id = id').foldl (fun v u => some (u.applyTo (v.getD .empty)))
          (state.1.contribution? c id' file)
      else state.1.contribution? c' id' file' := by
  induction updates generalizing state with
  | nil =>
    split
    next h => rw [h.1, h.2]; rfl
    next => rfl
  | cons u rest ih =>
    rw [List.foldl_cons, ih, contribution?_contribute, contribution?_contribute]
    by_cases h : c' = c ∧ file' = file
    · rw [if_pos h, if_pos h]
      by_cases hu : u.id = id'
      · simp [hu]
      · simp [hu, Ne.symm hu]
    · rw [if_neg h, if_neg h, if_neg fun h' => h ⟨h'.1, h'.2.2⟩]

theorem contribution?_applyCategory (c c' : Category) (id : SymbolId) (file file' : FileId)
    (d : CategoryDelta) (state : Database × ApplyStats) :
    (applyCategory file state (c, d)).1.contribution? c' id file' =
      if c' = c ∧ file' = file then d.viewAfter id (state.1.contribution? c id file)
      else state.1.contribution? c' id file' := by
  rw [applyCategory, contribution?_contributeAll, contribution?_retractAll, contribution?_retractAll,
    CategoryDelta.viewAfter]
  by_cases h : c' = c ∧ file' = file
  · simp [h]
  · rw [if_neg h, if_neg h, if_neg fun h' => h ⟨h'.1, h'.2.1⟩]

def applyChanges (file : FileId) (changes : PerCategory CategoryDelta)
    (state : Database × ApplyStats) : Database × ApplyStats :=
  (Category.all.map fun c => (c, changes.get c)).foldl (applyCategory file) state

theorem contribution?_applyChanges (c : Category) (id : SymbolId) (file file' : FileId)
    (changes : PerCategory CategoryDelta) (state : Database × ApplyStats) :
    (applyChanges file changes state).1.contribution? c id file' =
      if file' = file then (changes.get c).viewAfter id (state.1.contribution? c id file)
      else state.1.contribution? c id file' := by
  simp only [applyChanges, Category.all, List.map_cons, List.map_nil, List.foldl_cons,
    List.foldl_nil, contribution?_applyCategory]
  by_cases hf : file' = file <;> cases c <;> simp [hf]

def edit (state : Database × ApplyStats) : Edit → Database × ApplyStats
  | .takeBack file c id => retract c file state id
  | .enter file c u => contribute c file state u

theorem applyChanges_eq_edits (file : FileId) (changes : PerCategory CategoryDelta)
    (state : Database × ApplyStats) :
    applyChanges file changes state = (changes.edits file).foldl edit state := by
  rw [applyChanges, List.foldl_map, PerCategory.edits, List.foldl_flatMap]
  refine congrArg (fun f => List.foldl f state Category.all) (funext fun state => funext fun c => ?_)
  rw [List.foldl_append, List.foldl_map, List.foldl_map]
  rfl

end Database

end SymbolIndex
