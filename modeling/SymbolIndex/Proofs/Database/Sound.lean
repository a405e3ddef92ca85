import SymbolIndex.Proofs.Database.Contributions

/-! Soundness of a database: no definition is without contributions, and the dispatch table names
exactly the known ids, each with a category that holds it. It is kept by every delta, however it was
made up. -/

namespace SymbolIndex

open Std

structure Database.Sound (db : Database) : Prop where
  named : ∀ c id d, db.definitionIn? c id = some d → d.id = id ∧ d.category = c
  backed : ∀ c id d, db.definitionIn? c id = some d → d.contributions.isEmpty = false
  answered : ∀ c id, db.categoryOf? id = some c → (db.definitionIn? c id).isSome = true
  dispatched : ∀ c id, id.isUnknown = false → (db.definitionIn? c id).isSome = true →
    (db.categoryOf? id).isSome = true
  unknown : db.categoryOf? .unknown = none

namespace Database

theorem sound_empty : empty.Sound where
  named c id d h := by cases c <;> cases h
  backed c id d h := by cases c <;> cases h
  answered c id h := by cases h
  dispatched c id _ h := by cases c <;> cases h
  unknown := rfl

theorem definitionIn?_congr {a b : Database} (h : a.definitions = b.definitions) :
    a.definitionIn? = b.definitionIn? := by
  funext c id
  simp only [definitionIn?, h]

theorem Sound.congr {a b : Database} (h : a.Sound) (hd : b.definitions = a.definitions)
    (hk : b.dispatch = a.dispatch) : b.Sound := by
  have hdef := definitionIn?_congr hd
  have hcat : b.categoryOf? = a.categoryOf? := by
    funext id
    rw [categoryOf?, categoryOf?, hk]
  exact ⟨hdef ▸ h.named, hdef ▸ h.backed, hdef ▸ hcat ▸ h.answered, hdef ▸ hcat ▸ h.dispatched,
    hcat ▸ h.unknown⟩

theorem Sound.isSome_categoryOf? {db : Database} (h : db.Sound) (id : SymbolId) :
    (db.categoryOf? id).isSome = true ↔
      id ≠ .unknown ∧ ∃ c, (db.definitionIn? c id).isSome = true := by
  constructor
  · intro hc
    obtain ⟨c, hc⟩ := Option.isSome_iff_exists.mp hc
    refine ⟨?_, c, h.answered c id hc⟩
    rintro rfl
    rw [h.unknown] at hc
    cases hc
  · rintro ⟨hu, c, hc⟩
    exact h.dispatched c id (decide_eq_false hu) hc

/-- The dispatch table after the definition of `id` in `c` went away. -/
theorem find?_redispatch (db : Database) (c : Category) (id id' : SymbolId) :
    (db.redispatch c id).find? id' =
      if id' = id ∧ db.dispatch.find? id = some c then
        Category.all.find? fun d => (db.definitionIn? d id).isSome
      else db.dispatch.find? id' := by
  have hc : ∀ d, (db.definitions.get d).contains id = (db.definitionIn? d id).isSome :=
    fun _ => rfl
  rw [redispatch]
  simp only [hc]
  by_cases hd : db.dispatch.find? id = some c
  · rw [if_pos hd]
    cases hf : Category.all.find? fun d => (db.definitionIn? d id).isSome with
    | none =>
      by_cases hi : id' = id
      · simp [hi, hd, OrderedMap.find?_erase]
      · simp [hi, Ne.symm hi, OrderedMap.find?_erase]
    | some other =>
      by_cases hi : id' = id
      · simp [hi, hd, OrderedMap.find?_insert]
      · simp [hi, OrderedMap.find?_insert]
  · rw [if_neg hd, if_neg fun h => hd h.2]

/-- The dispatch table after an entry for `id` in `c`: the first category keeps the id. -/
def claimId (dispatch : OrderedMap SymbolId Category) (c : Category) (id : SymbolId) :
    OrderedMap SymbolId Category :=
  if id.isUnknown then dispatch else dispatch.insertNew id c

theorem find?_claimId (dispatch : OrderedMap SymbolId Category) (c : Category)
    (id id' : SymbolId) :
    (claimId dispatch c id).find? id' =
      if id' = id ∧ id.isUnknown = false ∧ dispatch.find? id = none then some c
      else dispatch.find? id' := by
  rw [claimId, OrderedMap.insertNew, OrderedMap.contains]
  by_cases hu : id.isUnknown = true
  · simp [hu]
  · cases hd : dispatch.find? id with
    | some e => simp [hu]
    | none =>
      by_cases hi : id' = id
      · simp [hu, hi, OrderedMap.find?_insert]
      · simp [hu, hi, OrderedMap.find?_insert]

theorem claimId_of_isSome {dispatch : OrderedMap SymbolId Category} {c : Category} {id : SymbolId}
    (h : id.isUnknown = false → (dispatch.find? id).isSome = true) :
    claimId dispatch c id = dispatch := by
  rw [claimId]
  split
  next => rfl
  next hu =>
    rw [OrderedMap.insertNew, OrderedMap.contains, if_pos (h (Bool.eq_false_iff.mpr hu))]

/-- A retraction leaves the database alone, drops one of several contributions, or drops the whole
definition and dispatches its id anew. -/
theorem retract_cases (c : Category) (file : FileId) (state : Database × ApplyStats)
    (id : SymbolId) :
    (state.1.definitionIn? c id = none ∧ (retract c file state id).1 = state.1) ∨
    ∃ d rest, state.1.definitionIn? c id = some d ∧ rest.id = d.id ∧ rest.category = d.category ∧
      ((rest.contributions.isEmpty = false ∧
        (retract c file state id).1 = state.1.putDefinition c id rest) ∨
      (rest.contributions.isEmpty = true ∧
        (retract c file state id).1 = { state.1.putDefinition c id rest with
          dispatch := (state.1.putDefinition c id rest).redispatch c id })) := by
  rw [retract]
  cases hd : state.1.definitionIn? c id with
  | none => exact .inl ⟨rfl, rfl⟩
  | some d =>
    refine .inr ⟨d, { d with contributions := d.contributions.erase file }, rfl, rfl, rfl, ?_⟩
    cases he : (d.contributions.erase file).isEmpty with
    | false => exact .inl ⟨rfl, by simp [he]⟩
    | true => exact .inr ⟨rfl, by simp [he]⟩

theorem Sound.retract_absent {state : Database × ApplyStats} (h : state.1.Sound) {c : Category}
    {file : FileId} {id : SymbolId} (hnone : state.1.contribution? c id file = none) :
    Database.retract c file state id = state := by
  rw [Database.retract]
  cases hd : state.1.definitionIn? c id with
  | none => rfl
  | some d =>
    rw [contribution?_of_definitionIn? hd] at hnone
    have hbacked := h.backed c id d hd
    have hput : state.1.putDefinition c id d = state.1 := by
      have hsame : state.1.definitions.modify c (·.insert id d) = state.1.definitions :=
        PerCategory.ext_get fun e => by
          rw [PerCategory.get_modify]
          split
          next he => exact he ▸ OrderedMap.insert_of_find? hd
          next => rfl
      simp only [putDefinition, hbacked, Bool.false_eq_true, if_false, hsame]
    simp only [OrderedMap.erase_of_find? hnone, hbacked, Bool.false_eq_true, if_false]
    exact Prod.ext hput rfl

/-- A backed definition is put in, and its category answers for an id that none answered for. -/
theorem Sound.of_entered {db db' : Database} (h : db.Sound) {c : Category} {id : SymbolId}
    {d : Definition} (hid : d.id = id) (hc : d.category = c) (he : d.contributions.isEmpty = false)
    (hdef : ∀ c' id', db'.definitionIn? c' id' =
      if c' = c ∧ id' = id then some d else db.definitionIn? c' id')
    (hcat : ∀ id', db'.categoryOf? id' =
      if id' = id ∧ id.isUnknown = false ∧ db.categoryOf? id = none then some c
      else db.categoryOf? id') : db'.Sound := by
  refine ⟨fun c' id' d' h' => ?_, fun c' id' d' h' => ?_, fun c' id' h' => ?_,
    fun c' id' hu h' => ?_, ?_⟩
  · rw [hdef] at h'
    split at h'
    next hci => cases h'; exact ⟨hid.trans hci.2.symm, hc.trans hci.1.symm⟩
    next => exact h.named c' id' d' h'
  · rw [hdef] at h'
    split at h'
    next => cases h'; exact he
    next => exact h.backed c' id' d' h'
  · rw [hcat] at h'
    rw [hdef]
    split
    next => rfl
    next hn =>
      split at h'
      next hi => exact absurd ⟨(Option.some.inj h').symm, hi.1⟩ hn
      next => exact h.answered c' id' h'
  · rw [hdef] at h'
    rw [hcat]
    split
    next => rfl
    next hn =>
      split at h'
      next hci =>
        rw [hci.2] at hu hn ⊢
        exact Option.isSome_iff_ne_none.mpr fun hnone => hn ⟨rfl, hu, hnone⟩
      next => exact h.dispatched c' id' hu h'
  · rw [hcat, if_neg]
    · exact h.unknown
    · rintro ⟨hi, hu, _⟩
      rw [← hi] at hu
      cases hu

theorem Sound.enter {db : Database} (h : db.Sound) {c : Category} {id : SymbolId} {d : Definition}
    (hid : d.id = id) (hc : d.category = c) (he : d.contributions.isEmpty = false) :
    Sound { db.putDefinition c id d with dispatch := claimId db.dispatch c id } := by
  refine h.of_entered hid hc he (fun c' id' => ?_) (find?_claimId db.dispatch c id)
  have hput := definitionIn?_putDefinition db c c' id id' d
  rw [he] at hput
  exact hput

/-- A definition is taken out, and the first category left that has the id answers for it. -/
theorem Sound.of_dropped {db db' : Database} (h : db.Sound) {c : Category} {id : SymbolId}
    (hdef : ∀ c' id', db'.definitionIn? c' id' =
      if c' = c ∧ id' = id then none else db.definitionIn? c' id')
    (hcat : ∀ id', db'.categoryOf? id' =
      if id' = id ∧ db.categoryOf? id = some c then
        Category.all.find? fun e => (db'.definitionIn? e id).isSome
      else db.categoryOf? id') : db'.Sound := by
  have hsome : ∀ c' id' d', db'.definitionIn? c' id' = some d' →
      db.definitionIn? c' id' = some d' := by
    intro c' id' d' h'
    rw [hdef] at h'
    split at h'
    next => cases h'
    next => exact h'
  refine ⟨fun c' id' d' h' => h.named c' id' d' (hsome c' id' d' h'),
    fun c' id' d' h' => h.backed c' id' d' (hsome c' id' d' h'), fun c' id' h' => ?_,
    fun c' id' hu h' => ?_, ?_⟩
  · rw [hcat] at h'
    split at h'
    next hci =>
      rw [hci.1]
      exact List.find?_some (p := fun e => (db'.definitionIn? e id).isSome) h'
    next hci =>
      have hn : ¬ (c' = c ∧ id' = id) := by
        rintro ⟨rfl, rfl⟩
        exact hci ⟨rfl, h'⟩
      rw [hdef, if_neg hn]
      exact h.answered c' id' h'
  · rw [hcat]
    split
    next hci =>
      rw [hci.1] at h'
      exact List.find?_isSome.mpr ⟨c', Category.mem_all c', h'⟩
    next =>
      obtain ⟨d', hd'⟩ := Option.isSome_iff_exists.mp h'
      exact h.dispatched c' id' hu (Option.isSome_iff_exists.mpr ⟨d', hsome c' id' d' hd'⟩)
  · rw [hcat, if_neg]
    · exact h.unknown
    · rintro ⟨hi, hc⟩
      rw [← hi, h.unknown] at hc
      cases hc

theorem Sound.drop {db : Database} (h : db.Sound) {c : Category} {id : SymbolId}
    {d : Definition} (he : d.contributions.isEmpty = true) :
    Sound { db.putDefinition c id d with
      dispatch := (db.putDefinition c id d).redispatch c id } := by
  refine h.of_dropped (fun c' id' => ?_) (find?_redispatch (db.putDefinition c id d) c id)
  have hput := definitionIn?_putDefinition db c c' id id' d
  rw [he] at hput
  exact hput

theorem Sound.retract {state : Database × ApplyStats} (h : state.1.Sound) (c : Category)
    (file : FileId) (id : SymbolId) : (retract c file state id).1.Sound := by
  rcases retract_cases c file state id with ⟨_, hr⟩ | ⟨d, rest, hd, hid, hc, hr⟩
  · rw [hr]
    exact h
  · have hn := h.named c id d hd
    rcases hr with ⟨he, hr⟩ | ⟨he, hr⟩
    · have hk : claimId state.1.dispatch c id = state.1.dispatch :=
        claimId_of_isSome fun hu => h.dispatched c id hu (by rw [hd]; rfl)
      have hs := h.enter (hid.trans hn.1) (hc.trans hn.2) he
      rw [hk] at hs
      rw [hr]
      exact hs
    · rw [hr]
      exact h.drop he

theorem Sound.contribute {state : Database × ApplyStats} (h : state.1.Sound) (c : Category)
    (file : FileId) (u : ViewUpdate) : (contribute c file state u).1.Sound := by
  let d := (state.1.definitionIn? c u.id).getD { id := u.id, category := c }
  have hn : d.id = u.id ∧ d.category = c := by
    cases hd : state.1.definitionIn? c u.id with
    | none => simp [d, hd]
    | some e => simpa [d, hd] using h.named c u.id e hd
  have he : (d.contributions.alter file fun v =>
      some (u.applyTo (v.getD .empty))).isEmpty = false := OrderedMap.isEmpty_insert ..
  exact h.enter (d := { d with
    contributions := d.contributions.alter file fun v =>
      some (u.applyTo (v.getD .empty)) }) hn.1 hn.2 he

theorem Sound.edit {state : Database × ApplyStats} (h : state.1.Sound) (e : Edit) :
    (Database.edit state e).1.Sound := by
  cases e with
  | takeBack file c id => exact h.retract c file id
  | enter file c u => exact h.contribute c file u

theorem Sound.foldl_edit {state : Database × ApplyStats} (h : state.1.Sound) (edits : List Edit) :
    (edits.foldl Database.edit state).1.Sound := by
  induction edits generalizing state with
  | nil => exact h
  | cons e rest ih => exact ih (h.edit e)

end Database

end SymbolIndex
