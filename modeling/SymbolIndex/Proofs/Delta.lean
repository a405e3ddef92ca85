import SymbolIndex.Delta

/-! What a delta does to the views of one file. A view is told apart from another only by relations
that have targets, so everything here is up to `tidy`. Main statements: `applyTo_between`, that the
difference of two views leads from one to the other, and `viewAfter_between`, the same for all the
symbols of a category. -/

namespace SymbolIndex

open Std

namespace ListDelta

variable {α : Type} [Ord α] [TransOrd α] [LawfulEqOrd α]

theorem mem_applyTo {d : ListDelta α} {s : OrderedSet α} {a : α} :
    a ∈ d.applyTo s ↔ a ∈ d.added ∨ (a ∉ d.removed ∧ a ∈ s) := by
  rw [applyTo, OrderedSet.mem_insertAll, OrderedSet.mem_eraseAll]

theorem between_applyTo (previous current : OrderedSet α) :
    (between previous current).applyTo previous = current := by
  apply OrderedSet.ext_mem
  intro a
  rw [mem_applyTo]
  simp only [between, OrderedSet.mem_difference]
  by_cases hp : a ∈ previous <;> by_cases hc : a ∈ current <;> simp [hp, hc]

theorem eq_of_between_isEmpty {previous current : OrderedSet α}
    (h : (between previous current).isEmpty = true) : previous = current := by
  have hb := between_applyTo previous current
  simp only [isEmpty, Bool.and_eq_true, List.isEmpty_iff] at h
  rw [applyTo, h.1, h.2] at hb
  exact hb

end ListDelta

namespace SymbolView

/-- The view without relations that have no targets. -/
def tidy (v : SymbolView) : SymbolView :=
  { v with relations := v.relations.filter fun _ targets => !targets.isEmpty }

theorem find?_tidy (v : SymbolView) (k : RelationKind) :
    v.tidy.relations.find? k =
      if (v.related k).isEmpty then none else some (v.related k) := by
  rw [tidy, OrderedMap.find?_filter, related]
  cases v.relations.find? k with
  | none => rfl
  | some targets => cases h : targets.isEmpty <;> simp [Option.filter, h]

theorem related_tidy (v : SymbolView) (k : RelationKind) : v.tidy.related k = v.related k := by
  rw [related, find?_tidy]
  split
  next h => exact (OrderedSet.eq_empty_of_isEmpty h).symm
  next => rfl

end SymbolView

namespace ViewUpdate

/-- A delta's effect on the targets of one relation. -/
def retarget (d : ListDelta SymbolId) (held : Option (OrderedSet SymbolId)) :
    Option (OrderedSet SymbolId) :=
  let targets := d.applyTo (held.getD ∅)
  if targets.isEmpty then none else some targets

theorem find?_applyRelations {changes : List (RelationKind × ListDelta SymbolId)}
    (h : changes.Pairwise fun a b => compare a.1 b.1 = .lt)
    (m : OrderedMap RelationKind (OrderedSet SymbolId)) (k : RelationKind) :
    (changes.foldl applyRelation m).find? k =
      match OrderedMap.lookup k changes with
      | none => m.find? k
      | some d => retarget d (m.find? k) := by
  induction changes generalizing m with
  | nil => rfl
  | cons change rest ih =>
    have hp := List.pairwise_cons.mp h
    rw [List.foldl_cons, ih hp.2, applyRelation, OrderedMap.find?_alter, OrderedMap.lookup]
    by_cases hk : compare k change.1 = .eq
    · have hnone : OrderedMap.lookup k rest = none := by
        cases hl : OrderedMap.lookup k rest with
        | none => rfl
        | some d =>
          obtain ⟨k', hk', hm⟩ := OrderedMap.exists_mem_of_find?
            (m := ⟨rest, hp.2⟩) (k := k) (v := d) hl
          have hlt := hp.1 _ hm
          rw [← LawfulEqOrd.eq_of_compare hk, hk'] at hlt
          cases hlt
      rw [hnone, if_pos hk, if_pos hk, LawfulEqOrd.eq_of_compare hk]
      rfl
    · simp [hk]

theorem find?_applyTo (u : ViewUpdate) (v : SymbolView) (k : RelationKind) :
    (u.applyTo v).relations.find? k =
      match u.relations.find? k with
      | none => v.relations.find? k
      | some d => retarget d (v.relations.find? k) :=
  find?_applyRelations u.relations.ascending v.relations k

theorem find?_between (id : SymbolId) (previous current : SymbolView) (k : RelationKind) :
    (between id previous current).relations.find? k =
      let d := ListDelta.between (previous.related k) (current.related k)
      if d.isEmpty then none else some d := by
  let f : RelationKind → Option (ListDelta SymbolId) := fun k =>
    let d := ListDelta.between (previous.related k) (current.related k)
    if d.isEmpty then none else some d
  have hf : (between id previous current).relations =
      OrderedMap.empty.insertAll (RelationKind.all.filterMap fun a => (f a).map (a, ·)) := by
    refine congrArg (fun g => OrderedMap.empty.insertAll (RelationKind.all.filterMap g))
      (funext fun k => ?_)
    simp only [f]
    split <;> rfl
  have hk : k ∈ RelationKind.all := by cases k <;> decide
  rw [hf, OrderedMap.find?_insertAll_graph, if_pos hk]
  simp [f]

theorem applyTo_between (id : SymbolId) (previous current : SymbolView) :
    (between id previous current).applyTo previous.tidy = current.tidy := by
  have hr : ((between id previous current).applyTo previous.tidy).relations =
      current.tidy.relations := by
    apply OrderedMap.ext_find?
    intro k
    rw [find?_applyTo, find?_between, SymbolView.find?_tidy, SymbolView.find?_tidy]
    by_cases hd : (ListDelta.between (previous.related k) (current.related k)).isEmpty = true
    · rw [if_pos hd, ListDelta.eq_of_between_isEmpty hd]
    · have hp : (if (previous.related k).isEmpty then none
          else some (previous.related k)).getD ∅ = previous.related k := by
        split
        next h => exact (OrderedSet.eq_empty_of_isEmpty h).symm
        next => rfl
      rw [if_neg hd]
      simp only [retarget, hp, ListDelta.between_applyTo]
  have hd := ListDelta.between_applyTo previous.declarations current.declarations
  have hu := ListDelta.between_applyTo previous.uses current.uses
  simp only [applyTo] at hr ⊢
  simp only [between, SymbolView.tidy] at hr hd hu ⊢
  rw [hr, hd, hu]

end ViewUpdate

namespace CategoryDelta

/-- What a file says about one symbol after a delta, given what it said before. Ids are taken back
first, and the updates of an id are entered one after the other. -/
def viewAfter (d : CategoryDelta) (id : SymbolId) (held : Option SymbolView) : Option SymbolView :=
  (d.updates.filter fun u => u.id = id).foldl (fun v u => some (u.applyTo (v.getD .empty)))
    (if id ∈ d.removed then none else held)

theorem updates_between (previous current : OrderedMap SymbolId SymbolView) (id : SymbolId) :
    (between previous current).updates.filter (fun u => u.id = id) =
      ((current.find? id).map fun v =>
        ViewUpdate.between id ((previous.find? id).getD .empty) v).toList := by
  have hf : ∀ e : SymbolId × SymbolView,
      (ViewUpdate.between e.1 ((previous.find? e.1).getD .empty) e.2).id = e.1 := fun _ => rfl
  rw [between, List.filter_map]
  simp only [Function.comp_def, hf]
  rw [OrderedMap.filter_key]
  cases current.find? id <;> rfl

theorem find?_of_mem_removed {previous current : OrderedMap SymbolId SymbolView} {id : SymbolId}
    (h : id ∈ (between previous current).removed) : current.find? id = none := by
  have := (List.mem_filter.mp h).2
  simpa [OrderedMap.contains] using this

theorem viewAfter_between (previous current : OrderedMap SymbolId SymbolView) (id : SymbolId) :
    (between previous current).viewAfter id ((previous.find? id).map SymbolView.tidy) =
      (current.find? id).map SymbolView.tidy := by
  rw [viewAfter, updates_between]
  cases hc : current.find? id with
  | none =>
    have hr : id ∈ (between previous current).removed ∨ previous.find? id = none := by
      cases hp : previous.find? id with
      | none => exact .inr rfl
      | some v =>
        refine .inl (List.mem_filter.mpr ⟨OrderedMap.mem_keys_iff.mpr (by simp [hp]), ?_⟩)
        simp [OrderedMap.contains, hc]
    rcases hr with hr | hr <;> simp [hr]
  | some v =>
    have hr : id ∉ (between previous current).removed := by
      intro h
      rw [find?_of_mem_removed h] at hc
      cases hc
    have ht : ((previous.find? id).map SymbolView.tidy).getD .empty =
        ((previous.find? id).getD .empty).tidy := by
      cases previous.find? id <;> rfl
    simp [hr, ht, ViewUpdate.applyTo_between]

theorem viewAfter_removal (previous : OrderedMap SymbolId SymbolView) (id : SymbolId) :
    (removal previous).viewAfter id ((previous.find? id).map SymbolView.tidy) = none := by
  rw [viewAfter]
  cases hp : previous.find? id with
  | none => exact ite_self none
  | some v =>
    have hr : id ∈ (removal previous).removed := OrderedMap.mem_keys_iff.mpr (by simp [hp])
    rw [if_pos hr]
    rfl

end CategoryDelta

end SymbolIndex
