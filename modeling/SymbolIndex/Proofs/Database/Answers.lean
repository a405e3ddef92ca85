import SymbolIndex.Database.Query
import SymbolIndex.Proofs.Database.Convergence

/-! Answers of a database after a history of operations. Every answer is read off the latest
snapshots: lists of places are complete, free of repetition and ascending, and a definition is
looked for in the order in which the paths were met. Two histories that agree on the latest
snapshots give the same answers. -/

namespace SymbolIndex

open Std

section Ascending

variable {α : Type} [Ord α]

/-- Strictly ascending, so that no two elements are equal. -/
def Ascending (items : List α) : Prop := items.Pairwise fun a b => compare a b = .lt

/-- Lists whose elements are equal place by place, whatever their spelling. -/
inductive Agree : List α → List α → Prop
  | nil : Agree [] []
  | cons {a b : α} {as bs : List α} (head : compare a b = .eq) (tail : Agree as bs) :
    Agree (a :: as) (b :: bs)

theorem Agree.eq [LawfulEqOrd α] {as bs : List α} (h : Agree as bs) : as = bs := by
  induction h with
  | nil => rfl
  | cons head _ ih => rw [LawfulEqOrd.eq_of_compare head, ih]

theorem mem_sorted {items : List α} {a : α} : a ∈ sorted items ↔ a ∈ items := List.mem_mergeSort

theorem ascending_sorted [TransOrd α] {items : List α}
    (h : items.Pairwise fun a b => compare a b ≠ .eq) : Ascending (sorted items) := by
  have htrans : ∀ a b c : α, (compare a b).isLE = true → (compare b c).isLE = true →
      (compare a c).isLE = true := fun a b c => TransCmp.isLE_trans
  have htotal : ∀ a b : α, ((compare a b).isLE || (compare b a).isLE) = true := by
    intro a b
    rw [OrientedOrd.eq_swap (a := b)]
    cases compare a b <;> rfl
  have hle : (sorted items).Pairwise fun a b => (compare a b).isLE = true :=
    List.pairwise_mergeSort htrans htotal items
  have hne : (sorted items).Pairwise fun a b => compare a b ≠ .eq :=
    (List.mergeSort_perm items _).symm.pairwise h fun hab hba => hab (OrientedCmp.eq_symm hba)
  refine hle.imp₂ (fun a b hab hne => ?_) hne
  cases hc : compare a b with
  | lt => rfl
  | eq => exact absurd hc hne
  | gt => rw [hc] at hab; cases hab

theorem agree_of_ascending [TransOrd α] {as bs : List α} (ha : Ascending as)
    (hb : Ascending bs) (hab : ∀ a ∈ as, ∃ b ∈ bs, compare a b = .eq)
    (hba : ∀ b ∈ bs, ∃ a ∈ as, compare a b = .eq) : Agree as bs := by
  induction as generalizing bs with
  | nil =>
    cases bs with
    | nil => exact .nil
    | cons b rest => obtain ⟨a, ha, _⟩ := hba b (by simp); cases ha
  | cons a as ih =>
    cases bs with
    | nil => obtain ⟨b, hb, _⟩ := hab a (by simp); cases hb
    | cons b bs =>
      have ha' := List.pairwise_cons.mp ha
      have hb' := List.pairwise_cons.mp hb
      have hhead : compare a b = .eq := by
        obtain ⟨b', hb₁, hb₂⟩ := hab a (by simp)
        obtain ⟨a', ha₁, ha₂⟩ := hba b (by simp)
        rcases List.mem_cons.mp hb₁ with rfl | hb₁
        · exact hb₂
        rcases List.mem_cons.mp ha₁ with rfl | ha₁
        · exact ha₂
        have hlt : compare a b = .lt := TransCmp.lt_of_lt_of_eq (ha'.1 a' ha₁) ha₂
        have hgt : compare b a = .lt :=
          TransCmp.lt_of_lt_of_eq (hb'.1 b' hb₁) (OrientedCmp.eq_symm hb₂)
        rw [OrientedOrd.eq_swap, hlt] at hgt
        cases hgt
      refine .cons hhead (ih ha'.2 hb'.2 (fun x hx => ?_) fun y hy => ?_)
      · obtain ⟨y, hy, hxy⟩ := hab x (List.mem_cons_of_mem _ hx)
        rcases List.mem_cons.mp hy with rfl | hy
        · have hax := ha'.1 x hx
          rw [TransCmp.congr_right hxy, hhead] at hax
          cases hax
        · exact ⟨y, hy, hxy⟩
      · obtain ⟨x, hx, hxy⟩ := hba y (List.mem_cons_of_mem _ hy)
        rcases List.mem_cons.mp hx with rfl | hx
        · have hby := hb'.1 y hy
          rw [← TransCmp.congr_left hhead, hxy] at hby
          cases hby
        · exact ⟨x, hx, hxy⟩

end Ascending

namespace Database

/-- The contributions to a symbol by path, in the order in which the paths were met. -/
def contributors (db : Database) (c : Category) (id : SymbolId) : List (Path × SymbolView) :=
  db.paths.filterMap fun p => (db.contributionOf? c id p).map (p, ·)

theorem filterMap_range_getElem? {α : Type} (items : List α) :
    (List.range items.length).filterMap (fun i => items[i]?) = items := by
  induction items with
  | nil => rfl
  | cons a rest ih =>
    rw [List.length_cons, List.range_succ_eq_map, List.filterMap_cons, List.filterMap_map]
    exact congrArg (a :: ·) ih

theorem Consistent.contributors_eq {db : Database} (h : db.Consistent) {c : Category}
    {id : SymbolId} {d : Definition} (hd : db.definitionIn? c id = some d) :
    d.contributions.entries.filterMap (fun e => (db.pathOf? e.1).map (·, e.2)) =
      db.contributors c id := by
  have hlt : ∀ file, (d.contributions.find? file).isSome = true → file < db.paths.length := by
    intro file hf
    obtain ⟨v, hv⟩ := Option.isSome_iff_exists.mp hf
    obtain ⟨p, _, hp, _⟩ := h.contributor hd hv
    obtain ⟨q, hq, _⟩ := same_of_fileId? hp
    exact (List.getElem?_eq_some_iff.mp hq).choose
  rw [OrderedMap.entries_eq_range hlt, List.filterMap_filterMap, contributors]
  conv => rhs; rw [← filterMap_range_getElem? db.paths, List.filterMap_filterMap]
  refine congrArg (fun f => List.filterMap f _) (funext fun file => ?_)
  rw [← contribution?_of_definitionIn? hd]
  cases hp : db.paths[file]? with
  | none => cases db.contribution? c id file <;> simp [pathOf?, hp]
  | some p =>
    have hf := h.distinct.fileId?_eq hp (Path.same_self p)
    rw [Option.bind_some, Database.contributionOf?, hf, Option.bind_some]
    cases db.contribution? c id file with
    | none => rfl
    | some v => simp [pathOf?, hp]

theorem mem_contributors {db : Database} {c : Category} {id : SymbolId} {p : Path}
    {v : SymbolView} :
    (p, v) ∈ db.contributors c id ↔ p ∈ db.paths ∧ db.contributionOf? c id p = some v := by
  rw [contributors, List.mem_filterMap]
  constructor
  · rintro ⟨q, hq, hv⟩
    obtain ⟨w, hw, he⟩ := Option.map_eq_some_iff.mp hv
    cases he
    exact ⟨hq, hw⟩
  · rintro ⟨hp, hv⟩
    exact ⟨p, hp, by rw [hv]; rfl⟩

/-- The places that a symbol's contributions name: `items` of each view, put in its file. -/
def places {β γ : Type} [Ord β] (items : SymbolView → OrderedSet β) (place : Path → β → γ)
    (contributors : List (Path × SymbolView)) : List γ :=
  contributors.flatMap fun e => (items e.2).toList.map (place e.1)

theorem Consistent.places_eq {db : Database} (h : db.Consistent) {c : Category} {id : SymbolId}
    {d : Definition} (hd : db.definitionIn? c id = some d) {β γ : Type} [Ord β]
    (items : SymbolView → OrderedSet β) (place : Path → β → γ) :
    (d.contributions.entries.flatMap fun e => (items e.2).toList.map (e.1, ·)).filterMap
        (fun e => (db.pathOf? e.1).map fun p => place p e.2) =
      places items place (db.contributors c id) := by
  rw [← h.contributors_eq hd, places, List.filterMap_flatMap]
  generalize d.contributions.entries = entries
  induction entries with
  | nil => rfl
  | cons e rest ih =>
    rw [List.flatMap_cons, ih, List.filterMap_map]
    cases hp : db.pathOf? e.1 with
    | none => simp [hp]
    | some p =>
      have hplaced : ((fun e : FileId × β => (db.pathOf? e.1).map fun p => place p e.2) ∘
          fun b => (e.1, b)) = some ∘ place p := funext fun b => by
        rw [Function.comp_apply, hp]
        rfl
      rw [hplaced, List.filterMap_eq_map, List.filterMap_cons, hp]
      rfl

section Places

variable {β γ : Type} [Ord β] [Ord γ] [TransOrd γ]

theorem Consistent.ascending_places {db : Database} (h : db.Consistent) (c : Category)
    (id : SymbolId) (items : SymbolView → OrderedSet β) {place : Path → β → γ}
    (hplace : ∀ p q a b, compare (place p a) (place q b) = (compare p q).then (compare a b)) :
    Ascending (sorted (places items place (db.contributors c id))) := by
  refine ascending_sorted (List.pairwise_flatMap.mpr ⟨fun e _ => ?_, ?_⟩)
  · rw [List.pairwise_map]
    refine List.pairwise_map.mpr ((items e.2).members.ascending.imp fun hab hc => ?_)
    rw [hplace, Ordering.then_eq_eq, hab] at hc
    cases hc.2
  · rw [contributors, List.pairwise_filterMap]
    refine h.distinct.imp fun hpq e he f hf x hx y hy hxy => ?_
    obtain ⟨_, _, rfl⟩ := Option.map_eq_some_iff.mp he
    obtain ⟨_, _, rfl⟩ := Option.map_eq_some_iff.mp hf
    obtain ⟨a, _, rfl⟩ := List.mem_map.mp hx
    obtain ⟨b, _, rfl⟩ := List.mem_map.mp hy
    rw [hplace, Ordering.then_eq_eq, Path.compare_eq_iff, hpq] at hxy
    cases hxy.1

end Places

/-- The first definition among the contributions, by the order of their paths. -/
theorem definition_eq (db : Database) (entries : List (FileId × SymbolView))
    (h : ∀ e ∈ entries, ∃ p, db.pathOf? e.1 = some p) :
    ((entries.findSome? fun e => (e.2.info.filter SymbolInfo.isDefinition).map (e.1, ·)).bind
        fun found => found.2.spell.bind (db.location? found.1)) =
      (entries.filterMap fun e => (db.pathOf? e.1).map (·, e.2)).findSome?
        fun e => (e.2.info.bind (·.spell)).map (⟨e.1, ·⟩) := by
  induction entries with
  | nil => rfl
  | cons e rest ih =>
    obtain ⟨p, hp⟩ := h e (by simp)
    have hrest := ih fun e he => h e (List.mem_cons_of_mem _ he)
    rw [List.findSome?_cons, List.filterMap_cons, hp, Option.map_some, List.findSome?_cons]
    cases hi : e.2.info with
    | none => exact hrest
    | some info =>
      cases hs : info.spell with
      | none => simpa [SymbolInfo.isDefinition, hs, Option.filter] using hrest
      | some span => simp [SymbolInfo.isDefinition, hs, Option.filter, location?, hp]

theorem Consistent.definitionOf?_eq {db : Database} (h : db.Consistent) {c : Category}
    {id : SymbolId} {d : Definition} (hc : db.categoryOf? id = some c)
    (hd : db.definitionIn? c id = some d) :
    db.definitionOf? id =
      (db.contributors c id).findSome? fun e => (e.2.info.bind (·.spell)).map (⟨e.1, ·⟩) := by
  have hpath : ∀ e ∈ d.contributions.entries, ∃ p, db.pathOf? e.1 = some p := by
    intro e he
    obtain ⟨p, _, hp, _⟩ := h.contributor hd (OrderedMap.find?_eq_some_of_mem he)
    obtain ⟨q, hq, _⟩ := same_of_fileId? hp
    exact ⟨q, hq⟩
  rw [← h.contributors_eq hd, ← definition_eq db _ hpath, definitionOf?, definition?, hc,
    Option.bind_some, hd]
  rfl

theorem mem_related {d : Definition} {k : RelationKind} {target : SymbolId} :
    target ∈ (d.related k).toList ↔
      ∃ file v, d.contributions.find? file = some v ∧ target ∈ v.related k := by
  rw [OrderedSet.mem_toList, Definition.related, OrderedSet.ofList, OrderedSet.mem_insertAll,
    or_iff_left (OrderedSet.not_mem_empty target), OrderedMap.values, List.mem_flatMap]
  constructor
  · rintro ⟨v, hv, ht⟩
    obtain ⟨⟨file, w⟩, he, rfl⟩ := List.mem_map.mp hv
    exact ⟨file, w, OrderedMap.mem_entries_iff.mp he, OrderedSet.mem_toList.mp ht⟩
  · rintro ⟨file, v, hv, ht⟩
    exact ⟨v, List.mem_map.mpr ⟨(file, v), OrderedMap.mem_entries_iff.mpr hv, rfl⟩,
      OrderedSet.mem_toList.mpr ht⟩

/-- An id is answered for unless it is unknown or no file on record mentions it. -/
theorem Consistent.categoryOf?_eq_none_iff {db : Database} (h : db.Consistent) (id : SymbolId) :
    db.categoryOf? id = none ↔
      id.isUnknown = true ∨ ∀ c p, db.contributionOf? c id p = none := by
  constructor
  · intro hnone
    by_cases hu : id.isUnknown = true
    · exact .inl hu
    refine .inr fun c p => ?_
    cases hv : db.contributionOf? c id p with
    | none => rfl
    | some v =>
      obtain ⟨file, _, hv⟩ := Option.bind_eq_some_iff.mp hv
      obtain ⟨d, hd, _⟩ := Option.bind_eq_some_iff.mp hv
      have := h.sound.dispatched c id (Bool.eq_false_iff.mpr hu) (by rw [hd]; rfl)
      rw [hnone] at this
      cases this
  · intro hnone
    cases hc : db.categoryOf? id with
    | none => rfl
    | some c =>
      rcases hnone with hu | hnone
      · rw [show id = .unknown from of_decide_eq_true hu, h.sound.unknown] at hc
        cases hc
      · obtain ⟨d, hd⟩ := Option.isSome_iff_exists.mp (h.sound.answered c id hc)
        obtain ⟨file, v, hv⟩ :=
          OrderedMap.exists_of_isEmpty_eq_false (h.sound.backed c id d hd)
        obtain ⟨p, _, hp, _⟩ := h.contributor hd hv
        have hnp := hnone c p
        rw [Database.contributionOf?, hp, Option.bind_some, contribution?_of_definitionIn? hd,
          hv] at hnp
        cases hnp

end Database

def viewOf? (ops : List DatabaseOp) (c : Category) (id : SymbolId) (p : Path) :
    Option SymbolView :=
  (latest? ops p).bind fun s => s.find? c id

/-- The answers about a symbol as the latest snapshots of a history give them, for the category
that answers for it. -/
structure Database.Answers (db : Database) (ops : List DatabaseOp) (id : SymbolId)
    (c : Category) : Prop where
  held : ∃ p ∈ met ops, (viewOf? ops c id p).isSome = true
  uses : Ascending (db.usesOf id)
  mem_uses : ∀ p u, ⟨p, u⟩ ∈ db.usesOf id ↔
    p ∈ met ops ∧ ∃ v, viewOf? ops c id p = some v ∧ u ∈ v.uses
  declarations : Ascending (db.declarationsOf id)
  mem_declarations : ∀ p s, ⟨p, s⟩ ∈ db.declarationsOf id ↔
    p ∈ met ops ∧ ∃ v, viewOf? ops c id p = some v ∧ s ∈ v.declarations
  related : ∀ k, Ascending (db.related id k)
  mem_related : ∀ k target, target ∈ db.related id k ↔
    ∃ p ∈ met ops, ∃ v, viewOf? ops c id p = some v ∧ target ∈ v.related k
  definition : db.definitionOf? id = (met ops).findSome? fun p =>
    (((viewOf? ops c id p).bind (·.info)).bind (·.spell)).map (⟨p, ·⟩)

namespace Database

variable {db : Database} {ops : List DatabaseOp} {c : Category} {id : SymbolId}

theorem Reflects.contributionOf? (h : db.Reflects ops) (c : Category) (id : SymbolId) (p : Path) :
    db.contributionOf? c id p = (viewOf? ops c id p).map SymbolView.tidy := by
  rw [h.consistent.contributionOf?, h.snapshot?, viewOf?]

theorem Reflects.mem_places (h : db.Reflects ops) {β γ : Type} [Ord β] [TransOrd β]
    [LawfulEqOrd β] {items : SymbolView → OrderedSet β} {place : Path → β → γ}
    (htidy : ∀ v : SymbolView, items v.tidy = items v)
    (hplace : ∀ p q a b, place p a = place q b → p = q ∧ a = b) (p : Path) (a : β) :
    place p a ∈ places items place (db.contributors c id) ↔
      p ∈ met ops ∧ ∃ v, viewOf? ops c id p = some v ∧ a ∈ items v := by
  rw [places, List.mem_flatMap]
  constructor
  · rintro ⟨⟨q, w⟩, hq, ha⟩
    obtain ⟨b, hb, he⟩ := List.mem_map.mp ha
    obtain ⟨rfl, rfl⟩ := hplace _ _ _ _ he
    obtain ⟨hp, hw⟩ := mem_contributors.mp hq
    rw [h.contributionOf?] at hw
    obtain ⟨v, hv, rfl⟩ := Option.map_eq_some_iff.mp hw
    rw [htidy] at hb
    exact ⟨h.paths ▸ hp, v, hv, OrderedSet.mem_toList.mp hb⟩
  · rintro ⟨hp, v, hv, ha⟩
    refine ⟨(p, v.tidy), mem_contributors.mpr ⟨h.paths ▸ hp, ?_⟩, ?_⟩
    · rw [h.contributionOf?, hv]
      rfl
    · exact List.mem_map.mpr ⟨a, OrderedSet.mem_toList.mpr (by rw [htidy]; exact ha), rfl⟩

theorem Reflects.exists_definition (h : db.Reflects ops) (hc : db.categoryOf? id = some c) :
    ∃ d, db.definitionIn? c id = some d ∧ db.definition? id = some d := by
  obtain ⟨d, hd⟩ := Option.isSome_iff_exists.mp (h.consistent.sound.answered c id hc)
  exact ⟨d, hd, by rw [definition?, hc, Option.bind_some, hd]⟩

theorem Reflects.exists_contribution_iff (h : db.Reflects ops) {d : Definition}
    (hd : db.definitionIn? c id = some d) (Q : SymbolView → Prop)
    (hQ : ∀ v : SymbolView, Q v.tidy ↔ Q v) :
    (∃ file v, d.contributions.find? file = some v ∧ Q v) ↔
      ∃ p ∈ met ops, ∃ v, viewOf? ops c id p = some v ∧ Q v := by
  constructor
  · rintro ⟨file, v, hv, hq⟩
    obtain ⟨p, s, hf, _, _⟩ := h.consistent.contributor hd hv
    obtain ⟨q, hq', hpq⟩ := same_of_fileId? hf
    have hqf := h.consistent.distinct.fileId?_eq hq' (Path.same_self q)
    have hview := h.contributionOf? c id q
    rw [Database.contributionOf?, hqf, Option.bind_some, contribution?_of_definitionIn? hd, hv]
      at hview
    obtain ⟨w, hw, rfl⟩ := Option.map_eq_some_iff.mp hview.symm
    exact ⟨q, h.paths ▸ List.mem_of_getElem? hq', w, hw, (hQ w).mp hq⟩
  · rintro ⟨p, _, v, hv, hq⟩
    have hview := h.contributionOf? c id p
    rw [hv] at hview
    obtain ⟨file, _, hf⟩ := Option.bind_eq_some_iff.mp hview
    rw [contribution?_of_definitionIn? hd] at hf
    exact ⟨file, v.tidy, hf, (hQ v).mpr hq⟩

theorem Reflects.answers (h : db.Reflects ops) (hc : db.categoryOf? id = some c) :
    db.Answers ops id c := by
  obtain ⟨d, hd, hdef⟩ := h.exists_definition hc
  have huses : db.usesOf id = sorted (places (·.uses) UseSite.mk (db.contributors c id)) := by
    rw [usesOf, hdef, ← h.consistent.places_eq hd]
    rfl
  have hdecls : db.declarationsOf id =
      sorted (places (·.declarations) Location.mk (db.contributors c id)) := by
    rw [declarationsOf, hdef, ← h.consistent.places_eq hd]
    rfl
  have hrel : ∀ k, db.related id k = (d.related k).toList := fun k => by
    rw [Database.related, hdef]
  constructor
  case held =>
    obtain ⟨file, v, hv⟩ :=
      OrderedMap.exists_of_isEmpty_eq_false (h.consistent.sound.backed c id d hd)
    obtain ⟨p, hp, v, hv, _⟩ :=
      (h.exists_contribution_iff hd (fun _ => True) fun _ => Iff.rfl).mp ⟨file, v, hv, trivial⟩
    exact ⟨p, hp, by rw [hv]; rfl⟩
  case uses =>
    rw [huses]
    exact h.consistent.ascending_places c id _ fun _ _ _ _ => rfl
  case mem_uses =>
    intro p u
    rw [huses, mem_sorted]
    exact h.mem_places (fun _ => rfl) (fun _ _ _ _ he => UseSite.mk.inj he) p u
  case declarations =>
    rw [hdecls]
    exact h.consistent.ascending_places c id _ fun _ _ _ _ => rfl
  case mem_declarations =>
    intro p s
    rw [hdecls, mem_sorted]
    exact h.mem_places (fun _ => rfl) (fun _ _ _ _ he => Location.mk.inj he) p s
  case related =>
    intro k
    rw [hrel]
    exact List.pairwise_map.mpr (d.related k).members.ascending
  case mem_related =>
    intro k target
    rw [hrel, Database.mem_related]
    exact h.exists_contribution_iff hd (fun v => target ∈ v.related k) fun v => by
      rw [SymbolView.related_tidy]
  case definition =>
    rw [h.consistent.definitionOf?_eq hc hd, contributors, ← List.head?_filterMap,
      List.filterMap_filterMap, List.head?_filterMap, h.paths]
    refine congrArg (fun f => (met ops).findSome? f) (funext fun p => ?_)
    rw [h.contributionOf?]
    cases viewOf? ops c id p <;> rfl

end Database

/-- The histories end with the same symbols per path. -/
def SameLatest (ops ops' : List DatabaseOp) : Prop :=
  ∀ p, (latest? ops p).map (·.symbols) = (latest? ops' p).map (·.symbols)

/-- The symbol is mentioned in one category only and defined by at most one file. -/
structure Unambiguous (ops : List DatabaseOp) (id : SymbolId) : Prop where
  category : ∀ c c' p p', (viewOf? ops c id p).isSome = true →
    (viewOf? ops c' id p').isSome = true → c = c'
  definition : ∀ c p q v w, viewOf? ops c id p = some v → viewOf? ops c id q = some w →
    v.isDefinition = true → w.isDefinition = true → p.same q = true

/-- The answers about a symbol agree; paths may be spelled differently. -/
structure Database.SameAnswers (a b : Database) (id : SymbolId) : Prop where
  category : a.categoryOf? id = b.categoryOf? id
  uses : Agree (a.usesOf id) (b.usesOf id)
  declarations : Agree (a.declarationsOf id) (b.declarationsOf id)
  related : ∀ k, a.related id k = b.related id k
  definition : Option.Rel (fun x y => compare x y = .eq) (a.definitionOf? id) (b.definitionOf? id)

theorem latest?_congr (ops : List DatabaseOp) {p q : Path} (h : p.same q = true) :
    latest? ops p = latest? ops q := by
  have ht : DatabaseOp.track p = DatabaseOp.track q := by
    funext held op
    rw [DatabaseOp.track, DatabaseOp.track, Path.same_comm op.path, Path.same_comm op.path,
      Path.same_congr h]
  rw [latest?, latest?, ht]

theorem viewOf?_congr (ops : List DatabaseOp) (c : Category) (id : SymbolId) {p q : Path}
    (h : p.same q = true) : viewOf? ops c id p = viewOf? ops c id q := by
  rw [viewOf?, viewOf?, latest?_congr ops h]

theorem exists_met {ops : List DatabaseOp} {c : Category} {id : SymbolId} {p : Path}
    {v : SymbolView} (h : viewOf? ops c id p = some v) : ∃ q ∈ met ops, p.same q = true := by
  obtain ⟨db, _, hr⟩ := Database.after_ok ops
  obtain ⟨s, hs, _⟩ := Option.bind_eq_some_iff.mp h
  rw [← hr.snapshot?, Database.snapshot?_eq_bind] at hs
  obtain ⟨file, hf, _⟩ := Option.bind_eq_some_iff.mp hs
  obtain ⟨q, hq, hpq⟩ := Database.same_of_fileId? hf
  exact ⟨q, hr.paths ▸ List.mem_of_getElem? hq, hpq⟩

namespace SameLatest

variable {ops ops' : List DatabaseOp}

theorem symm (h : SameLatest ops ops') : SameLatest ops' ops := fun p => (h p).symm

theorem viewOf?_eq (h : SameLatest ops ops') (c : Category) (id : SymbolId) (p : Path) :
    viewOf? ops c id p = viewOf? ops' c id p := by
  have aux : ∀ s : Option Snapshot, (s.bind fun s => s.find? c id) =
      (s.map (·.symbols)).bind fun symbols => (symbols.get c).find? id := by
    intro s
    cases s <;> rfl
  rw [viewOf?, viewOf?, aux, aux, h p]

theorem exists_view (h : SameLatest ops ops') {c : Category} {id : SymbolId} {p : Path}
    {v : SymbolView} (hv : viewOf? ops c id p = some v) :
    ∃ q ∈ met ops', p.same q = true ∧ viewOf? ops' c id q = some v := by
  rw [h.viewOf?_eq] at hv
  obtain ⟨q, hq, hpq⟩ := exists_met hv
  exact ⟨q, hq, hpq, by rw [← viewOf?_congr ops' c id hpq, hv]⟩

end SameLatest

namespace Database

variable {a b : Database} {ops ops' : List DatabaseOp} {c : Category} {id : SymbolId}

theorem Answers.uses_le (ha : a.Answers ops id c) (hb : b.Answers ops' id c)
    (h : SameLatest ops ops') : ∀ x ∈ a.usesOf id, ∃ y ∈ b.usesOf id, compare x y = .eq := by
  rintro ⟨p, u⟩ hx
  obtain ⟨_, v, hv, hu⟩ := (ha.mem_uses p u).mp hx
  obtain ⟨q, hq, hpq, hv'⟩ := h.exists_view hv
  refine ⟨⟨q, u⟩, (hb.mem_uses q u).mpr ⟨hq, v, hv', hu⟩, ?_⟩
  exact compareLex_eq_eq.mpr ⟨Path.compare_eq_iff.mpr hpq, ReflCmp.compare_self⟩

theorem Answers.declarations_le (ha : a.Answers ops id c) (hb : b.Answers ops' id c)
    (h : SameLatest ops ops') :
    ∀ x ∈ a.declarationsOf id, ∃ y ∈ b.declarationsOf id, compare x y = .eq := by
  rintro ⟨p, s⟩ hx
  obtain ⟨_, v, hv, hs⟩ := (ha.mem_declarations p s).mp hx
  obtain ⟨q, hq, hpq, hv'⟩ := h.exists_view hv
  refine ⟨⟨q, s⟩, (hb.mem_declarations q s).mpr ⟨hq, v, hv', hs⟩, ?_⟩
  exact compareLex_eq_eq.mpr ⟨Path.compare_eq_iff.mpr hpq, ReflCmp.compare_self⟩

theorem Answers.related_le (ha : a.Answers ops id c) (hb : b.Answers ops' id c)
    (h : SameLatest ops ops') (k : RelationKind) :
    ∀ x ∈ a.related id k, ∃ y ∈ b.related id k, compare x y = .eq := by
  intro x hx
  obtain ⟨p, _, v, hv, ht⟩ := (ha.mem_related k x).mp hx
  obtain ⟨q, hq, _, hv'⟩ := h.exists_view hv
  exact ⟨x, (hb.mem_related k x).mpr ⟨q, hq, v, hv', ht⟩, ReflCmp.compare_self⟩

/-- Where a definition is found, a file on record spells the symbol's name. -/
theorem Answers.definitionOf?_eq_some (ha : a.Answers ops id c) {l : Location}
    (hl : a.definitionOf? id = some l) :
    ∃ v info, viewOf? ops c id l.path = some v ∧ v.info = some info ∧ info.spell = some l.span := by
  rw [ha.definition] at hl
  obtain ⟨p, _, hp⟩ := List.exists_of_findSome?_eq_some hl
  obtain ⟨span, hs, rfl⟩ := Option.map_eq_some_iff.mp hp
  obtain ⟨info, hi, hs⟩ := Option.bind_eq_some_iff.mp hs
  obtain ⟨v, hv, hi⟩ := Option.bind_eq_some_iff.mp hi
  exact ⟨v, info, hv, hi, hs⟩

theorem Answers.isSome_definitionOf? (ha : a.Answers ops id c) (hb : b.Answers ops' id c)
    (h : SameLatest ops ops') {l : Location} (hl : a.definitionOf? id = some l) :
    (b.definitionOf? id).isSome = true := by
  obtain ⟨v, info, hv, hi, hs⟩ := ha.definitionOf?_eq_some hl
  obtain ⟨q, hq, _, hv'⟩ := h.exists_view hv
  rw [hb.definition, List.findSome?_isSome_iff]
  exact ⟨q, hq, by simp [hv', hi, hs]⟩

theorem Answers.sameAnswers (ha : a.Answers ops id c) (hb : b.Answers ops' id c)
    (hca : a.categoryOf? id = some c) (hcb : b.categoryOf? id = some c)
    (h : SameLatest ops ops') (hu : Unambiguous ops id) : a.SameAnswers b id where
  category := hca.trans hcb.symm
  uses := agree_of_ascending ha.uses hb.uses (ha.uses_le hb h) fun y hy => by
    obtain ⟨x, hx, hyx⟩ := hb.uses_le ha h.symm y hy
    exact ⟨x, hx, OrientedCmp.eq_symm hyx⟩
  declarations := agree_of_ascending ha.declarations hb.declarations (ha.declarations_le hb h)
    fun y hy => by
      obtain ⟨x, hx, hyx⟩ := hb.declarations_le ha h.symm y hy
      exact ⟨x, hx, OrientedCmp.eq_symm hyx⟩
  related k := by
    refine (agree_of_ascending (ha.related k) (hb.related k) (ha.related_le hb h k)
      fun y hy => ?_).eq
    obtain ⟨x, hx, hyx⟩ := hb.related_le ha h.symm k y hy
    exact ⟨x, hx, OrientedCmp.eq_symm hyx⟩
  definition := by
    cases hx : a.definitionOf? id with
    | none =>
      cases hy : b.definitionOf? id with
      | none => exact .none
      | some y =>
        have := hb.isSome_definitionOf? ha h.symm hy
        rw [hx] at this
        cases this
    | some x =>
      obtain ⟨y, hy⟩ := Option.isSome_iff_exists.mp (ha.isSome_definitionOf? hb h hx)
      obtain ⟨v, info, hv, hi, hs⟩ := ha.definitionOf?_eq_some hx
      obtain ⟨w, info', hw, hi', hs'⟩ := hb.definitionOf?_eq_some hy
      rw [← h.viewOf?_eq] at hw
      have hsame : x.path.same y.path = true :=
        hu.definition c _ _ v w hv hw (by simp [SymbolView.isDefinition, hi,
          SymbolInfo.isDefinition, hs]) (by simp [SymbolView.isDefinition, hi',
          SymbolInfo.isDefinition, hs'])
      rw [viewOf?_congr ops c id hsame, hw] at hv
      cases hv
      rw [hi] at hi'
      cases hi'
      rw [hs] at hs'
      rw [hy]
      exact .some (compareLex_eq_eq.mpr ⟨Path.compare_eq_iff.mpr hsame,
        LawfulEqOrd.compare_eq_iff_eq.mpr (Option.some.inj hs')⟩)

theorem unanswered {db : Database} (h : db.categoryOf? id = none) :
    db.usesOf id = [] ∧ db.declarationsOf id = [] ∧ (∀ k, db.related id k = []) ∧
      db.definitionOf? id = none := by
  have hd : db.definition? id = none := by
    rw [definition?, h]
    rfl
  refine ⟨?_, ?_, fun k => ?_, ?_⟩
  · rw [usesOf, hd]
  · rw [declarationsOf, hd]
  · rw [Database.related, hd]
  · rw [definitionOf?, hd]
    rfl

theorem Reflects.categoryOf?_eq_none_iff {db : Database} (h : db.Reflects ops) (id : SymbolId) :
    db.categoryOf? id = none ↔ id.isUnknown = true ∨ ∀ c p, viewOf? ops c id p = none := by
  rw [h.consistent.categoryOf?_eq_none_iff]
  simp only [h.contributionOf?, Option.map_eq_none_iff]

theorem Reflects.sameAnswers (ha : a.Reflects ops) (hb : b.Reflects ops')
    (h : SameLatest ops ops') (hu : Unambiguous ops id) : a.SameAnswers b id := by
  have hnone : a.categoryOf? id = none ↔ b.categoryOf? id = none := by
    rw [ha.categoryOf?_eq_none_iff, hb.categoryOf?_eq_none_iff]
    simp only [h.viewOf?_eq]
  cases hca : a.categoryOf? id with
  | none =>
    have hcb := hnone.mp hca
    obtain ⟨hua, hda, hra, hfa⟩ := unanswered hca
    obtain ⟨hub, hdb, hrb, hfb⟩ := unanswered hcb
    exact ⟨hca.trans hcb.symm, by rw [hua, hub]; exact .nil, by rw [hda, hdb]; exact .nil,
      fun k => by rw [hra, hrb], by rw [hfa, hfb]; exact .none⟩
  | some c =>
    cases hcb : b.categoryOf? id with
    | none => rw [hnone.mpr hcb] at hca; cases hca
    | some c' =>
      obtain ⟨p, _, hp⟩ := (ha.answers hca).held
      obtain ⟨q, _, hq⟩ := (hb.answers hcb).held
      rw [← h.viewOf?_eq] at hq
      obtain rfl := hu.category c c' p q hp hq
      exact (ha.answers hca).sameAnswers (hb.answers hcb) hca hcb h hu

/-- The answers about every symbol are those of the latest snapshots, and a symbol without an
answering category has none. So a history that ends with the same snapshots gives the same answers
about every unambiguous symbol. -/
theorem answers_determined (ops : List DatabaseOp) :
    ∃ db, after ops = .ok db ∧ ∀ id,
      (∀ c, db.categoryOf? id = some c → db.Answers ops id c) ∧
      (db.categoryOf? id = none ↔ id.isUnknown = true ∨ ∀ c p, viewOf? ops c id p = none) ∧
      (db.categoryOf? id = none → db.usesOf id = [] ∧ db.declarationsOf id = [] ∧
        (∀ k, db.related id k = []) ∧ db.definitionOf? id = none) ∧
      ∀ ops', SameLatest ops ops' → Unambiguous ops id →
        ∃ db', after ops' = .ok db' ∧ db.SameAnswers db' id := by
  obtain ⟨db, hdb, h⟩ := after_ok ops
  refine ⟨db, hdb, fun id => ⟨fun c hc => h.answers hc, h.categoryOf?_eq_none_iff id, unanswered,
    fun ops' hs hu => ?_⟩⟩
  obtain ⟨db', hdb', h'⟩ := after_ok ops'
  exact ⟨db', hdb', h.sameAnswers h' hs hu⟩

def definingFile : Snapshot :=
  Snapshot.update ⟨⟨"/w/a.cc"⟩, 0, [], ∅, .same ∅⟩ .func ⟨300⟩ fun v =>
    { v with info := some { name := "f", spell := some (.onLine 1 5 6) } }

def usingFile : Snapshot :=
  Snapshot.update ⟨⟨"/w/b.cc"⟩, 0, [], ∅, .same ∅⟩ .func ⟨300⟩ fun v =>
    { v with uses := .ofList [⟨.onLine 2 3 4, ⟨32⟩⟩] }

/-- It makes no difference in which order two files were indexed, and whether one was forgotten in
between. -/
theorem answers_determined_two_orders :
    ∃ db db', after [.index definingFile, .index usingFile] = .ok db ∧
      after [.index usingFile, .index definingFile, .remove ⟨"/w//b.cc"⟩, .index usingFile] =
        .ok db' ∧
      db.SameAnswers db' ⟨300⟩ := by
  have hlatest : ∀ p s, latest? [.index definingFile, .index usingFile] p = some s →
      s = definingFile ∧ definingFile.path.same p = true ∨ s = usingFile := by
    intro p s hs
    simp only [latest?, List.foldl, DatabaseOp.track_index] at hs
    by_cases hu : usingFile.path.same p = true
    · rw [if_pos hu] at hs
      exact .inr (Option.some.inj hs).symm
    · by_cases hd : definingFile.path.same p = true
      · rw [if_neg hu, if_pos hd] at hs
        exact .inl ⟨(Option.some.inj hs).symm, hd⟩
      · rw [if_neg hu, if_neg hd] at hs
        cases hs
  have hcategory : ∀ c p, (viewOf? [.index definingFile, .index usingFile] c ⟨300⟩ p).isSome →
      c = .func := by
    intro c p h
    obtain ⟨v, hv⟩ := Option.isSome_iff_exists.mp h
    obtain ⟨s, hs, hv⟩ := Option.bind_eq_some_iff.mp hv
    rcases hlatest p s hs with ⟨rfl, _⟩ | rfl <;> cases c <;> first | rfl | cases hv
  have hdefines : ∀ c p v, viewOf? [.index definingFile, .index usingFile] c ⟨300⟩ p = some v →
      v.isDefinition = true → definingFile.path.same p = true := by
    intro c p v hv hd
    obtain ⟨s, hs, hv⟩ := Option.bind_eq_some_iff.mp hv
    rcases hlatest p s hs with ⟨rfl, hp⟩ | rfl
    · exact hp
    · cases c <;> cases hv
      cases hd
  obtain ⟨db, hdb, h⟩ := answers_determined [.index definingFile, .index usingFile]
  obtain ⟨db', hdb', hsame⟩ := (h ⟨300⟩).2.2.2
    [.index usingFile, .index definingFile, .remove ⟨"/w//b.cc"⟩, .index usingFile]
    (fun p => by
      have hb : Path.same ⟨"/w//b.cc"⟩ = usingFile.path.same := Path.same_congr (by decide)
      simp only [latest?, List.foldl, DatabaseOp.track_index, DatabaseOp.track_remove, hb]
      by_cases hu : usingFile.path.same p = true
      · simp [hu]
      · by_cases hd : definingFile.path.same p = true <;> simp [hu, hd])
    ⟨fun c c' p p' hc hc' => (hcategory c p hc).trans (hcategory c' p' hc').symm,
      fun c p q v w hv hw hdv hdw => by
        have hp := hdefines c p v hv hdv
        rw [Path.same_comm] at hp
        exact Path.same_trans hp (hdefines c q w hw hdw)⟩
  exact ⟨db, db', hdb, hdb', hsame⟩

end Database

end SymbolIndex
