import Mathlib.Tactic.Tauto
import SymbolIndex.Proofs.Remap

/-! The relations of a remapped record. Each entry that is kept enters its relations at its own id, and
at a target that takes it the backward one; what one entry does to a snapshot, a walk over the entries
adds up. So the two ends of a relation tell the same, as far as targets take backward relations. -/

namespace SymbolIndex

namespace SymbolView

theorem related_relate (v : SymbolView) (kind kind' : RelationKind) (target x : SymbolId) :
    x ∈ (v.relate kind target).related kind' ↔
      x ∈ v.related kind' ∨ kind' = kind ∧ x = target := by
  rw [related, relate, OrderedMap.find?_alter, related]
  by_cases hk : kind' = kind
  · subst hk
    rw [if_pos Std.ReflOrd.compare_self, Option.getD_some, OrderedSet.mem_insert,
      Std.LawfulEqOrd.compare_eq_iff_eq]
    tauto
  · rw [if_neg fun h => hk (Std.LawfulEqOrd.eq_of_compare h)]
    tauto

theorem related_foldl_relate (kind kind' : RelationKind) (targets : List SymbolId) (v : SymbolView)
    (x : SymbolId) :
    x ∈ (targets.foldl (fun v t => v.relate kind t) v).related kind' ↔
      x ∈ v.related kind' ∨ kind' = kind ∧ x ∈ targets := by
  induction targets generalizing v with
  | nil => simp
  | cons t rest ih =>
    rw [List.foldl_cons, ih, related_relate, List.mem_cons]
    tauto

theorem related_empty (kind : RelationKind) (x : SymbolId) : ¬ x ∈ empty.related kind :=
  OrderedSet.not_mem_empty x

end SymbolView

namespace Snapshot

theorem find?_update (s : Snapshot) (c d : Category) (id t : SymbolId)
    (f : SymbolView → SymbolView) :
    (s.update c id f).find? d t =
      if d = c ∧ t = id then some (f ((s.find? c id).getD .empty)) else s.find? d t := by
  rw [find?, update, PerCategory.get_modify]
  by_cases hc : d = c
  · subst hc
    rw [if_pos rfl, OrderedMap.find?_alter]
    by_cases ht : t = id
    · subst ht
      simp [find?, Std.ReflOrd.compare_self]
    · simp [find?, ht, mt Std.LawfulEqOrd.eq_of_compare ht]
  · simp [find?, hc]

theorem find?_of_no_symbols {s : Snapshot} (h : s.symbols = .same ∅) (c : Category)
    (id : SymbolId) : s.find? c id = none := by
  rw [find?, h, PerCategory.get_same]
  rfl

/-- The snapshot holds an id in a category, with a target of one of its relations. -/
def Relates (s : Snapshot) (c : Category) (id : SymbolId) (kind : RelationKind)
    (target : SymbolId) : Prop :=
  ∃ v, s.find? c id = some v ∧ target ∈ v.related kind

theorem relates_iff {s : Snapshot} {c : Category} {id : SymbolId} {kind : RelationKind}
    {x : SymbolId} :
    s.Relates c id kind x ↔ x ∈ ((s.find? c id).getD .empty).related kind := by
  rw [Relates]
  cases s.find? c id with
  | none => simpa using SymbolView.related_empty kind x
  | some v => simp

/-- What an update adds to the relations of one id, it adds to the snapshot's. -/
theorem relates_update {s : Snapshot} {c : Category} {id : SymbolId} {f : SymbolView → SymbolView}
    {added : RelationKind → SymbolId → Prop}
    (hf : ∀ v kind x, x ∈ (f v).related kind ↔ x ∈ v.related kind ∨ added kind x) (d : Category)
    (t : SymbolId) (kind : RelationKind) (x : SymbolId) :
    (s.update c id f).Relates d t kind x ↔
      s.Relates d t kind x ∨ (d = c ∧ t = id) ∧ added kind x := by
  rw [relates_iff, relates_iff, find?_update]
  split
  next h =>
    obtain ⟨rfl, rfl⟩ := h
    simp [hf]
  next h => simp [h]

theorem relates_update_of_related {s : Snapshot} {c : Category} {id : SymbolId}
    {f : SymbolView → SymbolView} (hf : ∀ v kind, (f v).related kind = v.related kind)
    (d : Category) (t : SymbolId) (kind : RelationKind) (x : SymbolId) :
    (s.update c id f).Relates d t kind x ↔ s.Relates d t kind x := by
  rw [relates_iff, relates_iff, find?_update]
  split
  next h =>
    obtain ⟨rfl, rfl⟩ := h
    rw [Option.getD_some, hf]
  next => rfl

end Snapshot

namespace Remap

variable {entries : Identified}

/-- The relations that an entry gets at its own id. -/
def forward (entries : Identified) (e : Entry) : List (RelationKind × SymbolId) :=
  (e.bases.filterMap (target? entries)).map (.bases, ·) ++
    (e.callees.filterMap (target? entries)).map (.callees, ·)

theorem mem_forward {e : Entry} {kind : RelationKind} {x : SymbolId} :
    (kind, x) ∈ forward entries e ↔
      kind = .bases ∧ x ∈ e.bases.filterMap (target? entries) ∨
        kind = .callees ∧ x ∈ e.callees.filterMap (target? entries) := by
  have hmap : ∀ (k : RelationKind) (l : List SymbolId),
      (kind, x) ∈ l.map (k, ·) ↔ kind = k ∧ x ∈ l := by
    intro k l
    simp only [List.mem_map, Prod.mk.injEq]
    constructor
    · rintro ⟨_, hx, rfl, rfl⟩
      exact ⟨rfl, hx⟩
    · rintro ⟨rfl, hx⟩
      exact ⟨x, hx, rfl, rfl⟩
  rw [forward, List.mem_append, hmap, hmap]

theorem related_describe (e : Entry) (v : SymbolView) (kind : RelationKind) (x : SymbolId) :
    x ∈ (describe entries e v).related kind ↔
      x ∈ v.related kind ∨ (kind, x) ∈ forward entries e := by
  rw [describe, SymbolView.related_foldl_relate, SymbolView.related_foldl_relate, mem_forward,
    or_assoc]
  rfl

/-- What a kept entry says of a relation: at its own id, or at a target that takes it. -/
def Contributes (entries : Identified) (e : SymbolId × Entry) (c : Category) (t : SymbolId)
    (kind : RelationKind) (x : SymbolId) : Prop :=
  (c = e.2.category ∧ t = e.1 ∧ (kind, x) ∈ forward entries e.2) ∨
    (x = e.1 ∧ (c, t, kind) ∈ backward entries e.2 ∧ accepts entries c t = true)

theorem relates_foldl_backward (id : SymbolId) (l : List (Category × SymbolId × RelationKind))
    (s : Snapshot) (c : Category) (t : SymbolId) (kind : RelationKind) (x : SymbolId) :
    (l.foldl (fun s b => s.update b.1 b.2.1 (·.relate b.2.2 id)) s).Relates c t kind x ↔
      s.Relates c t kind x ∨ x = id ∧ (c, t, kind) ∈ l := by
  induction l generalizing s with
  | nil => simp
  | cons b rest ih =>
    obtain ⟨d, u, k⟩ := b
    rw [List.foldl_cons, ih, Snapshot.relates_update fun v kind' x' =>
      SymbolView.related_relate v k kind' id x', List.mem_cons, Prod.mk.injEq, Prod.mk.injEq]
    tauto

theorem relates_enter (s : Snapshot) (e : SymbolId × Entry) (c : Category) (t : SymbolId)
    (kind : RelationKind) (x : SymbolId) :
    (enter entries s e.1 e.2).Relates c t kind x ↔ s.Relates c t kind x ∨
      (e.1.isUnknown = false ∧ claimed? entries e.1 = some e.2.category) ∧
        Contributes entries e c t kind x := by
  rcases enter_cases entries s e.1 e.2 with ⟨hu, h⟩ | ⟨hu, hc, h⟩ | ⟨hu, hc, h⟩ <;> rw [h]
  · have huses : ∀ (v : SymbolView) kind,
        { v with uses := v.uses.insertAll e.2.uses }.related kind = v.related kind :=
      fun _ _ => rfl
    rw [Snapshot.relates_update_of_related huses]
    simp [hu]
  · simp [hc]
  · rw [relates_foldl_backward, Snapshot.relates_update fun v kind' x' =>
      related_describe e.2 v kind' x', List.mem_filter, Contributes]
    simp only [hu, hc]
    tauto

theorem mem_kept {e : SymbolId × Entry} :
    e ∈ kept entries ↔ e ∈ entries ∧
      e.1.isUnknown = false ∧ claimed? entries e.1 = some e.2.category := by
  simp [kept]

theorem relates_foldl_enter (items : Identified) (s : Snapshot) (c : Category) (t : SymbolId)
    (kind : RelationKind) (x : SymbolId) :
    (items.foldl (fun s e => enter entries s e.1 e.2) s).Relates c t kind x ↔
      s.Relates c t kind x ∨ ∃ e ∈ items,
        (e.1.isUnknown = false ∧ claimed? entries e.1 = some e.2.category) ∧
          Contributes entries e c t kind x := by
  induction items generalizing s with
  | nil => simp
  | cons e rest ih =>
    rw [List.foldl_cons, ih, relates_enter, or_assoc]
    simp only [List.mem_cons, exists_eq_or_imp]

/-- The category of the first entry with an id. -/
def firstCategory? (entries : Identified) (id : SymbolId) : Option Category :=
  (entries.find? fun e => e.1 = id).map (·.2.category)

/-- Whether a target takes the backward relations that are entered under a category. -/
def Open (entries : Identified) (c : Category) (t : SymbolId) : Prop :=
  t.isBuiltin = false ∧ (firstCategory? entries t = none ∨ firstCategory? entries t = some c)

theorem claimed?_of_known {id : SymbolId} (h : id.isUnknown = false) :
    claimed? entries id = firstCategory? entries id := by
  rw [claimed?, h]
  rfl

theorem accepts_iff {c : Category} {t : SymbolId} (h : t.isUnknown = false) :
    accepts entries c t = true ↔ Open entries c t := by
  rw [accepts, claimed?_of_known h, Open, Bool.and_eq_true, Bool.not_eq_true']
  cases firstCategory? entries t with
  | none => simp
  | some claimed => simp

theorem known_of_builtin {name : String} {id : SymbolId} (h : SymbolId.ofBuiltin? name = some id) :
    id.isUnknown = false := by
  obtain ⟨value, hv, rfl⟩ := Option.map_eq_some_iff.mp h
  obtain ⟨before, after, hmem, -⟩ := List.lookup_eq_some_iff.mp hv
  have hall : ∀ e ∈ SymbolId.builtins, SymbolId.isUnknown ⟨e.2⟩ = false := by decide
  exact hall (name, value) (by rw [hmem]; simp)

theorem target?_ofId {id t : SymbolId} :
    (Resolution.ofId id).target? = some t ↔ t.isUnknown = false ∧ id = t := by
  rw [Resolution.ofId]
  split
  next hu =>
    constructor
    · intro h
      cases h
    · rintro ⟨ht, rfl⟩
      cases hu.symm.trans ht
  next hu =>
    rw [Resolution.target?, Option.some.injEq]
    refine ⟨?_, And.right⟩
    rintro rfl
    exact ⟨Bool.eq_false_iff.mpr hu, rfl⟩

theorem known_of_target? {ref : Reference} {t : SymbolId} (h : target? entries ref = some t) :
    t.isUnknown = false := by
  rw [target?] at h
  cases ref with
  | entry index =>
    rw [resolve] at h
    split at h
    next => exact (target?_ofId.mp h).1
    next => cases h
  | signature text => exact (target?_ofId.mp h).1
  | builtin name =>
    rw [resolve] at h
    split at h
    next id hb =>
      cases h
      exact known_of_builtin hb
    next => cases h

theorem mem_backward {e : Entry} {c : Category} {t : SymbolId} {kind : RelationKind} :
    (c, t, kind) ∈ backward entries e ↔
      (kind = .derived ∧ c = e.category ∧ t ∈ e.bases.filterMap (target? entries)) ∨
      (kind = .callers ∧ c = .func ∧ t ∈ e.callees.filterMap (target? entries)) ∨
      (kind = .members ∧ c = .type ∧ e.declaringType.bind (target? entries) = some t) ∨
      kind = .instances ∧ c = .type ∧ e.category = .var ∧
        e.valueType.bind (target? entries) = some t := by
  have hmap : ∀ (d : Category) (k : RelationKind) (l : List SymbolId),
      (c, t, kind) ∈ l.map (d, ·, k) ↔ kind = k ∧ c = d ∧ t ∈ l := by
    intro d k l
    simp only [List.mem_map, Prod.mk.injEq]
    constructor
    · rintro ⟨_, ht, rfl, rfl, rfl⟩
      exact ⟨rfl, rfl, ht⟩
    · rintro ⟨rfl, rfl, ht⟩
      exact ⟨t, ht, rfl, rfl, rfl⟩
  rw [backward, List.mem_append, List.mem_append, List.mem_append, hmap, hmap, hmap,
    Option.mem_toList, or_assoc, or_assoc]
  by_cases hv : e.category = .var
  · rw [if_pos hv, hmap, Option.mem_toList]
    simp only [hv, true_and]
  · rw [if_neg hv]
    simp only [hv, List.not_mem_nil, false_and, and_false]

section Contributes

variable {e : SymbolId × Entry} {c : Category} {t x : SymbolId}

theorem contributes_bases : Contributes entries e c x .bases t ↔
    c = e.2.category ∧ x = e.1 ∧ t ∈ e.2.bases.filterMap (target? entries) := by
  simp [Contributes, mem_forward, mem_backward]

theorem contributes_callees : Contributes entries e c x .callees t ↔
    c = e.2.category ∧ x = e.1 ∧ t ∈ e.2.callees.filterMap (target? entries) := by
  simp [Contributes, mem_forward, mem_backward]

theorem known_of_mem_filterMap {refs : List Reference} (h : t ∈ refs.filterMap (target? entries)) :
    t.isUnknown = false := by
  obtain ⟨_, -, href⟩ := List.mem_filterMap.mp h
  exact known_of_target? href

theorem contributes_derived : Contributes entries e c t .derived x ↔
    x = e.1 ∧ c = e.2.category ∧ t ∈ e.2.bases.filterMap (target? entries) ∧ Open entries c t := by
  have hopen : t ∈ e.2.bases.filterMap (target? entries) →
      (accepts entries c t = true ↔ Open entries c t) := fun h =>
    accepts_iff (known_of_mem_filterMap h)
  simp only [Contributes, mem_forward, mem_backward, reduceCtorEq, false_and, and_false, or_false,
    false_or, true_and]
  tauto

theorem contributes_callers : Contributes entries e c t .callers x ↔
    x = e.1 ∧ c = .func ∧ t ∈ e.2.callees.filterMap (target? entries) ∧ Open entries c t := by
  have hopen : t ∈ e.2.callees.filterMap (target? entries) →
      (accepts entries c t = true ↔ Open entries c t) := fun h =>
    accepts_iff (known_of_mem_filterMap h)
  simp only [Contributes, mem_forward, mem_backward, reduceCtorEq, false_and, and_false, or_false,
    false_or, true_and]
  tauto

end Contributes

end Remap

theorem Record.relates_remap (r : Record) (cwd : Option Path) (known : SymbolId → Option Category)
    (c : Category) (t : SymbolId) (kind : RelationKind) (x : SymbolId) :
    (r.remap cwd known).1.Relates c t kind x ↔
      ∃ e ∈ Remap.kept (Remap.identified r), Remap.Contributes (Remap.identified r) e c t kind x := by
  rw [Record.remap]
  have hstart : ∀ s : Snapshot, s.symbols = .same ∅ → ¬ s.Relates c t kind x := by
    rintro s hs ⟨v, hv, -⟩
    rw [s.find?_of_no_symbols hs] at hv
    cases hv
  simp only [Remap.relates_foldl_enter, Remap.mem_kept, and_assoc, hstart, false_or]

/-- The two ends of a relation in a remapped record. A symbol is among the callers of a function exactly
when it calls the target and the target is open to functions; it is among the derived of a target in a
category exactly when it has the target as a base there and the target is open to the category. -/
theorem Record.remap_mirrored (r : Record) (cwd : Option Path) (known : SymbolId → Option Category)
    (s t : SymbolId) :
    ((r.remap cwd known).1.Relates .func t .callers s ↔
      (∃ c, (r.remap cwd known).1.Relates c s .callees t) ∧
        Remap.Open (Remap.identified r) .func t) ∧
    ∀ c, (r.remap cwd known).1.Relates c t .derived s ↔
      (r.remap cwd known).1.Relates c s .bases t ∧ Remap.Open (Remap.identified r) c t := by
  simp only [Record.relates_remap, Remap.contributes_callers, Remap.contributes_callees,
    Remap.contributes_derived, Remap.contributes_bases]
  generalize Remap.identified r = entries
  constructor
  · constructor
    · rintro ⟨e, he, rfl, -, ht, hopen⟩
      exact ⟨⟨_, e, he, rfl, rfl, ht⟩, hopen⟩
    · rintro ⟨⟨_, e, he, rfl, rfl, ht⟩, hopen⟩
      exact ⟨e, he, rfl, trivial, ht, hopen⟩
  · intro c
    constructor
    · rintro ⟨e, he, rfl, rfl, ht, hopen⟩
      exact ⟨⟨e, he, rfl, rfl, ht⟩, hopen⟩
    · rintro ⟨⟨e, he, rfl, rfl, ht⟩, hopen⟩
      exact ⟨e, he, rfl, rfl, ht, hopen⟩

end SymbolIndex
