import SymbolIndex.Proofs.Remap.Relations

/-! The categories of a remapped record's ids. An id with an entry is held in the category of the first
one and in no other. Nothing settles the category of an id that is only a target: each kept entry that
refers to it enters it under the category that the reference calls for. -/

namespace SymbolIndex

namespace Snapshot

def Holds (s : Snapshot) (c : Category) (id : SymbolId) : Prop := (s.find? c id).isSome = true

theorem holds_update (s : Snapshot) (c d : Category) (id t : SymbolId)
    (f : SymbolView → SymbolView) :
    (s.update c id f).Holds d t ↔ s.Holds d t ∨ d = c ∧ t = id := by
  rw [Holds, Holds, find?_update]
  split
  next h => simp [h]
  next h => simp [h]

end Snapshot

namespace Remap

variable {entries : Identified}

theorem holds_foldl_backward (id : SymbolId) (l : List (Category × SymbolId × RelationKind))
    (s : Snapshot) (c : Category) (t : SymbolId) :
    (l.foldl (fun s b => s.update b.1 b.2.1 (·.relate b.2.2 id)) s).Holds c t ↔
      s.Holds c t ∨ ∃ kind, (c, t, kind) ∈ l := by
  induction l generalizing s with
  | nil => simp
  | cons b rest ih =>
    obtain ⟨d, u, k⟩ := b
    rw [List.foldl_cons, ih, Snapshot.holds_update, or_assoc]
    simp only [List.mem_cons, Prod.mk.injEq, exists_or, exists_and_left, exists_eq, and_true]

/-- A kept entry refers to an id as to one of a category. -/
def Mentions (entries : Identified) (c : Category) (id : SymbolId) : Prop :=
  ∃ e ∈ kept entries, ∃ kind, (c, id, kind) ∈ backward entries e.2

theorem holds_enter (s : Snapshot) (e : SymbolId × Entry) (c : Category) {t : SymbolId}
    (ht : t.isUnknown = false) :
    (enter entries s e.1 e.2).Holds c t ↔ s.Holds c t ∨
      (e.1.isUnknown = false ∧ claimed? entries e.1 = some e.2.category) ∧
        (c = e.2.category ∧ t = e.1 ∨
          (∃ kind, (c, t, kind) ∈ backward entries e.2) ∧ Open entries c t) := by
  rcases enter_cases entries s e.1 e.2 with ⟨hu, h⟩ | ⟨hu, hc, h⟩ | ⟨hu, hc, h⟩ <;> rw [h]
  · have hne : t ≠ .unknown := by
      rintro rfl
      cases ht
    rw [Snapshot.holds_update]
    simp [hne, hu]
  · simp [hc]
  · rw [holds_foldl_backward, Snapshot.holds_update]
    simp only [List.mem_filter, accepts_iff ht, exists_and_right, hu, hc, true_and, or_assoc]

theorem holds_foldl_enter (items : Identified) (s : Snapshot) (c : Category) {t : SymbolId}
    (ht : t.isUnknown = false) :
    (items.foldl (fun s e => enter entries s e.1 e.2) s).Holds c t ↔
      s.Holds c t ∨ ∃ e ∈ items,
        (e.1.isUnknown = false ∧ claimed? entries e.1 = some e.2.category) ∧
          (c = e.2.category ∧ t = e.1 ∨
            (∃ kind, (c, t, kind) ∈ backward entries e.2) ∧ Open entries c t) := by
  induction items generalizing s with
  | nil => simp
  | cons e rest ih =>
    rw [List.foldl_cons, ih, holds_enter s e c ht, or_assoc]
    simp only [List.mem_cons, exists_eq_or_imp]

/-- The first entry with an id is kept, and whatever else is kept with the id is of its category. -/
theorem firstCategory?_eq_some_iff {c : Category} {t : SymbolId} (ht : t.isUnknown = false) :
    firstCategory? entries t = some c ↔ ∃ e ∈ kept entries, c = e.2.category ∧ t = e.1 := by
  constructor
  · intro h
    obtain ⟨e, hfind, rfl⟩ := Option.map_eq_some_iff.mp h
    have he := List.find?_some hfind
    obtain rfl : e.1 = t := of_decide_eq_true he
    refine ⟨e, mem_kept.mpr ⟨List.mem_of_find?_eq_some hfind, ht, ?_⟩, rfl, rfl⟩
    rw [claimed?_of_known ht]
    exact h
  · rintro ⟨e, he, rfl, rfl⟩
    rw [← claimed?_of_known ht]
    exact (mem_kept.mp he).2.2

end Remap

theorem Record.holds_remap (r : Record) (cwd : Option Path) (known : SymbolId → Option Category)
    (c : Category) {t : SymbolId} (ht : t.isUnknown = false) :
    (r.remap cwd known).1.Holds c t ↔
      Remap.firstCategory? (Remap.identified r) t = some c ∨
        Remap.firstCategory? (Remap.identified r) t = none ∧ t.isBuiltin = false ∧
          Remap.Mentions (Remap.identified r) c t := by
  have hstart : ∀ s : Snapshot, s.symbols = .same ∅ → ¬ s.Holds c t := by
    intro s hs h
    rw [Snapshot.Holds, s.find?_of_no_symbols hs] at h
    cases h
  rw [Record.remap]
  simp only [Remap.holds_foldl_enter _ _ c ht, hstart, false_or]
  constructor
  · rintro ⟨e, he, hkept, hown | ⟨hmention, hbuiltin, hfirst | hfirst⟩⟩
    · exact .inl ((Remap.firstCategory?_eq_some_iff ht).mpr
        ⟨e, Remap.mem_kept.mpr ⟨he, hkept⟩, hown⟩)
    · exact .inr ⟨hfirst, hbuiltin, e, Remap.mem_kept.mpr ⟨he, hkept⟩, hmention⟩
    · exact .inl hfirst
  · rintro (hfirst | ⟨hfirst, hbuiltin, e, he, hmention⟩)
    · obtain ⟨e, he, hown⟩ := (Remap.firstCategory?_eq_some_iff ht).mp hfirst
      obtain ⟨hmem, hkept⟩ := Remap.mem_kept.mp he
      exact ⟨e, hmem, hkept, .inl hown⟩
    · obtain ⟨hmem, hkept⟩ := Remap.mem_kept.mp he
      exact ⟨e, hmem, hkept, .inr ⟨hmention, hbuiltin, .inl hfirst⟩⟩

/-- Where a remapped record holds an id, and when that is in one category only: always if the record has
an entry with the id, and for a mere target if all that is said of it calls for the same category. -/
theorem Record.remap_one_category_iff (r : Record) (cwd : Option Path)
    (known : SymbolId → Option Category) {t : SymbolId} (ht : t.isUnknown = false) :
    (∀ c, (r.remap cwd known).1.Holds c t ↔
      Remap.firstCategory? (Remap.identified r) t = some c ∨
        Remap.firstCategory? (Remap.identified r) t = none ∧ t.isBuiltin = false ∧
          Remap.Mentions (Remap.identified r) c t) ∧
    ((∀ c d, (r.remap cwd known).1.Holds c t → (r.remap cwd known).1.Holds d t → c = d) ↔
      (Remap.firstCategory? (Remap.identified r) t = none → t.isBuiltin = false →
        ∀ c d, Remap.Mentions (Remap.identified r) c t →
          Remap.Mentions (Remap.identified r) d t → c = d)) := by
  refine ⟨fun c => r.holds_remap cwd known c ht, ?_⟩
  simp only [r.holds_remap cwd known _ ht]
  constructor
  · intro h hfirst hbuiltin c d hc hd
    exact h c d (.inr ⟨hfirst, hbuiltin, hc⟩) (.inr ⟨hfirst, hbuiltin, hd⟩)
  · rintro h c d (hc | ⟨hfirst, hbuiltin, hc⟩) (hd | ⟨hfirst', -, hd⟩)
    · exact Option.some.inj (hc.symm.trans hd)
    · cases hc.symm.trans hfirst'
    · cases hd.symm.trans hfirst
    · exact h hfirst hbuiltin c d hc hd

/-- A base that a later entry turns out to be a function: the type keeps the base, and the backward
relation is not entered. -/
theorem claimed_base_in_one_category :
    let r : Record := {
      path := ⟨"/src/b.cc"⟩
      modified := 10
      entries := [
        { index := 0, category := .type, signature := "S", bases := [.signature "F"] },
        { index := 1, category := .func, signature := "F" }] }
    let s := (r.remap (some ⟨"/"⟩) fun _ => none).1
    let f := SymbolId.ofSignature "F"
    f.isUnknown = false ∧ s.Holds .func f ∧ ¬ s.Holds .type f ∧
      ∀ c d, s.Holds c f → s.Holds d f → c = d := by
  intro r s f
  have hknown : f.isUnknown = false := by decide +kernel
  have hfirst : Remap.firstCategory? (Remap.identified r) f = some .func := by decide +kernel
  obtain ⟨hholds, hone⟩ := r.remap_one_category_iff (some ⟨"/"⟩) (fun _ => none) hknown
  refine ⟨hknown, (hholds .func).mpr (.inl hfirst), fun htype => ?_, hone.mpr fun hnone => ?_⟩
  · rcases (hholds .type).mp htype with h | ⟨h, -⟩
    · cases hfirst.symm.trans h
    · cases hfirst.symm.trans h
  · cases hfirst.symm.trans hnone

/-- A target without an entry that one entry calls and another has as a base: it is held as a function
and as a type. -/
theorem shared_target_in_two_categories :
    let r : Record := {
      path := ⟨"/src/b.cc"⟩
      modified := 10
      entries := [
        { index := 0, category := .func, signature := "g", callees := [.signature "X"] },
        { index := 1, category := .type, signature := "S", bases := [.signature "X"] }] }
    let s := (r.remap (some ⟨"/"⟩) fun _ => none).1
    let x := SymbolId.ofSignature "X"
    (["g", "S", "X"].map SymbolId.ofSignature).Nodup ∧ x.isUnknown = false ∧
      s.Holds .func x ∧ s.Holds .type x := by
  unfold Snapshot.Holds
  decide +kernel

end SymbolIndex
