import SymbolIndex.Ordered.Map

/-! Finite sets held in ascending order: ordered maps that carry nothing at their keys. Main
statements: `mem_insert`, `mem_erase`, and `ext_mem`, that membership determines the set. -/

namespace SymbolIndex

open Std

structure OrderedSet (α : Type) [Ord α] where
  members : OrderedMap α Unit
  deriving DecidableEq

namespace OrderedSet

variable {α : Type} [Ord α]

def empty : OrderedSet α := ⟨.empty⟩

instance : EmptyCollection (OrderedSet α) := ⟨empty⟩
instance : Inhabited (OrderedSet α) := ⟨empty⟩

def toList (s : OrderedSet α) : List α := s.members.keys

def contains (s : OrderedSet α) (a : α) : Bool := s.members.contains a

def size (s : OrderedSet α) : Nat := s.members.size

def isEmpty (s : OrderedSet α) : Bool := s.members.isEmpty

def insert [TransOrd α] (s : OrderedSet α) (a : α) : OrderedSet α := ⟨s.members.insert a ()⟩

def erase (s : OrderedSet α) (a : α) : OrderedSet α := ⟨s.members.erase a⟩

def insertAll [TransOrd α] (s : OrderedSet α) (items : List α) : OrderedSet α :=
  items.foldl insert s

def eraseAll (s : OrderedSet α) (items : List α) : OrderedSet α :=
  items.foldl erase s

def ofList [TransOrd α] (items : List α) : OrderedSet α := empty.insertAll items

/-- The elements that `t` lacks, ascending. -/
def difference (s t : OrderedSet α) : List α := s.toList.filter fun a => !t.contains a

instance : Membership α (OrderedSet α) := ⟨fun s a => s.contains a = true⟩

theorem mem_iff {s : OrderedSet α} {a : α} : a ∈ s ↔ (s.members.find? a).isSome = true := Iff.rfl

instance (s : OrderedSet α) (a : α) : Decidable (a ∈ s) :=
  inferInstanceAs (Decidable (s.contains a = true))

theorem not_mem_empty (a : α) : ¬ a ∈ (empty : OrderedSet α) := by
  simp [mem_iff, empty]

theorem mem_insert [TransOrd α] {s : OrderedSet α} {a b : α} :
    b ∈ s.insert a ↔ compare b a = .eq ∨ b ∈ s := by
  simp only [mem_iff, insert, OrderedMap.find?_insert]
  split <;> simp_all

theorem mem_erase [TransOrd α] {s : OrderedSet α} {a b : α} :
    b ∈ s.erase a ↔ compare a b ≠ .eq ∧ b ∈ s := by
  simp only [mem_iff, erase, OrderedMap.find?_erase]
  split <;> simp_all

theorem mem_congr [TransOrd α] {s : OrderedSet α} {a b : α} (h : compare a b = .eq) :
    a ∈ s ↔ b ∈ s := by
  rw [mem_iff, mem_iff, OrderedMap.find?_congr _ h]

theorem mem_of_mem_toList [TransOrd α] {s : OrderedSet α} {a : α} (h : a ∈ s.toList) : a ∈ s := by
  obtain ⟨e, he, rfl⟩ := List.mem_map.mp h
  rw [mem_iff, OrderedMap.find?_eq_some_of_mem he]
  rfl

theorem exists_mem_toList {s : OrderedSet α} {a : α} (h : a ∈ s) :
    ∃ b ∈ s.toList, compare a b = .eq := by
  obtain ⟨u, hu⟩ := Option.isSome_iff_exists.mp h
  obtain ⟨b, hb, hm⟩ := OrderedMap.exists_mem_of_find? hu
  exact ⟨b, List.mem_map.mpr ⟨(b, u), hm, rfl⟩, hb⟩

/-- An insertion keeps the spellings that are there. -/
theorem mem_toList_insertAll [TransOrd α] {s : OrderedSet α} {items : List α} {a : α}
    (h : a ∈ (s.insertAll items).toList) : a ∈ items ∨ a ∈ s.toList := by
  induction items generalizing s with
  | nil => exact .inr h
  | cons b rest ih =>
    rcases ih (s := s.insert b) h with h | h
    · exact .inl (List.mem_cons_of_mem _ h)
    · obtain ⟨e, he, rfl⟩ := List.mem_map.mp h
      rcases OrderedMap.fst_of_mem_place he with hk | ⟨f, hf, hk⟩
      · exact .inl (by simp [hk])
      · exact .inr (List.mem_map.mpr ⟨f, hf, hk⟩)

theorem exists_eq_of_mem_insertAll [TransOrd α] {s : OrderedSet α} {items : List α} {a : α} :
    a ∈ s.insertAll items ↔ (∃ b ∈ items, compare a b = .eq) ∨ a ∈ s := by
  induction items generalizing s with
  | nil => simp [insertAll]
  | cons b rest ih =>
    rw [show s.insertAll (b :: rest) = (s.insert b).insertAll rest from rfl, ih, mem_insert]
    simp only [List.mem_cons, exists_eq_or_imp]
    constructor
    · rintro (h | h | h)
      · exact .inl (.inr h)
      · exact .inl (.inl h)
      · exact .inr h
    · rintro ((h | h) | h)
      · exact .inr (.inl h)
      · exact .inl h
      · exact .inr (.inr h)

theorem ext_mem [TransOrd α] [LawfulEqOrd α] {s t : OrderedSet α} (h : ∀ a, a ∈ s ↔ a ∈ t) :
    s = t := by
  have : s.members = t.members := OrderedMap.ext_find? fun a => by
    have h := h a
    simp only [mem_iff] at h
    cases hs : s.members.find? a <;> cases ht : t.members.find? a <;> simp_all
  cases s; cases t; cases this; rfl

theorem mem_toList [TransOrd α] [LawfulEqOrd α] {s : OrderedSet α} {a : α} :
    a ∈ s.toList ↔ a ∈ s := by
  simp only [toList, OrderedMap.keys, List.mem_map, mem_iff]
  constructor
  · rintro ⟨⟨b, u⟩, hb, rfl⟩
    simp [OrderedMap.mem_entries_iff.1 hb]
  · intro h
    obtain ⟨u, hu⟩ := Option.isSome_iff_exists.1 h
    exact ⟨(a, u), OrderedMap.mem_entries_iff.2 hu, rfl⟩

theorem mem_insertAll [TransOrd α] [LawfulEqOrd α] {s : OrderedSet α} {items : List α} {a : α} :
    a ∈ s.insertAll items ↔ a ∈ items ∨ a ∈ s := by
  rw [exists_eq_of_mem_insertAll]
  simp only [LawfulEqOrd.compare_eq_iff_eq, exists_eq_right']

theorem mem_eraseAll [TransOrd α] [LawfulEqOrd α] {s : OrderedSet α} {items : List α} {a : α} :
    a ∈ s.eraseAll items ↔ a ∉ items ∧ a ∈ s := by
  induction items generalizing s with
  | nil => simp [eraseAll]
  | cons b rest ih =>
    rw [show s.eraseAll (b :: rest) = (s.erase b).eraseAll rest from rfl, ih, mem_erase,
      ne_eq, LawfulEqOrd.compare_eq_iff_eq, List.mem_cons]
    constructor
    · rintro ⟨hr, hb, hs⟩
      exact ⟨fun h => h.elim (fun he => hb he.symm) hr, hs⟩
    · rintro ⟨h, hs⟩
      exact ⟨fun hr => h (.inr hr), fun hb => h (.inl hb.symm), hs⟩

theorem mem_difference [TransOrd α] [LawfulEqOrd α] {s t : OrderedSet α} {a : α} :
    a ∈ s.difference t ↔ a ∈ s ∧ a ∉ t := by
  rw [difference, List.mem_filter, mem_toList, Bool.not_eq_true', ← Bool.not_eq_true]
  rfl

theorem isEmpty_iff [TransOrd α] {s : OrderedSet α} : s.isEmpty = true ↔ ∀ a, a ∉ s := by
  rw [isEmpty]
  simp only [mem_iff, Bool.not_eq_true, Option.isSome_eq_false_iff, Option.isNone_iff_eq_none]
  exact OrderedMap.isEmpty_iff

theorem eq_empty_of_isEmpty [TransOrd α] [LawfulEqOrd α] {s : OrderedSet α} (h : s.isEmpty = true) :
    s = ∅ :=
  ext_mem fun a => ⟨fun ha => absurd ha (isEmpty_iff.mp h a), fun ha => absurd ha (not_mem_empty a)⟩

/-- A set is read back from its elements. -/
theorem ofList_toList [TransOrd α] (s : OrderedSet α) : ofList s.toList = s := by
  have hmembers : ∀ (items : List α) (t : OrderedSet α),
      (t.insertAll items).members = t.members.insertAll (items.map (·, ())) := by
    intro items
    induction items with
    | nil => exact fun _ => rfl
    | cons a rest ih => exact fun t => ih (t.insert a)
  have hentries : s.toList.map (·, ()) = s.members.entries := by
    rw [toList, OrderedMap.keys, List.map_map]
    exact List.map_id _
  have h : (ofList s.toList).members = s.members := by
    rw [ofList, hmembers, hentries]
    exact OrderedMap.ofList_entries s.members
  cases hs : ofList s.toList
  cases s
  rw [hs] at h
  cases h
  rfl

end OrderedSet

end SymbolIndex
