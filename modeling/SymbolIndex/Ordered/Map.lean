/-! Finite maps held in ascending key order. Two keys are the same when `compare` calls them equal,
so a key type may identify several spellings; the spelling inserted first is kept. Main statements:
`find?_insert`, `find?_erase`, and `ext_find?`, that lookups determine the map when equal keys are
identical. -/

namespace SymbolIndex

open Std

structure OrderedMap (κ ν : Type) [Ord κ] where
  entries : List (κ × ν)
  ascending : entries.Pairwise fun a b => compare a.1 b.1 = .lt

namespace OrderedMap

variable {κ ν ω : Type} [Ord κ]

instance [DecidableEq κ] [DecidableEq ν] : DecidableEq (OrderedMap κ ν) := fun a b =>
  if h : a.entries = b.entries then
    .isTrue (by cases a; cases b; cases h; rfl)
  else
    .isFalse fun e => h (e ▸ rfl)

theorem ext_entries {a b : OrderedMap κ ν} (h : a.entries = b.entries) : a = b := by
  cases a; cases b; cases h; rfl

def empty : OrderedMap κ ν := ⟨[], .nil⟩

instance : EmptyCollection (OrderedMap κ ν) := ⟨empty⟩
instance : Inhabited (OrderedMap κ ν) := ⟨empty⟩

/-- The value of the first entry whose key equals `k`. -/
def lookup (k : κ) : List (κ × ν) → Option ν
  | [] => none
  | (k', v) :: rest => if compare k k' = .eq then some v else lookup k rest

def find? (m : OrderedMap κ ν) (k : κ) : Option ν := lookup k m.entries

def contains (m : OrderedMap κ ν) (k : κ) : Bool := (m.find? k).isSome

def keys (m : OrderedMap κ ν) : List κ := m.entries.map (·.1)

def values (m : OrderedMap κ ν) : List ν := m.entries.map (·.2)

def size (m : OrderedMap κ ν) : Nat := m.entries.length

def isEmpty (m : OrderedMap κ ν) : Bool := m.entries.isEmpty

/-- Put `v` at `k`, keeping the key that is already there. -/
def place (k : κ) (v : ν) : List (κ × ν) → List (κ × ν)
  | [] => [(k, v)]
  | (k', v') :: rest =>
    match compare k k' with
    | .lt => (k, v) :: (k', v') :: rest
    | .eq => (k', v) :: rest
    | .gt => (k', v') :: place k v rest

theorem fst_of_mem_place {k : κ} {v : ν} {e : κ × ν} {l : List (κ × ν)} (h : e ∈ place k v l) :
    e.1 = k ∨ ∃ f ∈ l, f.1 = e.1 := by
  induction l with
  | nil => simp only [place, List.mem_singleton] at h; exact .inl (by rw [h])
  | cons f rest ih =>
    obtain ⟨k', v'⟩ := f
    rw [place] at h
    split at h
    · rcases List.mem_cons.1 h with h | h
      · exact .inl (by rw [h])
      · exact .inr ⟨e, h, rfl⟩
    · rcases List.mem_cons.1 h with h | h
      · exact .inr ⟨(k', v'), by simp, by rw [h]⟩
      · exact .inr ⟨e, List.mem_cons_of_mem _ h, rfl⟩
    · rcases List.mem_cons.1 h with h | h
      · exact .inr ⟨(k', v'), by simp, by rw [h]⟩
      · rcases ih h with h | ⟨f, hf, hk⟩
        · exact .inl h
        · exact .inr ⟨f, List.mem_cons_of_mem _ hf, hk⟩

theorem pairwise_place [TransOrd κ] (k : κ) (v : ν) {l : List (κ × ν)}
    (h : l.Pairwise fun a b => compare a.1 b.1 = .lt) :
    (place k v l).Pairwise fun a b => compare a.1 b.1 = .lt := by
  induction l with
  | nil => simp [place]
  | cons f rest ih =>
    obtain ⟨k', v'⟩ := f
    rw [List.pairwise_cons] at h
    rw [place]
    split
    next hk =>
      refine List.pairwise_cons.2 ⟨fun e he => ?_, List.pairwise_cons.2 h⟩
      rcases List.mem_cons.1 he with rfl | he
      · exact hk
      · exact TransCmp.lt_trans hk (h.1 e he)
    next => exact List.pairwise_cons.2 ⟨fun e he => h.1 e he, h.2⟩
    next hk =>
      refine List.pairwise_cons.2 ⟨fun e he => ?_, ih h.2⟩
      rcases fst_of_mem_place he with he | ⟨f, hf, he⟩
      · rw [he]; exact OrientedCmp.lt_of_gt hk
      · rw [← he]; exact h.1 f hf

def insert [TransOrd κ] (m : OrderedMap κ ν) (k : κ) (v : ν) : OrderedMap κ ν :=
  ⟨place k v m.entries, pairwise_place k v m.ascending⟩

def filter (m : OrderedMap κ ν) (p : κ → ν → Bool) : OrderedMap κ ν :=
  ⟨m.entries.filter fun e => p e.1 e.2, m.ascending.filter _⟩

def erase (m : OrderedMap κ ν) (k : κ) : OrderedMap κ ν :=
  m.filter fun k' _ => compare k k' != .eq

/-- Replace what `k` holds by `f` of it; `none` stands for no entry on both sides. -/
def alter [TransOrd κ] (m : OrderedMap κ ν) (k : κ) (f : Option ν → Option ν) : OrderedMap κ ν :=
  match f (m.find? k) with
  | some v => m.insert k v
  | none => m.erase k

def insertNew [TransOrd κ] (m : OrderedMap κ ν) (k : κ) (v : ν) : OrderedMap κ ν :=
  if m.contains k then m else m.insert k v

theorem pairwise_mapValues (f : κ → ν → ω) {l : List (κ × ν)}
    (h : l.Pairwise fun a b => compare a.1 b.1 = .lt) :
    (l.map fun e => (e.1, f e.1 e.2)).Pairwise fun a b => compare a.1 b.1 = .lt :=
  List.pairwise_map.2 h

def mapValues (m : OrderedMap κ ν) (f : κ → ν → ω) : OrderedMap κ ω :=
  ⟨m.entries.map fun e => (e.1, f e.1 e.2), pairwise_mapValues f m.ascending⟩

def insertAll [TransOrd κ] (m : OrderedMap κ ν) (entries : List (κ × ν)) : OrderedMap κ ν :=
  entries.foldl (fun m e => m.insert e.1 e.2) m

/-- A later entry replaces the value of an earlier one with an equal key. -/
def ofList [TransOrd κ] (entries : List (κ × ν)) : OrderedMap κ ν := empty.insertAll entries

@[simp] theorem find?_empty (k : κ) : (empty : OrderedMap κ ν).find? k = none := rfl

theorem lookup_place [TransOrd κ] (k k' : κ) (v : ν) {l : List (κ × ν)}
    (h : l.Pairwise fun a b => compare a.1 b.1 = .lt) :
    lookup k' (place k v l) = if compare k' k = .eq then some v else lookup k' l := by
  induction l with
  | nil => simp [place, lookup]
  | cons f rest ih =>
    obtain ⟨a, x⟩ := f
    rw [List.pairwise_cons] at h
    rw [place]
    split
    next => simp [lookup]
    next hk =>
      have := TransCmp.congr_right (a := k') hk
      simp only [lookup, this]
      split <;> rfl
    next hk =>
      simp only [lookup, ih h.2]
      by_cases ha : compare k' a = .eq
      · have : compare k' k ≠ .eq := fun hc => by
          have : compare k a = .eq := TransCmp.eq_trans (OrientedCmp.eq_symm hc) ha
          rw [hk] at this; exact absurd this (by decide)
        simp [ha, this]
      · simp [ha]

theorem find?_insert [TransOrd κ] (m : OrderedMap κ ν) (k k' : κ) (v : ν) :
    (m.insert k v).find? k' = if compare k' k = .eq then some v else m.find? k' :=
  lookup_place k k' v m.ascending

theorem lookup_filter_ne [TransOrd κ] (k k' : κ) (l : List (κ × ν)) :
    lookup k' (l.filter fun e => compare k e.1 != .eq) =
      if compare k k' = .eq then none else lookup k' l := by
  induction l with
  | nil => simp [lookup]
  | cons f rest ih =>
    obtain ⟨a, x⟩ := f
    by_cases ha : compare k a = .eq
    · have hc := TransCmp.congr_left (c := k') (OrientedCmp.eq_symm ha)
      simp only [List.filter_cons, ha, bne_self_eq_false, Bool.false_eq_true, if_false, ih, lookup]
      by_cases hk : compare k k' = .eq
      · simp [hk]
      · have : compare k' a ≠ .eq := fun h => hk (TransCmp.eq_trans ha (OrientedCmp.eq_symm h))
        simp [hk, this]
    · have ha' : (compare k a != .eq) = true := by simpa using ha
      simp only [List.filter_cons, ha', if_true, lookup, ih]
      by_cases hk : compare k' a = .eq
      · have : compare k k' ≠ .eq := fun h => ha (TransCmp.eq_trans h hk)
        simp [hk, this]
      · simp [hk]

theorem find?_erase [TransOrd κ] (m : OrderedMap κ ν) (k k' : κ) :
    (m.erase k).find? k' = if compare k k' = .eq then none else m.find? k' :=
  lookup_filter_ne k k' m.entries

theorem find?_alter [TransOrd κ] (m : OrderedMap κ ν) (k k' : κ) (f : Option ν → Option ν) :
    (m.alter k f).find? k' = if compare k' k = .eq then f (m.find? k) else m.find? k' := by
  rw [alter]
  split
  next v hv => rw [find?_insert, hv]
  next hv => simp only [find?_erase, hv, OrientedCmp.eq_comm (a := k)]

theorem lookup_eq_some_of_mem [TransOrd κ] {l : List (κ × ν)}
    (h : l.Pairwise fun a b => compare a.1 b.1 = .lt) {e : κ × ν} (he : e ∈ l) :
    lookup e.1 l = some e.2 := by
  induction l with
  | nil => cases he
  | cons f rest ih =>
    obtain ⟨a, x⟩ := f
    rw [List.pairwise_cons] at h
    rcases List.mem_cons.1 he with rfl | he
    · simp [lookup, ReflCmp.compare_self]
    · have hlt := h.1 e he
      have : compare e.1 a ≠ .eq := fun hc => by
        rw [OrientedCmp.eq_symm hc] at hlt; exact absurd hlt (by decide)
      simp [lookup, this, ih h.2 he]

theorem find?_eq_some_of_mem [TransOrd κ] {m : OrderedMap κ ν} {e : κ × ν} (he : e ∈ m.entries) :
    m.find? e.1 = some e.2 :=
  lookup_eq_some_of_mem m.ascending he

theorem exists_mem_of_find? {m : OrderedMap κ ν} {k : κ} {v : ν} (h : m.find? k = some v) :
    ∃ k', compare k k' = .eq ∧ (k', v) ∈ m.entries := by
  have aux : ∀ l : List (κ × ν), lookup k l = some v → ∃ k', compare k k' = .eq ∧ (k', v) ∈ l := by
    intro l
    induction l with
    | nil => simp [lookup]
    | cons f rest ih =>
      obtain ⟨a, x⟩ := f
      intro hl
      rw [lookup] at hl
      split at hl
      next hk => exact ⟨a, hk, by simp [Option.some.inj hl]⟩
      next => obtain ⟨k', hk, hm⟩ := ih hl; exact ⟨k', hk, List.mem_cons_of_mem _ hm⟩
  exact aux _ h

theorem find?_congr [TransOrd κ] (m : OrderedMap κ ν) {k k' : κ} (h : compare k k' = .eq) :
    m.find? k = m.find? k' := by
  rw [find?, find?]
  generalize m.entries = entries
  induction entries with
  | nil => rfl
  | cons e rest ih =>
    obtain ⟨a, v⟩ := e
    rw [lookup, lookup, ih, TransCmp.congr_left h]

/-- Equal keys of a map are spelled the same. -/
theorem eq_of_mem_keys [TransOrd κ] {m : OrderedMap κ ν} {k k' : κ} (hk : k ∈ m.keys)
    (hk' : k' ∈ m.keys) (h : compare k k' = .eq) : k = k' := by
  obtain ⟨e, he, rfl⟩ := List.mem_map.mp hk
  obtain ⟨f, hf, rfl⟩ := List.mem_map.mp hk'
  obtain ⟨i, hi, rfl⟩ := List.getElem_of_mem he
  obtain ⟨j, hj, rfl⟩ := List.getElem_of_mem hf
  have hlt := List.pairwise_iff_getElem.mp m.ascending
  rcases Nat.lt_trichotomy i j with hij | rfl | hij
  · rw [hlt i j hi hj hij] at h
    cases h
  · rfl
  · rw [OrientedOrd.eq_swap, hlt j i hj hi hij] at h
    cases h

theorem mem_entries_iff [TransOrd κ] [LawfulEqOrd κ] {m : OrderedMap κ ν} {k : κ} {v : ν} :
    (k, v) ∈ m.entries ↔ m.find? k = some v := by
  constructor
  · intro h; exact find?_eq_some_of_mem h
  · intro h
    obtain ⟨k', hk, hm⟩ := exists_mem_of_find? h
    rwa [LawfulEqOrd.eq_of_compare hk]

theorem eq_of_mem_iff [TransOrd κ] {a b : List (κ × ν)}
    (ha : a.Pairwise fun x y => compare x.1 y.1 = .lt)
    (hb : b.Pairwise fun x y => compare x.1 y.1 = .lt)
    (h : ∀ e, e ∈ a ↔ e ∈ b) : a = b := by
  induction a generalizing b with
  | nil =>
    cases b with
    | nil => rfl
    | cons e _ => exact absurd ((h e).2 (by simp)) (by simp)
  | cons e a ih =>
    cases b with
    | nil => exact absurd ((h e).1 (by simp)) (by simp)
    | cons f b =>
      rw [List.pairwise_cons] at ha hb
      have irrefl : ∀ x : κ × ν, compare x.1 x.1 ≠ .lt := fun x => by
        rw [@ReflCmp.compare_self _ compare]; decide
      have hef : e = f := by
        rcases List.mem_cons.1 ((h e).1 (by simp)) with he | he
        · exact he
        · rcases List.mem_cons.1 ((h f).2 (by simp)) with hf | hf
          · exact hf.symm
          · exact absurd (TransCmp.lt_trans (ha.1 f hf) (hb.1 e he)) (irrefl e)
      subst hef
      congr 1
      refine ih ha.2 hb.2 fun x => ?_
      constructor
      · intro hx
        rcases List.mem_cons.1 ((h x).1 (List.mem_cons_of_mem _ hx)) with hxe | hx'
        · subst hxe; exact absurd (ha.1 x hx) (irrefl x)
        · exact hx'
      · intro hx
        rcases List.mem_cons.1 ((h x).2 (List.mem_cons_of_mem _ hx)) with hxe | hx'
        · subst hxe; exact absurd (hb.1 x hx) (irrefl x)
        · exact hx'

theorem ext_find? [TransOrd κ] [LawfulEqOrd κ] {a b : OrderedMap κ ν}
    (h : ∀ k, a.find? k = b.find? k) : a = b :=
  ext_entries <| eq_of_mem_iff a.ascending b.ascending fun e => by
    rw [show e = (e.1, e.2) from rfl, mem_entries_iff, mem_entries_iff, h]

theorem insertAll_cons [TransOrd κ] (m : OrderedMap κ ν) (e : κ × ν) (rest : List (κ × ν)) :
    m.insertAll (e :: rest) = (m.insert e.1 e.2).insertAll rest := rfl

theorem isEmpty_iff {m : OrderedMap κ ν} [TransOrd κ] :
    m.isEmpty = true ↔ ∀ k, m.find? k = none := by
  rw [isEmpty, List.isEmpty_iff]
  constructor
  · intro h k
    simp [find?, h, lookup]
  · intro h
    cases hm : m.entries with
    | nil => rfl
    | cons e rest =>
      have he := find?_eq_some_of_mem (m := m) (e := e) (by simp [hm])
      rw [h] at he
      cases he

theorem isEmpty_insert [TransOrd κ] (m : OrderedMap κ ν) (k : κ) (v : ν) :
    (m.insert k v).isEmpty = false := by
  rw [Bool.eq_false_iff]
  intro h
  have hk := isEmpty_iff.mp h k
  rw [find?_insert, if_pos ReflCmp.compare_self] at hk
  cases hk

theorem exists_of_isEmpty_eq_false [TransOrd κ] {m : OrderedMap κ ν} (h : m.isEmpty = false) :
    ∃ k v, m.find? k = some v := by
  cases hm : m.entries with
  | nil =>
    rw [isEmpty, hm] at h
    cases h
  | cons e rest => exact ⟨e.1, e.2, find?_eq_some_of_mem (by simp [hm])⟩

theorem find?_filter [TransOrd κ] [LawfulEqOrd κ] (m : OrderedMap κ ν) (p : κ → ν → Bool) (k : κ) :
    (m.filter p).find? k = (m.find? k).filter (p k) := by
  ext v
  rw [← mem_entries_iff, Option.filter_eq_some_iff, ← mem_entries_iff, filter, List.mem_filter]

/-- Inserting a function's graph, at the keys where the function has a value. -/
theorem find?_insertAll_graph [TransOrd κ] [LawfulEqOrd κ] [DecidableEq κ] (m : OrderedMap κ ν)
    (f : κ → Option ν) (keys : List κ) (k : κ) :
    (m.insertAll (keys.filterMap fun a => (f a).map (a, ·))).find? k =
      if k ∈ keys then f k <|> m.find? k else m.find? k := by
  induction keys generalizing m with
  | nil => simp [insertAll]
  | cons a rest ih =>
    cases hf : f a with
    | none =>
      rw [List.filterMap_cons_none (by simp [hf]), ih]
      by_cases hk : k = a
      · subst hk
        simp [hf]
      · simp [hk]
    | some v =>
      rw [List.filterMap_cons_some (by simp [hf]; rfl), insertAll_cons, ih, find?_insert]
      by_cases hk : k = a
      · subst hk
        simp [hf]
      · simp [hk]

theorem mem_keys_iff [TransOrd κ] [LawfulEqOrd κ] {m : OrderedMap κ ν} {k : κ} :
    k ∈ m.keys ↔ (m.find? k).isSome = true := by
  simp only [keys, List.mem_map, Option.isSome_iff_exists, ← mem_entries_iff]
  constructor
  · rintro ⟨⟨k', v⟩, hm, rfl⟩
    exact ⟨v, hm⟩
  · rintro ⟨v, hm⟩
    exact ⟨(k, v), hm, rfl⟩

theorem contains_eq_any [TransOrd κ] (m : OrderedMap κ ν) (k : κ) :
    m.contains k = m.keys.any fun k' => compare k k' == .eq := by
  rw [Bool.eq_iff_iff, contains, Option.isSome_iff_exists, List.any_eq_true]
  constructor
  · rintro ⟨v, hv⟩
    obtain ⟨k', hk, hm⟩ := exists_mem_of_find? hv
    exact ⟨k', List.mem_map.mpr ⟨_, hm, rfl⟩, beq_iff_eq.mpr hk⟩
  · rintro ⟨k', hm, hk⟩
    obtain ⟨e, he, rfl⟩ := List.mem_map.mp hm
    exact ⟨e.2, (m.find?_congr (beq_iff_eq.mp hk)).trans (find?_eq_some_of_mem he)⟩

/-- At most one entry has a given key. -/
theorem filter_key [TransOrd κ] [LawfulEqOrd κ] [DecidableEq κ] (m : OrderedMap κ ν) (k : κ) :
    m.entries.filter (fun e => decide (e.1 = k)) = ((m.find? k).map (k, ·)).toList := by
  have aux : ∀ l : List (κ × ν), l.Pairwise (fun a b => compare a.1 b.1 = .lt) →
      l.filter (fun e => decide (e.1 = k)) = ((lookup k l).map (k, ·)).toList := by
    intro l
    induction l with
    | nil => intro _; rfl
    | cons e rest ih =>
      obtain ⟨a, v⟩ := e
      intro h
      have hr := List.pairwise_cons.mp h
      rw [lookup, List.filter_cons]
      by_cases hk : k = a
      · subst hk
        have hnil : rest.filter (fun e => decide (e.1 = k)) = [] := by
          rw [List.filter_eq_nil_iff]
          intro e he hek
          have hlt := hr.1 e he
          rw [of_decide_eq_true hek] at hlt
          have heq : compare k k = .eq := LawfulEqOrd.compare_eq_iff_eq.mpr rfl
          cases heq.symm.trans hlt
        simp [ReflCmp.compare_self, hnil]
      · have hne : ¬ compare k a = .eq := fun h => hk (LawfulEqOrd.eq_of_compare h)
        simp [hne, Ne.symm hk, ih hr.2]
  exact aux _ m.ascending

theorem insert_of_find? [TransOrd κ] [LawfulEqOrd κ] {m : OrderedMap κ ν} {k : κ} {v : ν}
    (h : m.find? k = some v) : m.insert k v = m :=
  ext_find? fun k' => by
    rw [find?_insert]
    split
    next hk => rw [LawfulEqOrd.eq_of_compare hk, h]
    next => rfl

theorem erase_of_find? [TransOrd κ] [LawfulEqOrd κ] {m : OrderedMap κ ν} {k : κ}
    (h : m.find? k = none) : m.erase k = m :=
  ext_find? fun k' => by
    rw [find?_erase]
    split
    next hk => rw [← LawfulEqOrd.eq_of_compare hk, h]
    next => rfl

section Counting

/-! How many entries pass a test that does not tell the spellings of a key apart. -/

variable [TransOrd κ] (m : OrderedMap κ ν) (k : κ) {q : κ × ν → Bool}

theorem erase_insert (v : ν) : (m.insert k v).erase k = m.erase k := by
  refine ext_entries ?_
  show (place k v m.entries).filter _ = m.entries.filter _
  induction m.entries with
  | nil => simp [place, ReflCmp.compare_self]
  | cons e rest ih =>
    rw [place]
    split
    next => simp [ReflCmp.compare_self]
    next hk => simp [hk]
    next hk => simp [hk, ih]

/-- At most one entry has a given key. -/
theorem countP_key (hq : ∀ k' v, compare k k' = .eq → q (k', v) = q (k, v)) :
    (m.entries.filter fun e => compare k e.1 == .eq).countP q =
      ((m.find? k).any fun v => q (k, v)).toNat := by
  have aux : ∀ l : List (κ × ν), l.Pairwise (fun a b => compare a.1 b.1 = .lt) →
      (l.filter fun e => compare k e.1 == .eq).countP q =
        ((lookup k l).any fun v => q (k, v)).toNat := by
    intro l
    induction l with
    | nil => intro _; rfl
    | cons e rest ih =>
      intro h
      obtain ⟨hlt, hrest⟩ := List.pairwise_cons.mp h
      rw [lookup, List.filter_cons]
      by_cases hk : compare k e.1 = .eq
      · have hnil : rest.filter (fun e => compare k e.1 == .eq) = [] := by
          rw [List.filter_eq_nil_iff]
          intro f hf hkf
          have hef := hlt f hf
          rw [TransCmp.congr_left (OrientedCmp.eq_symm hk), beq_iff_eq.mp hkf] at hef
          cases hef
        rw [if_pos (beq_iff_eq.mpr hk), hnil, if_pos hk, List.countP_singleton, hq e.1 e.2 hk,
          Option.any_some]
        cases q (k, e.2) <;> rfl
      · simp [hk, ih hrest]
  exact aux _ m.ascending

theorem countP_erase (hq : ∀ k' v, compare k k' = .eq → q (k', v) = q (k, v)) :
    (m.erase k).entries.countP q + ((m.find? k).any fun v => q (k, v)).toNat =
      m.entries.countP q := by
  rw [← countP_key m k hq,
    List.countP_eq_countP_filter_add m.entries q fun e => compare k e.1 != .eq]
  simp only [bne, Bool.not_not]
  rfl

theorem countP_insert (hq : ∀ k' v, compare k k' = .eq → q (k', v) = q (k, v)) (v : ν) :
    (m.insert k v).entries.countP q = (m.erase k).entries.countP q + (q (k, v)).toNat := by
  rw [← countP_erase (m.insert k v) k hq, erase_insert, find?_insert, if_pos ReflCmp.compare_self]
  rfl

theorem size_erase : (m.erase k).size + (m.contains k).toNat = m.size := by
  have h := countP_erase m k (q := fun _ => true) fun _ _ _ => rfl
  simp only [List.countP_true] at h
  rw [size, size, contains, ← h]
  cases m.find? k <;> rfl

theorem size_insert (v : ν) : (m.insert k v).size = (m.erase k).size + 1 := by
  have h := countP_insert m k (q := fun _ => true) (fun _ _ _ => rfl) v
  simp only [List.countP_true] at h
  exact h

end Counting

/-- A map from numbers below `n` lists its values in the order of these numbers. -/
theorem entries_eq_range {m : OrderedMap Nat ν} {n : Nat}
    (h : ∀ k, (m.find? k).isSome = true → k < n) :
    m.entries = (List.range n).filterMap fun k => (m.find? k).map (k, ·) := by
  refine eq_of_mem_iff m.ascending ?_ fun e => ?_
  · rw [List.pairwise_filterMap]
    refine List.pairwise_lt_range.imp fun hab e he f hf => ?_
    obtain ⟨_, _, rfl⟩ := Option.map_eq_some_iff.mp he
    obtain ⟨_, _, rfl⟩ := Option.map_eq_some_iff.mp hf
    exact Nat.compare_eq_lt.mpr hab
  · obtain ⟨k, v⟩ := e
    rw [mem_entries_iff, List.mem_filterMap]
    constructor
    · intro hk
      exact ⟨k, List.mem_range.mpr (h k (by rw [hk]; rfl)), by rw [hk]; rfl⟩
    · rintro ⟨k', _, hk'⟩
      obtain ⟨v', hv', he⟩ := Option.map_eq_some_iff.mp hk'
      cases he
      exact hv'

/-- A property of entries that is kept when an equal key takes a value over. -/
theorem forall_mem_place {P : κ × ν → Prop} {k : κ} {v : ν} {l : List (κ × ν)}
    (hP : ∀ k' v', compare k k' = .eq → P (k', v') → P (k', v)) (hk : P (k, v))
    (hl : ∀ e ∈ l, P e) : ∀ e ∈ place k v l, P e := by
  induction l with
  | nil => simpa [place] using hk
  | cons f rest ih =>
    obtain ⟨k', v'⟩ := f
    obtain ⟨hf, hrest⟩ := List.forall_mem_cons.mp hl
    rw [place]
    split
    next => exact List.forall_mem_cons.mpr ⟨hk, hl⟩
    next he => exact List.forall_mem_cons.mpr ⟨hP k' v' he hf, hrest⟩
    next => exact List.forall_mem_cons.mpr ⟨hf, ih hrest⟩

theorem forall_mem_ofList [TransOrd κ] {P : κ × ν → Prop} {entries : List (κ × ν)}
    (hP : ∀ k v k' v', compare k k' = .eq → P (k, v) → P (k', v') → P (k', v))
    (h : ∀ e ∈ entries, P e) : ∀ e ∈ (ofList entries).entries, P e := by
  rw [ofList]
  have hempty : ∀ e ∈ (empty : OrderedMap κ ν).entries, P e := fun e he => nomatch he
  generalize (empty : OrderedMap κ ν) = m at hempty
  induction entries generalizing m with
  | nil => exact hempty
  | cons e rest ih =>
    obtain ⟨he, hrest⟩ := List.forall_mem_cons.mp h
    exact ih hrest _ (forall_mem_place (fun k' v' hk hv => hP _ _ _ _ hk he hv) he hempty)

theorem place_of_lt [TransOrd κ] {k : κ} {v : ν} {l : List (κ × ν)}
    (h : ∀ e ∈ l, compare e.1 k = .lt) : place k v l = l ++ [(k, v)] := by
  induction l with
  | nil => rfl
  | cons e rest ih =>
    have he : compare k e.1 = .gt := OrientedCmp.gt_of_lt (h e (by simp))
    rw [place, he, ih fun f hf => h f (List.mem_cons_of_mem _ hf)]
    rfl

theorem entries_insertAll [TransOrd κ] {m : OrderedMap κ ν} {entries : List (κ × ν)}
    (h : (m.entries ++ entries).Pairwise fun a b => compare a.1 b.1 = .lt) :
    (m.insertAll entries).entries = m.entries ++ entries := by
  induction entries generalizing m with
  | nil => simp [insertAll]
  | cons e rest ih =>
    have hlt : ∀ a ∈ m.entries, compare a.1 e.1 = .lt := fun a ha =>
      (List.pairwise_append.mp h).2.2 a ha e (by simp)
    have hins : (m.insert e.1 e.2).entries = m.entries ++ [e] := place_of_lt hlt
    rw [insertAll_cons, ih (by rw [hins, List.append_assoc]; exact h), hins, List.append_assoc]
    rfl

/-- A map is read back from its entries. -/
theorem ofList_entries [TransOrd κ] (m : OrderedMap κ ν) : ofList m.entries = m :=
  ext_entries (entries_insertAll m.ascending)

end OrderedMap

end SymbolIndex
