import SymbolIndex.Lru

/-! A cache in front of something else. As long as every entry is what stands behind the cache, a
lookup that succeeds is right, whatever was dropped and numbered anew in between. -/

namespace SymbolIndex

open Std

namespace Lru

variable {κ ν : Type}

def held (c : Lru κ ν) : List (κ × ν) := c.entries.map fun e => (e.key, e.value)

theorem modify_split (l₁ l₂ : List (ScoredEntry κ ν)) (e : ScoredEntry κ ν)
    (f : ScoredEntry κ ν → ScoredEntry κ ν) :
    (l₁ ++ e :: l₂).modify l₁.length f = l₁ ++ f e :: l₂ := by
  induction l₁ with
  | nil => rfl
  | cons a rest ih => simp [ih]

theorem swapRemove_split (l₁ l₂ : List (ScoredEntry κ ν)) (e : ScoredEntry κ ν) :
    (swapRemove (l₁ ++ e :: l₂) l₁.length).Perm (l₁ ++ l₂) := by
  rcases List.eq_nil_or_concat l₂ with rfl | ⟨front, last, rfl⟩
  · simp [swapRemove]
  · rw [List.concat_eq_append]
    have hlast : (l₁ ++ e :: (front ++ [last])).getLast? = some last := by
      rw [← List.cons_append, ← List.append_assoc, List.getLast?_concat]
    have hlen : ¬ l₁.length + 1 = (l₁ ++ e :: (front ++ [last])).length := by simp
    have hset : (l₁ ++ e :: (front ++ [last])).set l₁.length last =
        (l₁ ++ last :: front) ++ [last] := by
      rw [List.set_append_right _ _ (Nat.le_refl _), Nat.sub_self]
      simp
    rw [swapRemove, hlast]
    dsimp only
    rw [if_neg hlen, hset, List.dropLast_concat]
    exact (List.perm_append_singleton last front).symm.append_left l₁

/-- Numbering anew changes the scores only. -/
theorem map_pair_mapIdx (entries : List (ScoredEntry κ ν)) :
    (entries.mapIdx fun i e => { e with score := .ofNat i }).map (fun e => (e.key, e.value)) =
      entries.map fun e => (e.key, e.value) :=
  List.ext_getElem (by simp) fun i _ _ => by simp

theorem held_rescore (c : Lru κ ν) : c.rescore.held.Perm c.held := by
  rw [held, rescore]
  dsimp only
  rw [map_pair_mapIdx]
  exact (List.mergeSort_perm _ _).map _

theorem held_bump (c : Lru κ ν) : c.bump.1.held.Perm c.held := by
  rw [bump]
  split
  next => exact c.held_rescore
  next => exact .refl _

theorem leastRecent?_lt {c : Lru κ ν} {i : Nat} (h : c.leastRecent? = some i) :
    i < c.entries.length := by
  rw [leastRecent?] at h
  split at h
  next => cases h
  next => exact (List.findIdx?_eq_some_iff_getElem.mp h).1

theorem split_of_findIdx? {p : ScoredEntry κ ν → Bool} {entries : List (ScoredEntry κ ν)} {i : Nat}
    (h : entries.findIdx? p = some i) :
    ∃ l₁ e l₂, entries = l₁ ++ e :: l₂ ∧ l₁.length = i ∧ entries[i]? = some e ∧ p e = true := by
  obtain ⟨hi, he, _⟩ := List.findIdx?_eq_some_iff_getElem.mp h
  refine ⟨entries.take i, entries[i], entries.drop (i + 1), ?_, ?_,
    List.getElem?_eq_getElem hi, he⟩
  · rw [← List.drop_eq_getElem_cons hi, List.take_append_drop]
  · rw [List.length_take]
    omega

variable [Ord κ]

/-- Each key is held at most once, with the value that `view` gives for it. -/
structure Mirrors (c : Lru κ ν) (view : κ → Option ν) : Prop where
  distinct : c.held.Pairwise fun a b => compare a.1 b.1 ≠ .eq
  agrees : ∀ e ∈ c.held, view e.1 = some e.2

variable {c : Lru κ ν} {view : κ → Option ν}

theorem mirrors_new (capacity : Nat) (view : κ → Option ν) :
    (⟨[], capacity, 0, defaultMaxScore⟩ : Lru κ ν).Mirrors view :=
  ⟨.nil, fun _ he => absurd he List.not_mem_nil⟩

theorem Mirrors.sublist (h : c.Mirrors view) {c' : Lru κ ν} (hs : c'.held.Sublist c.held) :
    c'.Mirrors view :=
  ⟨h.distinct.sublist hs, fun e he => h.agrees e (hs.mem he)⟩

variable [TransOrd κ]

theorem Mirrors.perm (h : c.Mirrors view) {c' : Lru κ ν} (hp : c'.held.Perm c.held) :
    c'.Mirrors view := by
  refine ⟨hp.symm.pairwise h.distinct fun hab hba => ?_, fun e he => h.agrees e (hp.mem_iff.mp he)⟩
  exact hab (OrientedCmp.eq_symm hba)

omit [TransOrd κ] in
theorem index?_eq_some {k : κ} {i : Nat} (h : c.index? k = some i) :
    ∃ l₁ e l₂, c.entries = l₁ ++ e :: l₂ ∧ l₁.length = i ∧ c.entries[i]? = some e ∧
      compare e.key k = .eq := by
  obtain ⟨l₁, e, l₂, hsplit, hlen, he, hk⟩ := split_of_findIdx? h
  exact ⟨l₁, e, l₂, hsplit, hlen, he, beq_iff_eq.mp hk⟩

omit [TransOrd κ] in
theorem index?_eq_none {k : κ} (h : c.index? k = none) :
    ∀ e ∈ c.held, compare e.1 k ≠ .eq := by
  intro e he hk
  obtain ⟨scored, hs, rfl⟩ := List.mem_map.mp he
  have hn := List.findIdx?_eq_none_iff.mp h scored hs
  rw [hk] at hn
  cases hn

omit [TransOrd κ] in
theorem Mirrors.index? (h : c.Mirrors view) (hv : ∀ {a b}, compare a b = .eq → view a = view b)
    {k : κ} {i : Nat} (hi : c.index? k = some i) :
    (c.entries[i]?).map (·.value) = view k := by
  obtain ⟨l₁, e, l₂, hsplit, _, he, hk⟩ := index?_eq_some hi
  rw [he, Option.map_some, ← hv hk]
  refine (h.agrees (e.key, e.value) (List.mem_map.mpr ⟨e, ?_, rfl⟩)).symm
  rw [hsplit]
  exact List.mem_append_right _ List.mem_cons_self

theorem Mirrors.get (h : c.Mirrors view) (hv : ∀ {a b}, compare a b = .eq → view a = view b)
    (k : κ) : (c.get k).1.Mirrors view ∧ ∀ v, (c.get k).2 = some v → view k = some v := by
  have hb := h.perm c.held_bump
  rw [Lru.get]
  dsimp only
  split
  next => exact ⟨hb, fun v hv' => nomatch hv'⟩
  next i hi =>
    have hval := hb.index? hv hi
    obtain ⟨l₁, e, l₂, hsplit, rfl, _, _⟩ := index?_eq_some hi
    refine ⟨hb.perm ?_, fun v hv' => hval.symm.trans hv'⟩
    rw [held, held, hsplit, modify_split]
    simp

theorem Mirrors.swapRemove (h : c.Mirrors view) {i : Nat} (hi : i < c.entries.length) :
    Lru.Mirrors { c with entries := Lru.swapRemove c.entries i } view ∧
      ∀ e ∈ held { c with entries := Lru.swapRemove c.entries i }, e ∈ c.held := by
  have hsplit : c.entries = c.entries.take i ++ c.entries[i] :: c.entries.drop (i + 1) := by
    rw [← List.drop_eq_getElem_cons hi, List.take_append_drop]
  have hlen : (c.entries.take i).length = i := by
    rw [List.length_take]
    omega
  let rest : Lru κ ν := { c with entries := c.entries.take i ++ c.entries.drop (i + 1) }
  have hsub : rest.held.Sublist c.held := by
    refine List.Sublist.map _ ?_
    conv => rhs; rw [hsplit]
    exact (List.sublist_cons_self _ _).append_left _
  have hperm : (held { c with entries := Lru.swapRemove c.entries i }).Perm rest.held := by
    have hp := swapRemove_split (c.entries.take i) (c.entries.drop (i + 1)) c.entries[i]
    rw [hlen, ← hsplit] at hp
    exact hp.map _
  exact ⟨(h.sublist hsub).perm hperm, fun e he => hsub.mem (hperm.mem_iff.mp he)⟩

theorem Mirrors.take (h : c.Mirrors view) (hv : ∀ {a b}, compare a b = .eq → view a = view b)
    (k : κ) : (c.take k).1.Mirrors view ∧ ∀ v, (c.take k).2 = some v → view k = some v := by
  rw [Lru.take]
  split
  next => exact ⟨h, fun v hv' => nomatch hv'⟩
  next i hi =>
    have hval := h.index? hv hi
    obtain ⟨hlt, _⟩ := List.findIdx?_eq_some_iff_getElem.mp hi
    exact ⟨(h.swapRemove hlt).1, fun v hv' => hval.symm.trans hv'⟩

section Insert

variable {view' : κ → Option ν} {k : κ} {v : ν} (score : UInt32)

/-- A value takes the place of the one that its key is held with. -/
theorem Mirrors.replace (h : c.Mirrors view) (hsame : ∀ k', compare k' k = .eq → view' k' = some v)
    (hother : ∀ k', compare k' k ≠ .eq → view' k' = view k') {i : Nat}
    (hi : c.index? k = some i) :
    Lru.Mirrors { c with
      entries := c.entries.modify i fun e => { e with value := v, score := score } } view' := by
  obtain ⟨l₁, e, l₂, hsplit, rfl, _, hk⟩ := index?_eq_some hi
  let pair (e : ScoredEntry κ ν) : κ × ν := (e.key, e.value)
  have hold : c.held = l₁.map pair ++ (e.key, e.value) :: l₂.map pair := by
    rw [held, hsplit, List.map_append, List.map_cons]
  have hnew : held { c with entries := c.entries.modify l₁.length fun e =>
        { e with value := v, score := score } } =
      l₁.map pair ++ (e.key, v) :: l₂.map pair := by
    rw [held, hsplit, modify_split, List.map_append, List.map_cons]
  have hapart := h.distinct
  rw [hold, List.pairwise_middle fun hab hba => hab (OrientedCmp.eq_symm hba),
    List.pairwise_cons] at hapart
  refine ⟨?_, ?_⟩
  · rw [hnew, List.pairwise_middle fun hab hba => hab (OrientedCmp.eq_symm hba),
      List.pairwise_cons]
    exact hapart
  · rw [hnew]
    intro e' he'
    have hmem : e' = (e.key, v) ∨ e' ∈ l₁.map pair ++ l₂.map pair := by
      simpa only [List.mem_append, List.mem_cons, or_left_comm] using he'
    rcases hmem with rfl | hmem
    · exact hsame e.key hk
    · rw [hother]
      · refine h.agrees e' ?_
        rw [hold]
        simpa only [List.mem_append, List.mem_cons, or_left_comm] using Or.inr hmem
      · intro hek
        exact hapart.1 e' hmem (TransCmp.eq_trans hk (OrientedCmp.eq_symm hek))

/-- A key that is not held gets an entry of its own. -/
theorem Mirrors.add (h : c.Mirrors view) (hsame : ∀ k', compare k' k = .eq → view' k' = some v)
    (hother : ∀ k', compare k' k ≠ .eq → view' k' = view k')
    (hk : ∀ e ∈ c.held, compare e.1 k ≠ .eq) :
    Lru.Mirrors { c with entries := c.entries ++ [⟨k, v, score⟩] } view' := by
  have hnew : held { c with entries := c.entries ++ [⟨k, v, score⟩] } = c.held ++ [(k, v)] := by
    simp [held]
  refine ⟨?_, ?_⟩
  · rw [hnew]
    exact List.pairwise_append.mpr ⟨h.distinct, List.pairwise_singleton _ _, by simpa using hk⟩
  · rw [hnew]
    intro e he
    rcases List.mem_append.mp he with he | he
    · rw [hother _ (hk e he)]
      exact h.agrees e he
    · rw [List.mem_singleton.mp he]
      exact hsame k ReflCmp.compare_self

/-- Entering a value keeps the cache right if what is behind it changes alike. -/
theorem Mirrors.insert (h : c.Mirrors view) (hsame : ∀ k', compare k' k = .eq → view' k' = some v)
    (hother : ∀ k', compare k' k ≠ .eq → view' k' = view k') :
    (c.insert k v).1.Mirrors view' := by
  have hb := h.perm c.held_bump
  rw [Lru.insert]
  dsimp only
  generalize c.bump.2 = score
  generalize c.bump.1 = c at hb
  split
  next i hi => exact hb.replace score hsame hother hi
  next hi =>
    have hk := index?_eq_none hi
    split
    next i hvictim =>
      have hlt : i < c.entries.length := by
        split at hvictim
        next => exact leastRecent?_lt hvictim
        next => cases hvictim
      obtain ⟨hrest, hsub⟩ := hb.swapRemove hlt
      exact hrest.add score hsame hother fun e he => hk e (hsub e he)
    next => exact hb.add score hsame hother hk

end Insert

section Lookup

/-! What a cache gives for a key, when no key is held twice. -/

def Distinct (c : Lru κ ν) : Prop := c.held.Pairwise fun a b => compare a.1 b.1 ≠ .eq

/-- The cache holds a value for a key, under whatever spelling of the key. -/
def Has (c : Lru κ ν) (k : κ) (v : ν) : Prop := ∃ k', (k', v) ∈ c.held ∧ compare k' k = .eq

variable {k k' : κ} {v w : ν}

theorem Has.congr (h : c.Has k v) (hk : compare k k' = .eq) : c.Has k' v := by
  obtain ⟨key, hm, hkey⟩ := h
  exact ⟨key, hm, TransCmp.eq_trans hkey hk⟩

theorem Distinct.unique (h : c.Distinct) (hv : c.Has k v) (hw : c.Has k w) : v = w := by
  obtain ⟨a, ha, hak⟩ := hv
  obtain ⟨b, hb, hbk⟩ := hw
  have hab : compare a b = .eq := TransCmp.eq_trans hak (OrientedCmp.eq_symm hbk)
  obtain ⟨l₁, l₂, hsplit⟩ := List.append_of_mem ha
  rw [Distinct, hsplit, List.pairwise_middle fun hab hba => hab (OrientedCmp.eq_symm hba),
    List.pairwise_cons] at h
  rw [hsplit, List.mem_append, List.mem_cons] at hb
  have hrest : (b, w) ∉ l₁ ++ l₂ := fun hm => h.1 _ hm hab
  simp only [List.mem_append, not_or] at hrest
  simp only [hrest.1, hrest.2, false_or, or_false] at hb
  exact (Prod.mk.inj hb).2.symm

omit [TransOrd κ] in
theorem has_congr {c' : Lru κ ν} (hp : c'.held.Perm c.held) : c'.Has k v ↔ c.Has k v := by
  simp only [Has, hp.mem_iff]

theorem Distinct.perm (h : c.Distinct) {c' : Lru κ ν} (hp : c'.held.Perm c.held) :
    c'.Distinct :=
  hp.symm.pairwise h fun hab hba => hab (OrientedCmp.eq_symm hba)

omit [TransOrd κ] in
/-- The entry at the index of a key. -/
theorem has_of_index? {i : Nat} (hi : c.index? k = some i) :
    ∃ v, (c.entries[i]?).map (·.value) = some v ∧ c.Has k v := by
  obtain ⟨l₁, e, l₂, hsplit, _, he, hk⟩ := index?_eq_some hi
  refine ⟨e.value, by rw [he, Option.map_some], e.key, List.mem_map.mpr ⟨e, ?_, rfl⟩, hk⟩
  simp [hsplit]

omit [TransOrd κ] in
theorem not_has_of_index? (hi : c.index? k = none) (v : ν) : ¬ c.Has k v := by
  rintro ⟨k', hm, hk⟩
  exact index?_eq_none hi _ hm hk

omit [TransOrd κ] in
theorem contains_iff : c.contains k = true ↔ ∃ v, c.Has k v := by
  rw [contains, find?, List.find?_isSome]
  constructor
  · rintro ⟨e, he, hk⟩
    exact ⟨e.value, e.key, List.mem_map.mpr ⟨e, he, rfl⟩, beq_iff_eq.mp hk⟩
  · rintro ⟨v, k', hm, hk⟩
    obtain ⟨e, he, hpair⟩ := List.mem_map.mp hm
    obtain ⟨rfl, -⟩ := Prod.mk.inj hpair
    exact ⟨e, he, beq_iff_eq.mpr hk⟩

omit [TransOrd κ] in
theorem held_get (c : Lru κ ν) (k : κ) : (c.get k).1.held.Perm c.held := by
  have hb := c.held_bump
  rw [get]
  dsimp only
  split
  next => exact hb
  next i hi =>
    obtain ⟨l₁, e, l₂, hsplit, rfl, _, _⟩ := index?_eq_some hi
    refine List.Perm.trans ?_ hb
    rw [held, held, hsplit, modify_split]
    simp

/-- A lookup succeeds exactly for what is held. -/
theorem get_iff (h : c.Distinct) : (c.get k).2 = some v ↔ c.Has k v := by
  have hb : ∀ w, c.bump.1.Has k w ↔ c.Has k w := fun _ => has_congr c.held_bump
  rw [get]
  dsimp only
  split
  next hi =>
    have hn := not_has_of_index? hi v
    rw [hb] at hn
    simp [hn]
  next i hi =>
    obtain ⟨w, hval, hw⟩ := has_of_index? hi
    rw [hb] at hw
    rw [hval, Option.some.injEq]
    constructor
    · rintro rfl
      exact hw
    · exact fun hv => h.unique hw hv

omit [TransOrd κ] in
theorem held_take (c : Lru κ ν) (k : κ) :
    (c.take k).2 = none ∧ (c.take k).1 = c ∧ (∀ v, ¬ c.Has k v) ∨
      ∃ k' v, (c.take k).2 = some v ∧ compare k' k = .eq ∧
        ((k', v) :: (c.take k).1.held).Perm c.held := by
  rw [take]
  split
  next hi => exact .inl ⟨rfl, rfl, not_has_of_index? hi⟩
  next i hi =>
    obtain ⟨l₁, e, l₂, hsplit, rfl, he, hk⟩ := index?_eq_some hi
    refine .inr ⟨e.key, e.value, by rw [he, Option.map_some], hk, ?_⟩
    have hperm := swapRemove_split l₁ l₂ e
    rw [← hsplit] at hperm
    have hheld : (held { c with entries := swapRemove c.entries l₁.length }).Perm
        ((l₁ ++ l₂).map fun e => (e.key, e.value)) := hperm.map _
    refine (hheld.cons _).trans ?_
    rw [held, hsplit, List.map_append, List.map_append, List.map_cons]
    exact List.perm_middle.symm

theorem Distinct.take (h : c.Distinct) (k : κ) : (c.take k).1.Distinct := by
  rcases c.held_take k with ⟨-, hc, -⟩ | ⟨k', v, -, -, hperm⟩
  · rw [hc]
    exact h
  · have hcons := hperm.symm.pairwise h fun hab hba => hab (OrientedCmp.eq_symm hba)
    exact (List.pairwise_cons.mp hcons).2

theorem take_iff (h : c.Distinct) : (c.take k).2 = some v ↔ c.Has k v := by
  rcases c.held_take k with ⟨hnone, -, hn⟩ | ⟨k', w, hsome, hk, hperm⟩
  · simp [hnone, hn]
  · have hw : c.Has k w := ⟨k', hperm.mem_iff.mp List.mem_cons_self, hk⟩
    rw [hsome, Option.some.injEq]
    constructor
    · rintro rfl
      exact hw
    · exact fun hv => h.unique hw hv

theorem has_take (h : c.Distinct) (k : κ) :
    (c.take k).1.Has k' v ↔ c.Has k' v ∧ compare k k' ≠ .eq := by
  rcases c.held_take k with ⟨-, hc, hn⟩ | ⟨key, w, -, hk, hperm⟩
  · rw [hc]
    exact ⟨fun hv => ⟨hv, fun he => hn v (hv.congr (OrientedCmp.eq_symm he))⟩, And.left⟩
  · have hcons := hperm.symm.pairwise h fun hab hba => hab (OrientedCmp.eq_symm hba)
    have hapart := (List.pairwise_cons.mp hcons).1
    constructor
    · rintro ⟨a, ha, hak⟩
      refine ⟨⟨a, hperm.mem_iff.mp (List.mem_cons_of_mem _ ha), hak⟩, fun he => ?_⟩
      exact hapart _ ha (TransCmp.eq_trans hk (TransCmp.eq_trans he (OrientedCmp.eq_symm hak)))
    · rintro ⟨⟨a, ha, hak⟩, hne⟩
      rcases List.mem_cons.mp (hperm.mem_iff.mpr ha) with he | ha
      · obtain ⟨rfl, rfl⟩ := Prod.mk.inj he
        exact absurd (TransCmp.eq_trans (OrientedCmp.eq_symm hk) hak) hne
      · exact ⟨a, ha, hak⟩

/-- A cache mirrors what it gives itself. -/
theorem Distinct.mirrors (h : c.Distinct) : c.Mirrors fun k => (c.take k).2 where
  distinct := h
  agrees e he := (take_iff h).mpr ⟨e.1, he, ReflCmp.compare_self⟩

/-- Entering a value pushes others out, but never the value itself. -/
theorem Distinct.insert (h : c.Distinct) (k : κ) (v : ν) :
    (c.insert k v).1.Distinct ∧ (c.insert k v).1.Has k v ∧
      ∀ k' w, (c.insert k v).1.Has k' w → compare k' k = .eq ∧ w = v ∨ c.Has k' w := by
  have hmirrors : (c.insert k v).1.Mirrors fun k' =>
      if compare k' k = .eq then some v else (c.take k').2 :=
    h.mirrors.insert (fun _ hk => if_pos hk) fun _ hk => if_neg hk
  refine ⟨hmirrors.distinct, ?_, fun k' w hw => ?_⟩
  · have hhas : ∀ l : List (ScoredEntry κ ν), ∀ c' : Lru κ ν, ∀ score,
        c'.entries = l ++ [⟨k, v, score⟩] → c'.Has k v := by
      intro l c' score hc
      exact ⟨k, by simp [held, hc], ReflCmp.compare_self⟩
    rw [Lru.insert]
    dsimp only
    split
    next i hi =>
      obtain ⟨l₁, e, l₂, hsplit, rfl, _, hk⟩ := index?_eq_some hi
      refine ⟨e.key, ?_, hk⟩
      rw [held, hsplit, modify_split]
      simp
    next =>
      split
      next => exact hhas _ _ _ rfl
      next => exact hhas _ _ _ rfl
  · obtain ⟨key, hm, hkey⟩ := hw
    have hview := hmirrors.agrees _ hm
    dsimp only at hview
    split at hview
    next hk =>
      exact .inl ⟨TransCmp.eq_trans (OrientedCmp.eq_symm hkey) hk, (Option.some.inj hview).symm⟩
    next => exact .inr (((take_iff h).mp hview).congr hkey)

end Lookup

end Lru

end SymbolIndex
