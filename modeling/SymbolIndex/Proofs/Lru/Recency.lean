import SymbolIndex.Proofs.Lru

/-! The cache as a list of pairs in order of use. The scores of the entries all differ and stay below
the counter, so they put the entries in one order (`Ranked`). An access takes a score above them all,
and numbering anew keeps the order, wherever the counter stands. So an access does to the cache what
it does to the list (`Follows.access`), as long as the counter can go on after a full cache is
numbered anew (`WordSized`); with one entry more it comes round to zero. -/

namespace SymbolIndex

open Std

inductive Access (κ ν : Type)
  | get (k : κ)
  | insert (k : κ) (v : ν)
  | take (k : κ)
  | contains (k : κ)
  | clear
  | values

namespace Access

variable {κ ν : Type}

inductive Answer (κ ν : Type)
  | value (found : Option ν)
  | evicted (pair : Option (κ × ν))
  | present (held : Bool)
  | cleared
  | listed (values : List ν)
  deriving DecidableEq

/-- Accesses one after the other, with their answers. -/
def run {σ : Type} (step : σ → Access κ ν → σ × Answer κ ν) (s : σ) :
    List (Access κ ν) → σ × List (Answer κ ν)
  | [] => (s, [])
  | a :: rest =>
    let out := step s a
    let later := run step out.1 rest
    (later.1, out.2 :: later.2)

theorem run_append {σ : Type} (step : σ → Access κ ν → σ × Answer κ ν) (s : σ)
    (xs ys : List (Access κ ν)) :
    run step s (xs ++ ys) =
      ((run step (run step s xs).1 ys).1, (run step s xs).2 ++ (run step (run step s xs).1 ys).2) := by
  induction xs generalizing s with
  | nil => rfl
  | cons a rest ih =>
    rw [List.cons_append, run, ih]
    rfl

end Access

/-- The pairs in a cache, the least recent first. -/
abbrev Recency (κ ν : Type) := List (κ × ν)

namespace Recency

variable {κ ν : Type} [Ord κ]

def held? (l : Recency κ ν) (k : κ) : Option (κ × ν) := l.find? fun e => compare e.1 k == .eq

def without (l : Recency κ ν) (k : κ) : Recency κ ν := l.filter fun e => compare e.1 k != .eq

/-- What an access does to the pairs and gives back. -/
def access (capacity : Nat) (l : Recency κ ν) : Access κ ν → Recency κ ν × Access.Answer κ ν
  | .get k =>
    match held? l k with
    | some e => (without l k ++ [e], .value (some e.2))
    | none => (l, .value none)
  | .insert k v =>
    match held? l k with
    | some e => (without l k ++ [(e.1, v)], .evicted none)
    | none =>
      if l.length = capacity then (l.tail ++ [(k, v)], .evicted l.head?)
      else (l ++ [(k, v)], .evicted none)
  | .take k => (without l k, .value ((held? l k).map (·.2)))
  | .contains k => (l, .present (held? l k).isSome)
  | .clear => ([], .cleared)
  | .values => (l, .listed (l.map (·.2)))

/-- No key is held twice, and no more pairs than there is room for. -/
structure Fits (l : Recency κ ν) (capacity : Nat) : Prop where
  apart : l.Pairwise fun a b => compare a.1 b.1 ≠ .eq
  room : l.length ≤ capacity

variable {l l₁ l₂ : Recency κ ν} {e : κ × ν} {k : κ} {v : ν} {capacity : Nat}

theorem held?_eq_none (h : ∀ e ∈ l, compare e.1 k ≠ .eq) : held? l k = none :=
  List.find?_eq_none.mpr fun e he hk => h e he (beq_iff_eq.mp hk)

theorem without_eq_self (h : ∀ e ∈ l, compare e.1 k ≠ .eq) : without l k = l :=
  List.filter_eq_self.mpr fun e he => bne_iff_ne.mpr (h e he)

theorem Fits.sublist (h : Fits l capacity) {l' : Recency κ ν} (hs : l'.Sublist l) :
    Fits l' capacity :=
  ⟨h.apart.sublist hs, Nat.le_trans hs.length_le h.room⟩

theorem Fits.push (h : Fits l capacity) (hroom : l.length < capacity)
    (hk : ∀ a ∈ l, compare a.1 e.1 ≠ .eq) : Fits (l ++ [e]) capacity := by
  refine ⟨List.pairwise_append.mpr ⟨h.apart, List.pairwise_singleton _ _, by simpa using hk⟩, ?_⟩
  rw [List.length_append]
  exact hroom

variable [TransOrd κ]

section Split

variable (h : Fits (l₁ ++ e :: l₂) capacity)

include h

theorem Fits.of_split (hk : compare e.1 k = .eq) :
    ∀ a ∈ l₁ ++ l₂, compare a.1 k ≠ .eq := by
  intro a ha hak
  have hapart := h.apart
  rw [List.pairwise_middle fun hab hba => hab (OrientedCmp.eq_symm hba), List.pairwise_cons]
    at hapart
  exact hapart.1 a ha (TransCmp.eq_trans hk (OrientedCmp.eq_symm hak))

theorem Fits.held?_split (hk : compare e.1 k = .eq) : held? (l₁ ++ e :: l₂) k = some e := by
  have hl₁ : held? l₁ k = none :=
    held?_eq_none fun a ha => h.of_split hk a (List.mem_append_left _ ha)
  rw [held?] at hl₁
  rw [held?, List.find?_append, hl₁, Option.none_or, List.find?_cons, hk]
  rfl

theorem Fits.without_split (hk : compare e.1 k = .eq) :
    without (l₁ ++ e :: l₂) k = l₁ ++ l₂ := by
  have hrest := without_eq_self (h.of_split hk)
  rw [without, List.filter_append] at hrest ⊢
  rw [List.filter_cons_of_neg (by rw [hk]; exact Bool.false_ne_true), hrest]

/-- A pair that comes to the end in place of the one that its key is held with. -/
theorem Fits.replace (v : ν) : Fits (l₁ ++ l₂ ++ [(e.1, v)]) capacity := by
  have hsub : (l₁ ++ l₂).Sublist (l₁ ++ e :: l₂) := (List.sublist_cons_self e l₂).append_left l₁
  refine (h.sublist hsub).push ?_ (h.of_split ReflCmp.compare_self)
  have hroom := h.room
  rw [List.length_append, List.length_cons] at hroom
  rw [List.length_append]
  omega

end Split

/-- The least recent pair is looked up. -/
theorem Fits.get_head (h : Fits (e :: l) capacity) :
    access capacity (e :: l) (.get e.1) = (l ++ [e], .value (some e.2)) ∧
      Fits (l ++ [e]) capacity := by
  have hsplit : Fits ([] ++ e :: l) capacity := h
  refine ⟨?_, hsplit.replace e.2⟩
  have hheld : held? (e :: l) e.1 = some e := hsplit.held?_split ReflCmp.compare_self
  have hwithout : without (e :: l) e.1 = l := hsplit.without_split ReflCmp.compare_self
  rw [access, hheld, hwithout]

omit [TransOrd κ] in
theorem exists_split (h : held? l k = some e) :
    ∃ l₁ l₂, l = l₁ ++ e :: l₂ ∧ compare e.1 k = .eq := by
  obtain ⟨hk, l₁, l₂, hl, -⟩ := List.find?_eq_some_iff_append.mp h
  exact ⟨l₁, l₂, hl, beq_iff_eq.mp hk⟩

theorem Fits.access (h : Fits l capacity) (hc : 1 ≤ capacity) (a : Access κ ν) :
    Fits (access capacity l a).1 capacity := by
  cases a with
  | get k =>
    rw [Recency.access]
    cases he : held? l k with
    | none => exact h
    | some e =>
      obtain ⟨l₁, l₂, rfl, hk⟩ := exists_split he
      dsimp only
      rw [h.without_split hk]
      exact h.replace e.2
  | insert k v =>
    rw [Recency.access]
    cases he : held? l k with
    | some e =>
      obtain ⟨l₁, l₂, rfl, hk⟩ := exists_split he
      dsimp only
      rw [h.without_split hk]
      exact h.replace v
    | none =>
      have hnew : ∀ a ∈ l, compare a.1 k ≠ .eq := fun a ha hak =>
        List.find?_eq_none.mp he a ha (beq_iff_eq.mpr hak)
      have hroom := h.room
      dsimp only
      split
      next hfull =>
        refine (h.sublist (List.tail_sublist l)).push ?_ fun a ha => hnew a (List.mem_of_mem_tail ha)
        rw [List.length_tail]
        omega
      next hfull => exact h.push (by omega) hnew
  | take k => exact h.sublist List.filter_sublist
  | contains k => exact h
  | clear => exact ⟨.nil, Nat.zero_le _⟩
  | values => exact h

end Recency

namespace Lru

variable {κ ν : Type}

/-- The pair that an entry holds. -/
def pair (e : ScoredEntry κ ν) : κ × ν := (e.key, e.value)

theorem getElem?_split (l₁ l₂ : List (ScoredEntry κ ν)) (e : ScoredEntry κ ν) :
    (l₁ ++ e :: l₂)[l₁.length]? = some e := by
  rw [List.getElem?_append_right (Nat.le_refl _), Nat.sub_self]
  rfl

/-- The entries of a cache in order of use, the least recent first. -/
structure Ranked (c : Lru κ ν) (order : List (ScoredEntry κ ν)) : Prop where
  perm : order.Perm c.entries
  rising : order.Pairwise fun a b => a.score < b.score
  below : ∀ e ∈ order, e.score < c.nextScore

variable {c : Lru κ ν} {order : List (ScoredEntry κ ν)} {e : ScoredEntry κ ν}

theorem Ranked.length_eq (h : c.Ranked order) : c.entries.length = (order.map pair).length := by
  rw [List.length_map, h.perm.length_eq]

theorem Ranked.eq_of_score (h : c.Ranked order) {a b : ScoredEntry κ ν} (ha : a ∈ order)
    (hb : b ∈ order) (hs : a.score = b.score) : a = b := by
  obtain ⟨i, hi, rfl⟩ := List.getElem_of_mem ha
  obtain ⟨j, hj, rfl⟩ := List.getElem_of_mem hb
  have hlt := List.pairwise_iff_getElem.mp h.rising
  rcases Nat.lt_trichotomy i j with hij | rfl | hji
  · exact absurd hs (UInt32.ne_of_lt (hlt i j hi hj hij))
  · rfl
  · exact absurd hs.symm (UInt32.ne_of_lt (hlt j i hj hi hji))

theorem Ranked.byScore_eq (h : c.Ranked order) : byScore c.entries = order := by
  have hperm : (byScore c.entries).Perm order := (List.mergeSort_perm _ _).trans h.perm.symm
  have hsorted : (byScore c.entries).Pairwise fun a b => a.score ≤ b.score := by
    refine (List.pairwise_mergeSort ?_ ?_ c.entries).imp fun hab => of_decide_eq_true hab
    · intro a b c hab hbc
      exact decide_eq_true (UInt32.le_trans (of_decide_eq_true hab) (of_decide_eq_true hbc))
    · intro a b
      rw [Bool.or_eq_true, decide_eq_true_eq, decide_eq_true_eq]
      exact UInt32.le_total a.score b.score
  refine List.Perm.eq_of_pairwise (fun a b ha hb hab hba => ?_) hsorted
    (h.rising.imp UInt32.le_of_lt) hperm
  exact h.eq_of_score (hperm.mem_iff.mp ha) hb (UInt32.le_antisymm hab hba)

section Bump

theorem bump_of_lt (h : c.nextScore.toNat < c.maxScore) :
    c.bump = ({ c with nextScore := c.nextScore + 1 }, c.nextScore) := by
  rw [bump, if_neg (Nat.not_le_of_lt h)]

theorem bump_of_le (h : c.maxScore ≤ c.nextScore.toNat) :
    c.bump = ({ c.rescore with nextScore := c.rescore.nextScore + 1 }, c.rescore.nextScore) := by
  rw [bump, if_pos h]

theorem Ranked.rescore (h : c.Ranked order) (hlen : c.entries.length < UInt32.size) :
    c.rescore.Ranked (order.mapIdx fun i e => { e with score := .ofNat i }) := by
  have hcount : ∀ {i}, i < order.length → i < UInt32.size := fun hi =>
    Nat.lt_trans (h.perm.length_eq ▸ hi) hlen
  refine ⟨?_, List.pairwise_iff_getElem.mpr fun i j hi hj hij => ?_, fun e he => ?_⟩
  · rw [Lru.rescore, h.byScore_eq]
  · rw [List.length_mapIdx] at hi hj
    rw [List.getElem_mapIdx, List.getElem_mapIdx]
    exact (UInt32.ofNat_lt_iff_lt (hcount hi) (hcount hj)).mpr hij
  · obtain ⟨i, hi, rfl⟩ := List.mem_mapIdx.mp he
    rw [Lru.rescore]
    exact (UInt32.ofNat_lt_iff_lt (hcount hi) hlen).mpr (h.perm.length_eq ▸ hi)

/-- The counter can go on after a full cache is numbered anew. -/
structure WordSized (c : Lru κ ν) : Prop where
  spare : c.capacity + 1 < UInt32.size
  limit : c.maxScore < UInt32.size

variable (hroom : c.entries.length ≤ c.capacity) (hsized : c.WordSized)

include hroom hsized

/-- A full cache that is numbered anew needs one score more than it has entries. -/
theorem bump_score_lt : c.bump.2.toNat < max c.maxScore (c.capacity + 1) := by
  have hspare := hsized.spare
  rw [bump]
  split
  next =>
    rw [Lru.rescore, UInt32.toNat_ofNat_of_lt' (by omega)]
    omega
  next hlt =>
    have hscore := Nat.lt_of_not_le hlt
    dsimp only
    omega

theorem nextScore_bump : c.bump.1.nextScore.toNat = c.bump.2.toNat + 1 := by
  have hscore := bump_score_lt hroom hsized
  have hspare := hsized.spare
  have hlimit := hsized.limit
  have hnext : c.bump.1.nextScore = c.bump.2 + 1 := rfl
  rw [hnext, UInt32.toNat_add]
  exact Nat.mod_eq_of_lt (by omega : c.bump.2.toNat + 1 < UInt32.size)

theorem bump_score_lt_next : c.bump.2 < c.bump.1.nextScore := by
  rw [UInt32.lt_iff_toNat_lt, nextScore_bump hroom hsized]
  exact Nat.lt_succ_self _

/-- The score of an access is above all others, and below the counter from then on. -/
theorem Ranked.bump (h : c.Ranked order) :
    ∃ order', c.bump.1.Ranked order' ∧ order'.map pair = order.map pair ∧
      ∀ e ∈ order', e.score < c.bump.2 := by
  have hnumbered : ∃ order', order'.map pair = order.map pair ∧
      (if c.maxScore ≤ c.nextScore.toNat then c.rescore else c).Ranked order' := by
    split
    next =>
      have hspare := hsized.spare
      exact ⟨_, map_pair_mapIdx order, h.rescore (by omega)⟩
    next => exact ⟨order, rfl, h⟩
  obtain ⟨order', hpairs, h'⟩ := hnumbered
  have hnext := bump_score_lt_next hroom hsized
  exact ⟨order', ⟨h'.perm, h'.rising, fun e he => UInt32.lt_trans (h'.below e he) hnext⟩, hpairs,
    h'.below⟩

omit hroom hsized in
theorem bump_limits (c : Lru κ ν) :
    c.bump.1.capacity = c.capacity ∧ c.bump.1.maxScore = c.maxScore := by
  rw [Lru.bump]
  split <;> exact ⟨rfl, rfl⟩

end Bump

section Moves

variable {entries l₁ l₂ o₁ o₂ : List (ScoredEntry κ ν)}

theorem Ranked.drop (h : c.Ranked order) {rest : List (ScoredEntry κ ν)}
    (hsub : rest.Sublist order) (hp : rest.Perm entries) : Lru.Ranked { c with entries } rest :=
  ⟨hp, h.rising.sublist hsub, fun a ha => h.below a (hsub.mem ha)⟩

theorem Ranked.push (h : c.Ranked order) (habove : ∀ a ∈ order, a.score < e.score)
    (hbelow : e.score < c.nextScore) (hp : (order ++ [e]).Perm entries) :
    Lru.Ranked { c with entries } (order ++ [e]) := by
  refine ⟨hp, ?_, fun a ha => ?_⟩
  · exact List.pairwise_append.mpr ⟨h.rising, List.pairwise_singleton _ _, by simpa using habove⟩
  · rcases List.mem_append.mp ha with ha | ha
    · exact h.below a ha
    · rw [List.mem_singleton.mp ha]
      exact hbelow

/-- An entry that gives way to a more recent one, in the same place. -/
theorem Ranked.refresh (h : c.Ranked (o₁ ++ e :: o₂)) (hp : (o₁ ++ o₂).Perm (l₁ ++ l₂))
    {e' : ScoredEntry κ ν} (habove : ∀ a ∈ o₁ ++ e :: o₂, a.score < e'.score)
    (hbelow : e'.score < c.nextScore) :
    Lru.Ranked { c with entries := l₁ ++ e' :: l₂ } (o₁ ++ o₂ ++ [e']) := by
  have hsub : (o₁ ++ o₂).Sublist (o₁ ++ e :: o₂) := (List.sublist_cons_self e o₂).append_left o₁
  refine (h.drop hsub hp).push (fun a ha => habove a (hsub.mem ha)) hbelow ?_
  exact (List.perm_append_singleton e' _).trans ((hp.cons e').trans List.perm_middle.symm)

theorem Ranked.leastRecent? (h : c.Ranked (e :: order)) :
    ∃ l₁ l₂, c.entries = l₁ ++ e :: l₂ ∧ c.leastRecent? = some l₁.length := by
  have hleast : (c.entries.map (·.score)).min? = some e.score := by
    refine List.min?_eq_some_iff.mpr ⟨List.mem_map.mpr ⟨e, h.perm.mem_iff.mp (by simp), rfl⟩, ?_⟩
    intro s hs
    obtain ⟨a, ha, rfl⟩ := List.mem_map.mp hs
    rcases List.mem_cons.mp (h.perm.mem_iff.mpr ha) with rfl | ha
    · exact UInt32.le_refl _
    · exact UInt32.le_of_lt ((List.pairwise_cons.mp h.rising).1 a ha)
  obtain ⟨i, hi⟩ : ∃ i, c.entries.findIdx? (fun a => a.score = e.score) = some i := by
    rw [← Option.isSome_iff_exists, List.findIdx?_isSome, List.any_eq_true]
    exact ⟨e, h.perm.mem_iff.mp (by simp), decide_eq_true rfl⟩
  obtain ⟨l₁, a, l₂, hsplit, rfl, -, ha⟩ := split_of_findIdx? hi
  -- No other entry has the lowest score.
  have hae : a = e := h.eq_of_score (h.perm.mem_iff.mpr (by simp [hsplit])) (by simp)
    (of_decide_eq_true ha)
  refine ⟨l₁, l₂, hae ▸ hsplit, ?_⟩
  rw [Lru.leastRecent?, hleast]
  exact hi

end Moves

variable [Ord κ]

section Outcomes

variable {k : κ} {v : ν} {l₁ l₂ : List (ScoredEntry κ ν)}

theorem get_missing (hi : c.bump.1.index? k = none) : c.get k = (c.bump.1, none) := by
  rw [get]
  dsimp only
  rw [hi]

theorem get_held (hi : c.bump.1.index? k = some l₁.length)
    (hsplit : c.bump.1.entries = l₁ ++ e :: l₂) : c.get k =
      ({ c.bump.1 with entries := l₁ ++ { e with score := c.bump.2 } :: l₂ }, some e.value) := by
  rw [get]
  dsimp only
  rw [hi]
  dsimp only
  rw [hsplit, modify_split, getElem?_split, Option.map_some]

theorem take_held (hi : c.index? k = some l₁.length) (hsplit : c.entries = l₁ ++ e :: l₂) :
    c.take k = ({ c with entries := swapRemove (l₁ ++ e :: l₂) l₁.length }, some e.value) := by
  rw [take, hi]
  dsimp only
  rw [hsplit, getElem?_split, Option.map_some]

theorem insert_held (hi : c.bump.1.index? k = some l₁.length)
    (hsplit : c.bump.1.entries = l₁ ++ e :: l₂) : c.insert k v =
      ({ c.bump.1 with entries := l₁ ++ ⟨e.key, v, c.bump.2⟩ :: l₂ }, none) := by
  rw [insert]
  dsimp only
  rw [hi]
  dsimp only
  rw [hsplit, modify_split]

theorem insert_new (hi : c.bump.1.index? k = none) (hroom : c.bump.1.entries.length < c.capacity) :
    c.insert k v =
      ({ c.bump.1 with entries := c.bump.1.entries ++ [⟨k, v, c.bump.2⟩] }, none) := by
  rw [insert]
  dsimp only
  rw [hi, c.bump_limits.1, if_neg (Nat.not_le_of_lt hroom)]

theorem insert_full (hi : c.bump.1.index? k = none) (hfull : c.capacity ≤ c.bump.1.entries.length)
    (hvictim : c.bump.1.leastRecent? = some l₁.length)
    (hsplit : c.bump.1.entries = l₁ ++ e :: l₂) : c.insert k v =
      ({ c.bump.1 with entries := swapRemove (l₁ ++ e :: l₂) l₁.length ++ [⟨k, v, c.bump.2⟩] },
        some (pair e)) := by
  rw [insert]
  dsimp only
  rw [hi, c.bump_limits.1, if_pos hfull, hvictim]
  dsimp only
  rw [hsplit, getElem?_split]
  rfl

end Outcomes

/-- An access to a cache and its answer. -/
def access (c : Lru κ ν) : Access κ ν → Lru κ ν × Access.Answer κ ν
  | .get k => ((c.get k).1, .value (c.get k).2)
  | .insert k v => ((c.insert k v).1, .evicted (c.insert k v).2)
  | .take k => ((c.take k).1, .value (c.take k).2)
  | .contains k => (c, .present (c.contains k))
  | .clear => (c.clear, .cleared)
  | .values => (c, .listed c.valuesByRecency)

/-- An access comes out as it does on a list. -/
def Tracks (out : Lru κ ν × Access.Answer κ ν) (expected : Recency κ ν × Access.Answer κ ν) :
    Prop :=
  (∃ order, out.1.Ranked order ∧ order.map pair = expected.1) ∧ out.2 = expected.2

section Steps

variable {k : κ} {v : ν} {i capacity : Nat}

omit [Ord κ] in
theorem Ranked.exists_split (h : c.Ranked order) {l₁ l₂ : List (ScoredEntry κ ν)}
    (hsplit : c.entries = l₁ ++ e :: l₂) :
    ∃ o₁ o₂, order = o₁ ++ e :: o₂ ∧ (o₁ ++ o₂).Perm (l₁ ++ l₂) := by
  obtain ⟨o₁, o₂, rfl⟩ := List.append_of_mem (h.perm.mem_iff.mpr (by simp [hsplit] : e ∈ c.entries))
  refine ⟨o₁, o₂, rfl, (List.perm_cons e).mp ?_⟩
  have hperm := h.perm
  rw [hsplit] at hperm
  exact List.perm_middle.symm.trans (hperm.trans List.perm_middle)

theorem Ranked.apart_of_index? (h : c.Ranked order) (hi : c.index? k = none) :
    ∀ e ∈ order.map pair, compare e.1 k ≠ .eq := by
  have hheld : (order.map pair).Perm c.held := h.perm.map _
  exact fun e he => index?_eq_none hi e (hheld.mem_iff.mp he)

variable [TransOrd κ]

/-- Where a key is held, in the cache and in the order of use. -/
theorem Ranked.locate (h : c.Ranked order) (hfits : Recency.Fits (order.map pair) capacity)
    (hi : c.index? k = some i) :
    ∃ l₁ e l₂ o₁ o₂, c.entries = l₁ ++ e :: l₂ ∧ l₁.length = i ∧ order = o₁ ++ e :: o₂ ∧
      (o₁ ++ o₂).Perm (l₁ ++ l₂) ∧
      Recency.held? (order.map pair) k = some (pair e) ∧
      Recency.without (order.map pair) k = (o₁ ++ o₂).map pair := by
  obtain ⟨l₁, e, l₂, hsplit, hlen, -, hk⟩ := index?_eq_some hi
  obtain ⟨o₁, o₂, rfl, hp⟩ := h.exists_split hsplit
  rw [List.map_append, List.map_cons] at hfits ⊢
  refine ⟨l₁, e, l₂, o₁, o₂, hsplit, hlen, rfl, hp, hfits.held?_split hk, ?_⟩
  rw [hfits.without_split hk, List.map_append]

theorem Ranked.tracks_get (h : c.Ranked order)
    (hfits : Recency.Fits (order.map pair) c.capacity) (hsized : c.WordSized) (k : κ) :
    Tracks (c.access (.get k)) (Recency.access c.capacity (order.map pair) (.get k)) := by
  have hroom := h.length_eq ▸ hfits.room
  have hnext := bump_score_lt_next hroom hsized
  obtain ⟨order', h', hpairs, habove⟩ := h.bump hroom hsized
  rw [← hpairs] at hfits ⊢
  cases hi : c.bump.1.index? k with
  | none =>
    rw [access, get_missing hi, Recency.access, Recency.held?_eq_none (h'.apart_of_index? hi)]
    exact ⟨⟨order', h', rfl⟩, rfl⟩
  | some i =>
    obtain ⟨l₁, e, l₂, o₁, o₂, hsplit, rfl, rfl, hp, hentry, hwithout⟩ := h'.locate hfits hi
    rw [access, get_held hi hsplit, Recency.access, hentry, hwithout]
    refine ⟨⟨_, h'.refresh hp habove hnext, ?_⟩, rfl⟩
    rw [List.map_append]
    rfl

theorem Ranked.tracks_take (h : c.Ranked order) (hfits : Recency.Fits (order.map pair) capacity)
    (k : κ) : Tracks (c.access (.take k)) (Recency.access capacity (order.map pair) (.take k)) := by
  cases hi : c.index? k with
  | none =>
    have hnone := h.apart_of_index? hi
    rw [access, Lru.take, hi, Recency.access, Recency.held?_eq_none hnone,
      Recency.without_eq_self hnone]
    exact ⟨⟨order, h, rfl⟩, rfl⟩
  | some i =>
    obtain ⟨l₁, e, l₂, o₁, o₂, hsplit, rfl, rfl, hp, hentry, hwithout⟩ := h.locate hfits hi
    rw [access, take_held hi hsplit, Recency.access, hentry, hwithout]
    have hsub : (o₁ ++ o₂).Sublist (o₁ ++ e :: o₂) := (List.sublist_cons_self e o₂).append_left o₁
    exact ⟨⟨_, h.drop hsub (hp.trans (swapRemove_split l₁ l₂ e).symm), rfl⟩, rfl⟩

/-- A new key comes to the end, and the least recent pair makes room for it. -/
theorem Ranked.tracks_insert (h : c.Ranked order)
    (hfits : Recency.Fits (order.map pair) c.capacity) (hc : 1 ≤ c.capacity)
    (hsized : c.WordSized) (k : κ) (v : ν) :
    Tracks (c.access (.insert k v))
      (Recency.access c.capacity (order.map pair) (.insert k v)) := by
  have hroom := h.length_eq ▸ hfits.room
  have hnext := bump_score_lt_next hroom hsized
  obtain ⟨order', h', hpairs, habove⟩ := h.bump hroom hsized
  rw [← hpairs] at hfits ⊢
  cases hi : c.bump.1.index? k with
  | some i =>
    obtain ⟨l₁, e, l₂, o₁, o₂, hsplit, rfl, rfl, hp, hentry, hwithout⟩ := h'.locate hfits hi
    rw [access, insert_held hi hsplit, Recency.access, hentry, hwithout]
    refine ⟨⟨_, h'.refresh hp habove hnext, ?_⟩, rfl⟩
    rw [List.map_append]
    rfl
  | none =>
    let new : ScoredEntry κ ν := ⟨k, v, c.bump.2⟩
    have hlength := h'.length_eq
    rw [Recency.access, Recency.held?_eq_none (h'.apart_of_index? hi)]
    dsimp only
    by_cases hfull : (order'.map pair).length = c.capacity
    · cases order' with
      | nil =>
        -- There is room for one entry at least, so a full cache is not empty.
        rw [← hfull] at hc
        cases hc
      | cons e rest =>
        obtain ⟨l₁, l₂, hsplit, hvictim⟩ := h'.leastRecent?
        have hp : rest.Perm (swapRemove (l₁ ++ e :: l₂) l₁.length) := by
          have hperm := h'.perm
          rw [hsplit] at hperm
          exact ((List.perm_cons e).mp (hperm.trans List.perm_middle)).trans
            (swapRemove_split l₁ l₂ e).symm
        have hrest := h'.drop (List.sublist_cons_self e rest) hp
        rw [access, insert_full hi (Nat.le_of_eq (hlength.trans hfull).symm) hvictim hsplit,
          if_pos hfull]
        refine ⟨⟨_, hrest.push (e := new) (fun a ha => habove a (List.mem_cons_of_mem _ ha))
          hnext (hp.append_right _), ?_⟩, rfl⟩
        rw [List.map_append]
        rfl
    · have hspace := Nat.lt_of_le_of_ne hfits.room hfull
      rw [← hlength] at hspace
      rw [access, insert_new hi hspace, if_neg hfull]
      refine ⟨⟨_, h'.push (e := new) habove hnext (h'.perm.append_right _), ?_⟩, rfl⟩
      rw [List.map_append]
      rfl

omit [TransOrd κ] in
theorem Ranked.tracks_contains (h : c.Ranked order) (k : κ) :
    Tracks (c.access (.contains k))
      (Recency.access capacity (order.map pair) (.contains k)) := by
  have hheld : c.contains k = (Recency.held? (order.map pair) k).isSome := by
    rw [contains, find?, Recency.held?, Bool.eq_iff_iff, List.find?_isSome, List.find?_isSome]
    constructor
    · rintro ⟨e, he, hk⟩
      exact ⟨pair e, List.mem_map.mpr ⟨e, h.perm.mem_iff.mpr he, rfl⟩, hk⟩
    · rintro ⟨p, hp, hk⟩
      obtain ⟨e, he, rfl⟩ := List.mem_map.mp hp
      exact ⟨e, h.perm.mem_iff.mp he, hk⟩
  rw [access, hheld, Recency.access]
  exact ⟨⟨order, h, rfl⟩, rfl⟩

theorem Ranked.tracks (h : c.Ranked order) (hfits : Recency.Fits (order.map pair) c.capacity)
    (hc : 1 ≤ c.capacity) (hsized : c.WordSized) (a : Access κ ν) :
    Tracks (c.access a) (Recency.access c.capacity (order.map pair) a) := by
  cases a with
  | get k => exact h.tracks_get hfits hsized k
  | insert k v => exact h.tracks_insert hfits hc hsized k v
  | take k => exact h.tracks_take hfits k
  | contains k => exact h.tracks_contains k
  | clear => exact ⟨⟨[], ⟨.refl _, .nil, fun _ he => absurd he List.not_mem_nil⟩, rfl⟩, rfl⟩
  | values =>
    refine ⟨⟨order, h, rfl⟩, congrArg Access.Answer.listed ?_⟩
    rw [valuesByRecency, h.byScore_eq, List.map_map]
    rfl

end Steps

/-- A cache holds the pairs of a list in the order of the list. -/
structure Follows (c : Lru κ ν) (l : Recency κ ν) : Prop where
  ranked : ∃ order, c.Ranked order ∧ order.map pair = l
  fits : Recency.Fits l c.capacity
  counter : c.nextScore.toNat ≤ max c.maxScore (c.capacity + 1)

variable {l : Recency κ ν}

theorem follows_new (capacity maxScore : Nat) :
    Lru.Follows ({ capacity, maxScore } : Lru κ ν) [] where
  ranked := ⟨[], ⟨.nil, .nil, fun _ he => absurd he List.not_mem_nil⟩, rfl⟩
  fits := ⟨.nil, Nat.zero_le _⟩
  counter := Nat.zero_le _

theorem access_limits (c : Lru κ ν) (a : Access κ ν) :
    (c.access a).1.capacity = c.capacity ∧ (c.access a).1.maxScore = c.maxScore := by
  cases a with
  | get k =>
    rw [access, Lru.get]
    dsimp only
    split <;> exact c.bump_limits
  | insert k v =>
    rw [access, Lru.insert]
    dsimp only
    split
    next => exact c.bump_limits
    next => split <;> exact c.bump_limits
  | take k =>
    rw [access, Lru.take]
    split <;> exact ⟨rfl, rfl⟩
  | contains k => exact ⟨rfl, rfl⟩
  | clear => exact ⟨rfl, rfl⟩
  | values => exact ⟨rfl, rfl⟩

/-- An access leaves the counter alone, starts it again or takes a score. -/
theorem nextScore_access (c : Lru κ ν) (a : Access κ ν) :
    (c.access a).1.nextScore = c.nextScore ∨ (c.access a).1.nextScore = 0 ∨
      (c.access a).1.nextScore = c.bump.1.nextScore := by
  cases a with
  | get k =>
    rw [access, Lru.get]
    dsimp only
    split <;> exact .inr (.inr rfl)
  | insert k v =>
    rw [access, Lru.insert]
    dsimp only
    split
    next => exact .inr (.inr rfl)
    next => split <;> exact .inr (.inr rfl)
  | take k =>
    rw [access, Lru.take]
    split <;> exact .inl rfl
  | contains k => exact .inl rfl
  | clear => exact .inr (.inl rfl)
  | values => exact .inl rfl

variable [TransOrd κ]

theorem Follows.access (h : c.Follows l) (hc : 1 ≤ c.capacity) (hsized : c.WordSized)
    (a : Access κ ν) :
    (c.access a).1.Follows (Recency.access c.capacity l a).1 ∧
      (c.access a).2 = (Recency.access c.capacity l a).2 := by
  obtain ⟨order, hr, rfl⟩ := h.ranked
  obtain ⟨hranked, hanswer⟩ := hr.tracks h.fits hc hsized a
  obtain ⟨hcapacity, hmax⟩ := c.access_limits a
  refine ⟨⟨hranked, ?_, ?_⟩, hanswer⟩
  · rw [hcapacity]
    exact h.fits.access hc a
  · rw [hcapacity, hmax]
    rcases c.nextScore_access a with hn | hn | hn
    · exact hn ▸ h.counter
    · exact hn ▸ Nat.zero_le _
    · have hroom := hr.length_eq ▸ h.fits.room
      rw [hn, nextScore_bump hroom hsized]
      exact bump_score_lt hroom hsized

theorem Follows.run (h : c.Follows l) (hc : 1 ≤ c.capacity) (hsized : c.WordSized)
    (accesses : List (Access κ ν)) :
    (Access.run Lru.access c accesses).1.Follows
        (Access.run (Recency.access c.capacity) l accesses).1 ∧
      (Access.run Lru.access c accesses).1.capacity = c.capacity ∧
      (Access.run Lru.access c accesses).2 =
        (Access.run (Recency.access c.capacity) l accesses).2 := by
  induction accesses generalizing c l with
  | nil => exact ⟨h, rfl, rfl⟩
  | cons a rest ih =>
    obtain ⟨hstep, hanswer⟩ := h.access hc hsized a
    obtain ⟨hcapacity, hmax⟩ := c.access_limits a
    have hrest := ih hstep (hcapacity.symm ▸ hc)
      ⟨hcapacity.symm ▸ hsized.spare, hmax.symm ▸ hsized.limit⟩
    rw [hcapacity] at hrest
    obtain ⟨hfollows, hcapacity', hanswers⟩ := hrest
    refine ⟨hfollows, hcapacity', ?_⟩
    rw [Access.run, Access.run]
    dsimp only
    rw [hanswer, hanswers]

/-- What can be read off a cache that holds the pairs of a list. -/
structure Shows (c : Lru κ ν) (l : Recency κ ν) : Prop where
  held : c.held.Perm l
  values : c.valuesByRecency = l.map (·.2)
  apart : l.Pairwise fun a b => compare a.1 b.1 ≠ .eq
  room : l.length ≤ c.capacity
  scores : ∀ e ∈ c.entries, e.score < c.nextScore
  counter : c.nextScore.toNat ≤ max c.maxScore (c.capacity + 1)

omit [TransOrd κ] in
theorem Follows.shows (h : c.Follows l) : c.Shows l := by
  obtain ⟨order, hr, rfl⟩ := h.ranked
  refine ⟨(hr.perm.map pair).symm, ?_, h.fits.apart, h.fits.room, fun e he => ?_, h.counter⟩
  · rw [valuesByRecency, hr.byScore_eq, List.map_map]
    rfl
  · exact hr.below e (hr.perm.mem_iff.mpr he)

/-- Whatever the limit of the counter, a cache answers as a list in order of use does, if the counter
can go on after a full cache is numbered anew. -/
theorem refines_recency {capacity maxScore : Nat} (hcap : 1 ≤ capacity)
    (hspare : capacity + 1 < UInt32.size) (hmax : maxScore < UInt32.size) :
    ∃ c : Lru κ ν, new? capacity maxScore = .ok c ∧ ∀ accesses,
      let out := Access.run Lru.access c accesses
      let expected := Access.run (Recency.access capacity) [] accesses
      out.2 = expected.2 ∧ out.1.Shows expected.1 ∧ expected.1.length ≤ capacity := by
  refine ⟨{ capacity, maxScore }, if_neg (Nat.ne_of_gt hcap), fun accesses => ?_⟩
  have hstart : Lru.Follows ({ capacity, maxScore } : Lru κ ν) [] := follows_new capacity maxScore
  obtain ⟨hfollows, hcapacity, hanswers⟩ := hstart.run hcap ⟨hspare, hmax⟩ accesses
  have hroom := hfollows.shows.room
  rw [hcapacity] at hroom
  exact ⟨hanswers, hfollows.shows, hroom⟩

/-- The limit is below the capacity, so that every access numbers anew once two scores are given. -/
def renumberedAccesses : List (Access Nat Nat) :=
  [.insert 1 10, .insert 2 20, .insert 3 30, .get 1, .get 9, .insert 2 21, .values, .insert 4 40,
    .contains 3, .take 1, .values, .clear, .get 2]

theorem refines_recency_renumbered :
    ∃ c : Lru Nat Nat, new? 3 2 = .ok c ∧ (Access.run Lru.access c renumberedAccesses).2 =
      [.evicted none, .evicted none, .evicted none, .value (some 10), .value none, .evicted none,
        .listed [30, 10, 21], .evicted (some (3, 30)), .present false, .value (some 10),
        .listed [21, 40], .cleared, .value none] := by
  obtain ⟨c, hc, hruns⟩ :=
    @refines_recency Nat Nat _ _ 3 2 (by decide) (by decide) (by decide)
  refine ⟨c, hc, (hruns renumberedAccesses).1.trans ?_⟩
  decide

section WrappedCounter

/-! A cache that is full with the last word of 32 bits as its number of entries. Numbering anew leaves
the counter at that word, so it comes round to zero, and what is used next has the lowest score. -/

/-- The entries of a cache into which the numbers are put in turn. -/
def filled (n : Nat) : List (ScoredEntry Nat Nat) :=
  (List.range n).map fun k => ⟨k, k, .ofNat k⟩

def fill (n : Nat) : List (Access Nat Nat) := (List.range n).map fun k => .insert k k

/-- A cache is filled and used twice, and then one key more is put in. -/
def fillAndReuse (n : Nat) : List (Access Nat Nat) := fill n ++ [.get 0, .get 1, .insert n n]

variable {m n : Nat}

theorem length_filled : (filled n).length = n := by rw [filled, List.length_map, List.length_range]

theorem key_lt_of_mem_filled {e : ScoredEntry Nat Nat} (he : e ∈ filled n) : e.key < n := by
  obtain ⟨k, hk, rfl⟩ := List.mem_map.mp he
  exact List.mem_range.mp hk

theorem index?_eq_none_of_lt {c : Lru Nat Nat} (h : ∀ e ∈ c.entries, e.key < n) :
    c.index? n = none := by
  refine List.findIdx?_eq_none_iff.mpr fun e he => beq_eq_false_iff_ne.mpr fun hk => ?_
  exact Nat.ne_of_lt (h e he) (LawfulEqOrd.compare_eq_iff_eq.mp hk)

theorem ranked_filled (hn : n < UInt32.size) :
    (⟨filled n, n, .ofNat n, n⟩ : Lru Nat Nat).Ranked (filled n) := by
  refine ⟨.refl _, List.pairwise_iff_getElem.mpr fun i j hi hj hij => ?_, fun e he => ?_⟩
  · rw [length_filled] at hi hj
    simp only [filled, List.getElem_map, List.getElem_range]
    exact (UInt32.ofNat_lt_iff_lt (by omega) (by omega)).mpr hij
  · obtain ⟨k, hk, rfl⟩ := List.mem_map.mp he
    have hk := List.mem_range.mp hk
    exact (UInt32.ofNat_lt_iff_lt (by omega) hn).mpr hk

theorem rescore_filled (hn : n < UInt32.size) :
    rescore ⟨filled n, n, .ofNat n, n⟩ = (⟨filled n, n, .ofNat n, n⟩ : Lru Nat Nat) := by
  have hnumbers : ((filled n).mapIdx fun i e => { e with score := .ofNat i }) = filled n :=
    List.ext_getElem (by simp) fun i _ _ => by simp [filled]
  rw [rescore, (ranked_filled hn).byScore_eq]
  simp only [hnumbers, length_filled]

theorem run_fill (hm : m ≤ n) (hn : n < UInt32.size) :
    (Access.run Lru.access (⟨[], n, 0, n⟩ : Lru Nat Nat) (fill m)).1 =
      ⟨filled m, n, .ofNat m, n⟩ := by
  induction m with
  | zero => rfl
  | succ m ih =>
    let c : Lru Nat Nat := ⟨filled m, n, .ofNat m, n⟩
    have hbump : c.bump = (⟨filled m, n, .ofNat (m + 1), n⟩, .ofNat m) := by
      rw [bump_of_lt (by rw [UInt32.toNat_ofNat_of_lt' (by omega)]; exact hm), UInt32.ofNat_add]
      rfl
    have hi : c.bump.1.index? m = none := by
      rw [hbump]
      exact index?_eq_none_of_lt fun e he => key_lt_of_mem_filled he
    have hroom : c.bump.1.entries.length < c.capacity := by
      rw [hbump, length_filled]
      exact hm
    have hstep : (Lru.access c (.insert m m)).1 = ⟨filled (m + 1), n, .ofNat (m + 1), n⟩ := by
      rw [access, insert_new hi hroom, hbump, filled, filled, List.range_succ, List.map_append]
      rfl
    rw [fill, List.range_succ, List.map_append, Access.run_append]
    exact (congrArg (fun c => (Lru.access c (.insert m m)).1) (ih (by omega))).trans hstep

section Reuse

variable {rest : List (ScoredEntry Nat Nat)}

/-- The first lookup in a full cache numbers anew, and the counter comes round. -/
theorem get_comes_round (hn : n + 1 = UInt32.size)
    (hrest : filled n = ⟨0, 0, 0⟩ :: ⟨1, 1, 1⟩ :: rest) :
    (⟨filled n, n, .ofNat n, n⟩ : Lru Nat Nat).get 0 =
      (⟨⟨0, 0, .ofNat n⟩ :: ⟨1, 1, 1⟩ :: rest, n, 0, n⟩, some 0) := by
  let c : Lru Nat Nat := ⟨filled n, n, .ofNat n, n⟩
  have hword : (UInt32.ofNat n).toNat = n := UInt32.toNat_ofNat_of_lt' (by omega)
  have hround : UInt32.ofNat n + 1 = 0 := by
    rw [← UInt32.ofNat_size, ← hn, UInt32.ofNat_add]
    rfl
  have hbump : c.bump = (⟨⟨0, 0, 0⟩ :: ⟨1, 1, 1⟩ :: rest, n, 0, n⟩, .ofNat n) := by
    rw [bump_of_le (Nat.le_of_eq hword.symm), rescore_filled (by omega), hround, hrest]
  have hi : c.bump.1.index? 0 = some ([] : List (ScoredEntry Nat Nat)).length := by
    rw [hbump]
    rfl
  rw [get_held hi (by rw [hbump]; rfl), hbump]
  rfl

/-- The second lookup takes the score zero. -/
theorem get_lowest (h3 : 3 ≤ n) :
    (⟨⟨0, 0, .ofNat n⟩ :: ⟨1, 1, 1⟩ :: rest, n, 0, n⟩ : Lru Nat Nat).get 1 =
      (⟨⟨0, 0, .ofNat n⟩ :: ⟨1, 1, 0⟩ :: rest, n, 1, n⟩, some 1) := by
  let c : Lru Nat Nat := ⟨⟨0, 0, .ofNat n⟩ :: ⟨1, 1, 1⟩ :: rest, n, 0, n⟩
  have hcount : (0 : UInt32).toNat < n := Nat.lt_of_lt_of_le (by decide) h3
  have hbump : c.bump = (⟨⟨0, 0, .ofNat n⟩ :: ⟨1, 1, 1⟩ :: rest, n, 1, n⟩, 0) := bump_of_lt hcount
  have hi : c.bump.1.index? 1 = some [(⟨0, 0, .ofNat n⟩ : ScoredEntry Nat Nat)].length := by
    rw [hbump]
    rfl
  rw [get_held hi (by rw [hbump]; rfl), hbump]
  rfl

/-- The key that was used last of all has the lowest score, so it is the one that goes. -/
theorem insert_evicts_lowest (h3 : 3 ≤ n) (hn : n < UInt32.size)
    (hrest : filled n = ⟨0, 0, 0⟩ :: ⟨1, 1, 1⟩ :: rest) :
    ((⟨⟨0, 0, .ofNat n⟩ :: ⟨1, 1, 0⟩ :: rest, n, 1, n⟩ : Lru Nat Nat).insert n n).2 =
      some (1, 1) := by
  let c : Lru Nat Nat := ⟨⟨0, 0, .ofNat n⟩ :: ⟨1, 1, 0⟩ :: rest, n, 1, n⟩
  have hcount : (1 : UInt32).toNat < n := Nat.lt_of_lt_of_le (by decide) h3
  have hbump : c.bump = (⟨⟨0, 0, .ofNat n⟩ :: ⟨1, 1, 0⟩ :: rest, n, 2, n⟩, 1) := bump_of_lt hcount
  have hlength := length_filled (n := n)
  have hkeys := fun e (he : e ∈ filled n) => key_lt_of_mem_filled he
  rw [hrest] at hlength hkeys
  have hi : c.bump.1.index? n = none := by
    rw [hbump]
    refine index?_eq_none_of_lt ?_
    simpa using hkeys
  have hfirst : UInt32.ofNat n ≠ 0 := by
    rw [ne_eq, ← UInt32.toNat_inj, UInt32.toNat_ofNat_of_lt' hn]
    exact Nat.ne_of_gt (Nat.lt_of_lt_of_le (by decide) h3)
  have hvictim : c.bump.1.leastRecent? =
      some [(⟨0, 0, .ofNat n⟩ : ScoredEntry Nat Nat)].length := by
    have hleast : (c.bump.1.entries.map (·.score)).min? = some 0 := by
      rw [hbump]
      exact List.min?_eq_some_iff.mpr ⟨by simp, fun _ _ => UInt32.zero_le⟩
    rw [leastRecent?, hleast, hbump]
    simp [List.findIdx?_cons, hfirst]
  rw [insert_full hi (by rw [hbump]; exact Nat.le_of_eq hlength.symm) hvictim
    (by rw [hbump]; rfl)]
  rfl

end Reuse

theorem getLast?_fillAndReuse {σ : Type} (step : σ → Access Nat Nat → σ × Access.Answer Nat Nat)
    (s : σ) : (Access.run step s (fillAndReuse n)).2.getLast? =
      some (step (step (step (Access.run step s (fill n)).1 (.get 0)).1 (.get 1)).1
        (.insert n n)).2 := by
  rw [fillAndReuse, Access.run_append]
  simp [Access.run]

theorem reused_evicted (h3 : 3 ≤ n) (hn : n + 1 = UInt32.size) :
    (Access.run Lru.access (⟨[], n, 0, n⟩ : Lru Nat Nat) (fillAndReuse n)).2.getLast? =
      some (.evicted (some (1, 1))) := by
  obtain ⟨rest, hrest⟩ : ∃ rest, filled n = ⟨0, 0, 0⟩ :: ⟨1, 1, 1⟩ :: rest := by
    obtain ⟨k, rfl⟩ := Nat.exists_eq_add_of_le' h3
    rw [filled, List.range_succ_eq_map, List.range_succ_eq_map]
    exact ⟨_, rfl⟩
  rw [getLast?_fillAndReuse, run_fill (Nat.le_refl n) (by omega)]
  simp only [access, get_comes_round hn hrest, get_lowest h3,
    insert_evicts_lowest h3 (by omega) hrest]

theorem fits_pairs (hm : m ≤ n) : Recency.Fits ((List.range m).map fun k => (k, k)) n where
  apart := by
    rw [List.pairwise_map]
    exact List.pairwise_lt_range.imp fun hab hk =>
      Nat.ne_of_lt hab (LawfulEqOrd.compare_eq_iff_eq.mp hk)
  room := by
    rw [List.length_map, List.length_range]
    exact hm

theorem pairs_apart : ∀ e ∈ (List.range m).map fun k => (k, k), compare e.1 m ≠ .eq := by
  intro e he hk
  obtain ⟨k, hlt, rfl⟩ := List.mem_map.mp he
  exact Nat.ne_of_lt (List.mem_range.mp hlt) (LawfulEqOrd.compare_eq_iff_eq.mp hk)

theorem run_fill_recency (hm : m ≤ n) :
    (Access.run (Recency.access n) [] (fill m)).1 = (List.range m).map fun k => (k, k) := by
  induction m with
  | zero => rfl
  | succ m ih =>
    rw [fill, List.range_succ, List.map_append, Access.run_append, ← fill, ih (by omega)]
    have hroom : ¬ ((List.range m).map fun k => (k, k)).length = n := by
      rw [List.length_map, List.length_range]
      omega
    rw [List.map_append, List.map_singleton, Access.run, Recency.access,
      Recency.held?_eq_none pairs_apart]
    dsimp only
    rw [if_neg hroom]
    rfl

/-- The list hands back the pair that was used longest ago. -/
theorem oldest_evicted (h3 : 3 ≤ n) :
    (Access.run (Recency.access n) [] (fillAndReuse n)).2.getLast? =
      some (.evicted (some (2, 2))) := by
  obtain ⟨rest, hrest⟩ : ∃ rest, (List.range n).map (fun k => (k, k)) =
      (0, 0) :: (1, 1) :: (2, 2) :: rest := by
    obtain ⟨k, rfl⟩ := Nat.exists_eq_add_of_le' h3
    rw [List.range_succ_eq_map, List.range_succ_eq_map, List.range_succ_eq_map]
    exact ⟨_, rfl⟩
  have hfits := fits_pairs (Nat.le_refl n)
  have hapart := pairs_apart (m := n)
  have hlength : ((List.range n).map fun k => (k, k)).length = n := by
    rw [List.length_map, List.length_range]
  rw [getLast?_fillAndReuse, run_fill_recency (Nat.le_refl n)]
  rw [hrest] at hfits hapart hlength ⊢
  have hget₀ : Recency.access n ((0, 0) :: (1, 1) :: (2, 2) :: rest) (.get 0) =
      ((1, 1) :: (2, 2) :: (rest ++ [(0, 0)]), .value (some 0)) := hfits.get_head.1
  have hget₁ : Recency.access n ((1, 1) :: (2, 2) :: (rest ++ [(0, 0)])) (.get 1) =
      ((2, 2) :: (rest ++ [(0, 0)] ++ [(1, 1)]), .value (some 1)) := hfits.get_head.2.get_head.1
  have hnone : Recency.held? ((2, 2) :: (rest ++ [(0, 0)] ++ [(1, 1)])) n = none :=
    Recency.held?_eq_none fun e he => hapart e (by grind)
  have hfull : ((2, 2) :: (rest ++ [(0, 0)] ++ [(1, 1)])).length = n := by
    rw [← hlength]
    simp
  rw [hget₀, hget₁, Recency.access, hnone]
  dsimp only
  rw [if_pos hfull]
  rfl

/-- With 2 ^ 32 - 1 entries the word after the last is missing: the key that was used last of all makes
room for the new one, and not the one that was used longest ago. -/
theorem full_words_evict_reused :
    1 ≤ UInt32.size - 1 ∧ UInt32.size - 1 < UInt32.size ∧
      ∃ c : Lru Nat Nat, new? (UInt32.size - 1) (UInt32.size - 1) = .ok c ∧
        (Access.run Lru.access c (fillAndReuse (UInt32.size - 1))).2.getLast? =
          some (.evicted (some (1, 1))) ∧
        (Access.run (Recency.access (UInt32.size - 1)) []
            (fillAndReuse (UInt32.size - 1))).2.getLast? = some (.evicted (some (2, 2))) := by
  obtain ⟨n, hn⟩ : ∃ n, n = UInt32.size - 1 := ⟨_, rfl⟩
  have hsize : n + 1 = UInt32.size := by rw [hn]; decide
  have h3 : 3 ≤ n := by rw [hn]; decide
  rw [← hn]
  exact ⟨by omega, by omega, ⟨[], n, 0, n⟩, if_neg (by omega), reused_evicted h3 hsize,
    oldest_evicted h3⟩

end WrappedCounter

end Lru

end SymbolIndex
