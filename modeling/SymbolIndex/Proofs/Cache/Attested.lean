import SymbolIndex.Proofs.Cache.Interleaving
import SymbolIndex.Proofs.Lru

/-! Where the entries of a cache come from. If all that is ever saved is good, then all that is ever
found is good, in memory or on disk, whatever was pushed out, removed or half saved. -/

namespace SymbolIndex

/-- What a cache may give for a file: a good snapshot of the file, under its own time. -/
structure Attested (good : Snapshot → Prop) (q : Path) (e : CachedSnapshot) : Prop where
  path : e.payload.path.same q = true
  modified : e.modified = e.payload.modified
  good : good e.payload

variable {good : Snapshot → Prop} {p q : Path} {e : CachedSnapshot} {d : Disk}

theorem Attested.congr (h : Attested good p e) (hp : p.same q = true) : Attested good q e :=
  ⟨Path.same_trans h.path hp, h.modified, h.good⟩

theorem Attested.mono {good' : Snapshot → Prop} (h : Attested good q e)
    (hg : ∀ s, good s → good' s) : Attested good' q e :=
  ⟨h.path, h.modified, hg _ h.good⟩

namespace CacheStore

variable {s : CacheStore}

/-- The content of the file where the envelope of a source is looked for. -/
def slot? (s : CacheStore) (d : Disk) (q : Path) : Option Bytes :=
  d.content? (Disk.placeOf (d.absolute (s.entryPath q)))

/-- Every envelope that can be read has a good snapshot of its source. -/
def Attests (s : CacheStore) (good : Snapshot → Prop) (d : Disk) : Prop :=
  ∀ q bytes, s.slot? d q = some bytes → ∀ found : Envelope Snapshot,
    s.envelope? q bytes = some found →
      found.payload.path = q ∧ found.header.modified = found.payload.modified ∧ good found.payload

/-- A cache directory without files holds nothing that could be wrong. -/
theorem attests_vacant (hv : d.Vacant s.root) : s.Attests good d := by
  intro q bytes hb
  rw [slot?, placeOf_entryPath, Disk.content?_eq_some] at hb
  obtain ⟨t, ht⟩ := hb
  rw [hv.node?] at ht
  cases ht

theorem Attests.mono {good' : Snapshot → Prop} (h : s.Attests good d)
    (hg : ∀ s, good s → good' s) : s.Attests good' d := by
  intro q bytes hb found hf
  obtain ⟨hp, hm, hs⟩ := h q bytes hb found hf
  exact ⟨hp, hm, hg _ hs⟩

theorem Attests.load (h : s.Attests good d) (hl : s.load d q = some e) : Attested good q e := by
  rw [CacheStore.load] at hl
  obtain ⟨bytes, hb, hl⟩ := Option.bind_eq_some_iff.mp hl
  obtain ⟨found, hf, hl⟩ := Option.bind_eq_some_iff.mp hl
  obtain ⟨text, -, he⟩ := Option.bind_eq_some_iff.mp hl
  obtain ⟨hp, hm, hg⟩ := h q bytes (content?_of_readSlot hb) found hf
  rw [entryOf?] at he
  split at he
  next => cases he
  next =>
    split at he
    next =>
      cases he
      exact ⟨by rw [hp, Path.same_self], hm, hg⟩
    next => cases he

/-- No step writes an envelope but those of the saves, and each under its own source. -/
theorem Attests.run (h : s.Attests good d) {steps : List SlotStep}
    (hs : ∀ source e, .putEnvelope source e ∈ steps →
      e.payload.path = source ∧ e.modified = e.payload.modified ∧ good e.payload) :
    s.Attests good (s.run d steps) := by
  intro q bytes hb found hf
  rw [slot?, absolute_run] at hb
  rcases content?_run hb with hold | ⟨step, hmem, p, hw, hp⟩
  · exact h q bytes hold found hf
  · obtain ⟨other, e, rfl, rfl⟩ := written?_entry hw hp
    obtain ⟨rfl, rfl⟩ := envelope?_eq_some Snapshot.faithful hf
    exact hs _ _ hmem

theorem Attests.save (h : s.Attests good d) (he : Attested good e.payload.path e) :
    s.Attests good (s.save d e.payload.path e).1 := by
  obtain ⟨steps, hsteps, hrun⟩ := exists_run_eq_save s d e.payload.path e
  rw [hrun]
  refine h.run fun source e' hm => ?_
  have hput := hsteps.subset hm
  simp only [List.mem_cons, reduceCtorEq, SlotStep.putEnvelope.injEq, List.not_mem_nil, or_false,
    false_or] at hput
  obtain ⟨rfl, rfl⟩ := hput
  exact ⟨rfl, he.modified, he.good⟩

theorem Attests.remove (h : s.Attests good d) (p : Path) : s.Attests good (s.remove d p).1 := by
  obtain ⟨steps, hsteps, hrun⟩ := exists_run_eq_remove s d p
  rw [hrun]
  refine h.run fun source e hm => ?_
  have hput := hsteps.subset hm
  simp at hput

end CacheStore

namespace SnapshotCache

/-- What the cache has for a file, in memory or else on disk. -/
def peek? (c : SnapshotCache) (d : Disk) (p : Path) : Option CachedSnapshot := (c.takeOrLoad d p).2

structure Attests (c : SnapshotCache) (good : Snapshot → Prop) (d : Disk) : Prop where
  distinct : c.loaded.Distinct
  memory : ∀ q e, c.loaded.Has q e → Attested good q e
  slots : c.store.Attests good d

variable {c : SnapshotCache}

theorem attests_new {s : CacheStore} (h : s.Attests good d) (capacity : Nat) :
    Attests ⟨s, { capacity := capacity, maxScore := Lru.defaultMaxScore }⟩ good d where
  distinct := .nil
  memory := by
    rintro q e ⟨k, hm, -⟩
    cases hm
  slots := h

theorem Attests.mono {good' : Snapshot → Prop} (h : c.Attests good d)
    (hg : ∀ s, good s → good' s) : c.Attests good' d :=
  ⟨h.distinct, fun q e he => (h.memory q e he).mono hg, h.slots.mono hg⟩

/-- Entries may go from memory. -/
theorem Attests.forget (h : c.Attests good d) {loaded : Lru Path CachedSnapshot}
    (hd : loaded.Distinct) (hl : ∀ q e, loaded.Has q e → c.loaded.Has q e) :
    Attests { c with loaded := loaded } good d :=
  ⟨hd, fun q e he => h.memory q e (hl q e he), h.slots⟩

theorem peek?_eq (c : SnapshotCache) (d : Disk) (p : Path) :
    c.peek? d p = ((c.loaded.take p).2).or (c.store.load d p) := by
  rw [peek?, takeOrLoad]
  split
  next h => rw [h]; rfl
  next h => rw [h]; rfl

theorem takeOrLoad_fst (c : SnapshotCache) (d : Disk) (p : Path) :
    (c.takeOrLoad d p).1 = { c with loaded := (c.loaded.take p).1 } := by
  rw [takeOrLoad]
  split
  next h => rw [h]
  next h => rw [h]

theorem Attests.peek? (h : c.Attests good d) (he : c.peek? d q = some e) : Attested good q e := by
  rw [peek?_eq, Option.or_eq_some_iff] at he
  rcases he with he | ⟨-, he⟩
  · exact h.memory q e ((Lru.take_iff h.distinct).mp he)
  · exact h.slots.load he

theorem Attests.takeOrLoad (h : c.Attests good d) (p : Path) :
    (c.takeOrLoad d p).1.Attests good d := by
  rw [takeOrLoad_fst]
  exact h.forget (h.distinct.take p) fun q e he => ((Lru.has_take h.distinct p).mp he).1

theorem take_congr {c : Lru Path CachedSnapshot} (hd : c.Distinct) {c' : Lru Path CachedSnapshot}
    (hd' : c'.Distinct) (h : ∀ e, c'.Has q e ↔ c.Has q e) : (c'.take q).2 = (c.take q).2 := by
  ext e
  rw [Lru.take_iff hd', Lru.take_iff hd, h]

/-- Taking one file out does not change what the cache has for another. -/
theorem peek?_takeOrLoad (hd : c.loaded.Distinct) (hp : p.same q = false) :
    (c.takeOrLoad d p).1.peek? d q = c.peek? d q := by
  have hne : compare p q ≠ .eq := fun he => by rw [Path.compare_eq_iff.mp he] at hp; cases hp
  rw [takeOrLoad_fst, peek?_eq, peek?_eq]
  congr 1
  exact take_congr hd (hd.take p) fun e => by simp [Lru.has_take hd, hne]

theorem distinct_get (h : c.loaded.Distinct) (p : Path) :
    (c.loaded.get p).1.Distinct ∧ ∀ q e, (c.loaded.get p).1.Has q e ↔ c.loaded.Has q e :=
  ⟨h.perm (c.loaded.held_get p), fun _ _ => Lru.has_congr (c.loaded.held_get p)⟩

/-- An entry that comes from disk is kept as it is if memory has none for the file. -/
theorem retainNewer_spec (hd : c.loaded.Distinct) (hnone : ∀ e, ¬ c.loaded.Has p e)
    (e : CachedSnapshot) :
    ∃ loaded, c.retainNewer p e = ({ c with loaded := loaded }, e) ∧ loaded.Distinct ∧
      loaded.Has p e ∧ ∀ q e', loaded.Has q e' → c.loaded.Has q e' ∨ p.same q = true ∧ e' = e := by
  obtain ⟨hget, hsame⟩ := distinct_get hd p
  have hmiss : (c.loaded.get p).2 = none :=
    Option.eq_none_iff_forall_ne_some.mpr fun e' he' => hnone e' ((Lru.get_iff hd).mp he')
  obtain ⟨hdistinct, hhas, hrest⟩ := hget.insert p e
  refine ⟨_, ?_, hdistinct, hhas, fun q e' h => ?_⟩
  · rw [retainNewer]
    generalize c.loaded.get p = got at hmiss
    obtain ⟨loaded, held⟩ := got
    cases hmiss
    rfl
  · rcases hrest q e' h with ⟨hq, he⟩ | h
    · exact .inr ⟨Path.compare_eq_iff.mp (Std.OrientedCmp.eq_symm hq), he⟩
    · exact .inl ((hsame q e').mp h)

/-- Loading a file gives what the cache has for it, and nothing else comes into memory. -/
theorem tryLoad_spec (hd : c.loaded.Distinct) (d : Disk) (p : Path) :
    ∃ loaded, (c.tryLoad d p).1 = { c with loaded := loaded } ∧ loaded.Distinct ∧
      (c.tryLoad d p).2 = c.peek? d p ∧
      ∀ q e, loaded.Has q e → c.loaded.Has q e ∨ p.same q = true ∧ c.peek? d p = some e := by
  obtain ⟨hget, hsame⟩ := distinct_get hd p
  have htake : (c.loaded.take p).2 = (c.loaded.get p).2 := by
    ext e
    rw [Lru.take_iff hd, Lru.get_iff hd]
  have hmiss : (c.loaded.get p).2 = none → ∀ e, ¬ (c.loaded.get p).1.Has p e := by
    intro hnone e he
    rw [(Lru.get_iff hd).mpr ((hsame p e).mp he)] at hnone
    cases hnone
  rw [peek?_eq, htake, tryLoad]
  generalize c.loaded.get p = got at hget hsame hmiss
  obtain ⟨loaded, held⟩ := got
  cases held with
  | some e => exact ⟨loaded, rfl, hget, rfl, fun q e' h => .inl ((hsame q e').mp h)⟩
  | none =>
    cases hload : (c.store.load d p : Option CachedSnapshot) with
    | none => exact ⟨loaded, rfl, hget, rfl, fun q e h => .inl ((hsame q e).mp h)⟩
    | some e =>
      obtain ⟨loaded', hr, hdistinct, -, hrest⟩ :=
        retainNewer_spec (c := { c with loaded := loaded }) hget (hmiss rfl) e
      dsimp only
      rw [hr]
      refine ⟨loaded', rfl, hdistinct, rfl, fun q e' h => ?_⟩
      rcases hrest q e' h with h | ⟨hq, rfl⟩
      · exact .inl ((hsame q e').mp h)
      · exact .inr ⟨hq, rfl⟩

theorem Attests.tryLoad (h : c.Attests good d) (p : Path) : (c.tryLoad d p).1.Attests good d := by
  obtain ⟨loaded, hc, hd, -, hl⟩ := tryLoad_spec h.distinct d p
  rw [hc]
  refine ⟨hd, fun q e he => ?_, h.slots⟩
  rcases hl q e he with he | ⟨hp, he⟩
  · exact h.memory q e he
  · exact (h.peek? he).congr hp

theorem Attests.invalidate (h : c.Attests good d) (p : Path) : (c.invalidate p).Attests good d :=
  h.forget (h.distinct.take p) fun _ _ he => ((Lru.has_take h.distinct p).mp he).1

theorem Attests.disk (h : c.Attests good d) {d' : Disk} (hd : c.store.Attests good d') :
    c.Attests good d' :=
  ⟨h.distinct, h.memory, hd⟩

theorem Attests.save (h : c.Attests good d) (he : Attested good e.payload.path e) :
    (c.save d e.payload.path e).1.Attests good (c.save d e.payload.path e).2.1 := by
  have hslots := h.slots.save he
  unfold SnapshotCache.save
  split
  next d' hs =>
    rw [hs] at hslots
    obtain ⟨hd, -, hrest⟩ := h.distinct.insert e.payload.path e
    refine ⟨hd, fun q e' hq => ?_, hslots⟩
    rcases hrest q e' hq with ⟨hq, rfl⟩ | hq
    · exact he.congr (Path.compare_eq_iff.mp (Std.OrientedCmp.eq_symm hq))
    · exact h.memory q e' hq
  next d' cause hs =>
    rw [hs] at hslots
    exact (h.invalidate _).disk hslots

theorem Attests.remove (h : c.Attests good d) (p : Path) :
    (c.remove d p).1.Attests good (c.remove d p).2.1 :=
  (h.invalidate p).disk (h.slots.remove p)

end SnapshotCache

end SymbolIndex
