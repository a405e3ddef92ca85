import SymbolIndex.Proofs.Cache.Slots
import SymbolIndex.Proofs.Lru

/-! The cache as a function from files to entries. Memory and disk give the same answers, lookups
change none of them, and a save changes the answer for its own file alone. -/

namespace SymbolIndex

namespace SnapshotCache

/-- What the cache gives for a file, from memory or from disk. -/
structure Holds (c : SnapshotCache) (d : Disk) (kept : Path → Option CachedSnapshot) : Prop where
  memory : c.loaded.Mirrors kept
  stored : ∀ p, d.cwd.Canonical p → c.store.load d p = kept p
  spelling : ∀ {p q : Path}, compare p q = .eq → kept p = kept q
  visible : d.Visible c.store.root

variable {c : SnapshotCache} {d : Disk} {kept : Path → Option CachedSnapshot} {p : Path}

/-- Memory that starts afresh in front of the same store. -/
theorem Holds.reopen (h : c.Holds d kept) (capacity : Nat) :
    Holds ⟨c.store, { capacity := capacity, maxScore := Lru.defaultMaxScore }⟩ d kept :=
  ⟨Lru.mirrors_new capacity kept, h.stored, h.spelling, h.visible⟩

theorem holds_vacant {s : CacheStore} (hv : d.Vacant s.root)
    (capacity : Nat) :
    Holds ⟨s, { capacity := capacity, maxScore := Lru.defaultMaxScore }⟩ d fun _ => none where
  memory := Lru.mirrors_new capacity _
  stored p hp := by
    have hread : CacheStore.readSlot d (s.entryPath p) = none := by
      refine Option.eq_none_iff_forall_ne_some.mpr fun content hc => ?_
      rw [CacheStore.entryPath_eq,
        Disk.readSlot_iff (s.plainName_entryName p), hv.node?] at hc
      obtain ⟨_, _, hc⟩ := hc
      cases hc
    rw [CacheStore.load, hread]
    rfl
  spelling _ := rfl
  visible := hv.visible

theorem Holds.get (h : c.Holds d kept) (p : Path) :
    Holds { c with loaded := (c.loaded.get p).1 } d kept ∧
      ∀ e, (c.loaded.get p).2 = some e → kept p = some e := by
  obtain ⟨hm, hv⟩ := h.memory.get h.spelling p
  exact ⟨⟨hm, h.stored, h.spelling, h.visible⟩, hv⟩

theorem Holds.insert (h : c.Holds d kept) {e : CachedSnapshot} (he : kept p = some e) :
    Holds { c with loaded := (c.loaded.insert p e).1 } d kept :=
  ⟨h.memory.insert (fun _ hk => (h.spelling hk).trans he) fun _ _ => rfl, h.stored, h.spelling,
    h.visible⟩

theorem Holds.retainNewer (h : c.Holds d kept) {e : CachedSnapshot} (he : kept p = some e) :
    (c.retainNewer p e).1.Holds d kept ∧ (c.retainNewer p e).1.store = c.store ∧
      (c.retainNewer p e).2 = e := by
  obtain ⟨hget, hval⟩ := h.get p
  rw [SnapshotCache.retainNewer]
  generalize c.loaded.get p = got at hget hval
  obtain ⟨loaded, held⟩ := got
  cases held with
  | none => exact ⟨hget.insert he, rfl, rfl⟩
  | some held =>
    have hheld : held = e := by simpa [he] using (hval held rfl).symm
    dsimp only
    split
    next => exact ⟨hget, rfl, hheld⟩
    next => exact ⟨hget.insert he, rfl, rfl⟩

theorem Holds.tryLoad (h : c.Holds d kept) (hp : d.cwd.Canonical p) :
    (c.tryLoad d p).1.Holds d kept ∧ (c.tryLoad d p).1.store = c.store ∧
      (c.tryLoad d p).2 = kept p := by
  obtain ⟨hget, hval⟩ := h.get p
  rw [SnapshotCache.tryLoad]
  generalize c.loaded.get p = got at hget hval
  obtain ⟨loaded, held⟩ := got
  cases held with
  | some e => exact ⟨hget, rfl, (hval e rfl).symm⟩
  | none =>
    dsimp only at hget ⊢
    rw [h.stored p hp]
    cases hk : kept p with
    | none => exact ⟨hget, rfl, rfl⟩
    | some e =>
      obtain ⟨hr, hs, he⟩ := hget.retainNewer hk
      exact ⟨hr, hs, congrArg some he⟩

theorem Holds.takeOrLoad (h : c.Holds d kept) (hp : d.cwd.Canonical p) :
    (c.takeOrLoad d p).1.Holds d kept ∧ (c.takeOrLoad d p).1.store = c.store ∧
      (c.takeOrLoad d p).2 = kept p := by
  obtain ⟨hm, hval⟩ := h.memory.take h.spelling p
  rw [SnapshotCache.takeOrLoad]
  generalize c.loaded.take p = taken at hm hval
  obtain ⟨loaded, held⟩ := taken
  cases held with
  | some e => exact ⟨⟨hm, h.stored, h.spelling, h.visible⟩, rfl, (hval e rfl).symm⟩
  | none => exact ⟨⟨hm, h.stored, h.spelling, h.visible⟩, rfl, h.stored p hp⟩

/-- A save that succeeds, of a file that shares its slot with no other. -/
theorem Holds.save (h : c.Holds d kept) (hd : d.cwd.isAbsolute = true) (hp : d.cwd.Canonical p)
    (hapart : ∀ q e, kept q = some e → d.cwd.Canonical q →
      CacheStore.slotName q = CacheStore.slotName p → q = p)
    {e : CachedSnapshot} (hfits : Envelope.Fits c.store.format
      ((c.store.envelope p e).encode c.store.format))
    {c' : SnapshotCache} {d' : Disk} (hs : c.save d p e = (c', d', .ok ())) :
    c'.Holds d' (fun q => if q.same p then some e else kept q) ∧ c'.store = c.store ∧
      c.store.save d p e = (d', .ok ()) := by
  unfold SnapshotCache.save at hs
  cases hsave : c.store.save d p e with
  | mk d₁ result =>
    cases result with
    | error cause => simp [hsave] at hs
    | ok _ =>
      obtain ⟨rfl, rfl⟩ : { c with loaded := (c.loaded.insert p e).1 } = c' ∧ d₁ = d' := by
        simpa [hsave] using hs
      have hcwd : d₁.cwd = d.cwd := by
        have hc := c.store.cwd_save d p e
        rwa [hsave] at hc
      refine ⟨⟨?_, fun q hq => ?_, fun {a b} hab => ?_, ?_⟩, rfl, rfl⟩
      · refine h.memory.insert (fun k hk => ?_) fun k hk => ?_
        · rw [if_pos (Path.compare_eq_iff.mp hk)]
        · rw [if_neg fun hs => hk (Path.compare_eq_iff.mpr hs)]
      · rw [hcwd] at hq
        rw [CacheStore.load_save Snapshot.faithful h.visible (hp.text_ne hd) hfits hsave
          (hq.text_ne hd), h.stored q hq]
        by_cases hsame : q = p
        · simp [hsame]
        · have hne : ¬ q.same p = true := fun hs => hsame (hq.eq_of_same hd hp hs)
          have htext : ¬ q.text = p.text := fun ht => hsame (Path.mk.injEq _ _ ▸ ht)
          rw [if_neg hne, if_neg htext]
          split
          next hslot =>
            cases hk : kept q with
            | none => rfl
            | some e' => exact absurd (hapart q e' hk hq hslot) hsame
          next => rfl
      · rw [Path.compare_eq_iff] at hab
        rw [Path.same_congr hab, h.spelling (Path.compare_eq_iff.mpr hab)]
      · exact (CacheStore.visible_save h.visible (hp.text_ne hd) hsave).1

end SnapshotCache

end SymbolIndex
