import SymbolIndex.Proofs.Cache.Attested
import SymbolIndex.Proofs.Cache.Separation

/-! The cache in front of the store is not to be seen. Whatever was saved, loaded, forgotten and
removed, and wherever a save or a removal stopped, an entry in memory is the one that a load would
find on disk (`Current`). So a request to the cache is answered as the store alone would answer it. -/

namespace SymbolIndex

inductive CacheRequest
  | tryLoad (p : Path)
  | takeOrLoad (p : Path)
  | save (p : Path) (e : CachedSnapshot)
  | invalidate (p : Path)
  | remove (p : Path)

inductive CacheReply
  | entry (e : Option CachedSnapshot)
  | outcome (r : Except CacheError Unit)
  | forgotten

namespace CacheStore

variable {s : CacheStore} {d d' : Disk} {p q : Path} {e : CachedSnapshot} {bytes : Bytes}

/-- What a request does to the disk and gives back when there is no memory. -/
def serve (s : CacheStore) (d : Disk) : CacheRequest → Disk × CacheReply
  | .tryLoad p => (d, .entry (s.load d p))
  | .takeOrLoad p => (d, .entry (s.load d p))
  | .save p e => ((s.save d p e).1, .outcome (s.save d p e).2)
  | .invalidate _ => (d, .forgotten)
  | .remove p => ((s.remove d p).1, .outcome (s.remove d p).2)

/-- The file that a step is about. -/
def target (s : CacheStore) : SlotStep → Path
  | .putText source _ => s.textPath source
  | .putEnvelope source _ => s.entryPath source
  | .dropEnvelope source => s.entryPath source
  | .dropText source => s.textPath source

theorem load_own_save (hfits : Envelope.Fits s.format ((s.envelope p e).encode s.format))
    (h : s.save d p e = (d', .ok ())) : s.load d' p = some e := by
  obtain ⟨htext, hentry⟩ := readSlot_save h
  have henvelope := envelope?_encode Snapshot.faithful hfits s.version p
  rw [if_pos ⟨rfl, rfl⟩] at henvelope
  rw [load, hentry, htext, Option.bind_eq_bind, Option.bind_some, henvelope]
  exact entryOf?_envelope s p e

/-- The slots of the paths in use hold the same on both disks. -/
def SameSlots (s : CacheStore) (used : Path → Prop) (d d' : Disk) : Prop :=
  ∀ p, used p → readSlot d' (s.textPath p) = readSlot d (s.textPath p) ∧
    readSlot d' (s.entryPath p) = readSlot d (s.entryPath p)

theorem sameSlots_freeze (s : CacheStore) (used : Path → Prop) (d : Disk) (place : Place) :
    s.SameSlots used d (d.freeze place) := fun _ _ => ⟨rfl, rfl⟩

/-- A step that has something to do can be refused. -/
theorem attempt_freeze {step : SlotStep} (h : (s.written? step).isSome = true ∨
      (readSlot d (s.target step)).isSome = true) :
    ∃ cause, s.attempt (d.freeze (Disk.placeOf (d.absolute (s.target step)))) step =
      .error cause := by
  have hdrop : ∀ p, (readSlot d p).isSome = true →
      ∃ cause, removeFile (d.freeze (Disk.placeOf (d.absolute p))) p = .error cause := by
    intro p hp
    obtain ⟨bytes, hb⟩ := Option.isSome_iff_exists.mp hp
    rw [removeFile, Disk.remove_freeze (readSlot_eq_some.mp hb)]
    exact ⟨_, rfl⟩
  cases step with
  | putText source e =>
    rw [attempt, saveText]
    exact d.replace_freeze (s.textPath source) _
  | putEnvelope source e =>
    rw [attempt, saveEnvelope]
    exact d.replace_freeze (s.entryPath source) _
  | dropEnvelope source =>
    rw [attempt]
    rcases h with h | h
    · cases h
    · exact hdrop _ h
  | dropText source =>
    rw [attempt]
    rcases h with h | h
    · cases h
    · exact hdrop _ h

/-- The paths that a cache is used for: each spelled in the clean way, and with a slot of its own. -/
structure Separate (used : Path → Prop) : Prop where
  clean : ∀ p, used p → p.clean = p
  apart : ∀ p q, used p → used q → slotName p = slotName q → p = q

section Separate

variable {used : Path → Prop} (h : Separate used) (hp : used p) (hq : used q)

include h hp hq

theorem Separate.eq_of_same (hs : p.same q = true) : p = q :=
  Path.eq_of_same_clean (h.clean p hp) (h.clean q hq) hs

theorem Separate.slotName_ne (hs : p.same q = false) : slotName q ≠ slotName p := by
  intro he
  rw [h.apart q p hq hp he, Path.same_self] at hs
  cases hs

end Separate

end CacheStore

/-- A request for a path in use; what it saves, it can read again. -/
def CacheRequest.Admissible (s : CacheStore) (used : Path → Prop) : CacheRequest → Prop
  | .tryLoad p => used p
  | .takeOrLoad p => used p
  | .save p e => used p ∧ Envelope.Fits s.format ((s.envelope p e).encode s.format)
  | .invalidate p => used p
  | .remove p => used p

namespace SnapshotCache

/-- What a request does to the cache and to the disk, and gives back. -/
def serve (c : SnapshotCache) (d : Disk) : CacheRequest → SnapshotCache × Disk × CacheReply
  | .tryLoad p => ((c.tryLoad d p).1, d, .entry (c.tryLoad d p).2)
  | .takeOrLoad p => ((c.takeOrLoad d p).1, d, .entry (c.takeOrLoad d p).2)
  | .save p e => ((c.save d p e).1, (c.save d p e).2.1, .outcome (c.save d p e).2.2)
  | .invalidate p => (c.invalidate p, d, .forgotten)
  | .remove p => ((c.remove d p).1, (c.remove d p).2.1, .outcome (c.remove d p).2.2)

/-- Memory holds nothing but what a load would find on disk. -/
structure Current (c : SnapshotCache) (used : Path → Prop) (d : Disk) : Prop where
  distinct : c.loaded.Distinct
  memory : ∀ p e, used p → c.loaded.Has p e → c.store.load d p = some e

variable {c : SnapshotCache} {used : Path → Prop} {d d' : Disk} {p : Path} {e : CachedSnapshot}

theorem current_new (s : CacheStore) (capacity : Nat) (used : Path → Prop) (d : Disk) :
    Current ⟨s, { capacity := capacity, maxScore := Lru.defaultMaxScore }⟩ used d where
  distinct := .nil
  memory := by
    rintro p e - ⟨k, hm, -⟩
    cases hm

theorem Current.world (h : c.Current used d) (hd : c.store.SameSlots used d d') :
    c.Current used d' := by
  refine ⟨h.distinct, fun p e hp he => ?_⟩
  obtain ⟨htext, hentry⟩ := hd p hp
  refine CacheStore.load_mono (fun bytes hb => ?_) (fun bytes hb => ?_) (h.memory p e hp he)
  · rw [htext, hb]
  · rw [hentry, hb]

theorem Current.peek?_eq (h : c.Current used d) (hp : used p) : c.peek? d p = c.store.load d p := by
  rw [SnapshotCache.peek?_eq]
  cases ht : (c.loaded.take p).2 with
  | none => rfl
  | some e => exact (h.memory p e hp ((Lru.take_iff h.distinct).mp ht)).symm

/-- Without the entry of a path, memory is as good after a change to that path alone. -/
theorem Current.invalidate (h : c.Current used d) (p : Path)
    (hkept : ∀ q (e : CachedSnapshot), used q → p.same q = false →
      c.store.load d q = some e → c.store.load d' q = some e) : (c.invalidate p).Current used d' := by
  refine ⟨h.distinct.take p, fun q e hq he => ?_⟩
  obtain ⟨he, hne⟩ := (Lru.has_take h.distinct p).mp he
  refine hkept q e hq (Bool.eq_false_iff.mpr fun hs => hne ?_) (h.memory q e hq he)
  exact Path.compare_eq_iff.mpr hs

theorem Current.tryLoad (h : c.Current used d) (hu : CacheStore.Separate used) (hp : used p) :
    (c.tryLoad d p).1.Current used d ∧ (c.tryLoad d p).1.store = c.store ∧
      (c.tryLoad d p).2 = c.store.load d p := by
  obtain ⟨loaded, hc, hdistinct, hreply, hhas⟩ := tryLoad_spec h.distinct d p
  rw [hc, hreply, h.peek?_eq hp]
  refine ⟨⟨hdistinct, fun q e hq he => ?_⟩, rfl, rfl⟩
  rcases hhas q e he with hold | ⟨hs, hloaded⟩
  · exact h.memory q e hq hold
  · obtain rfl := hu.eq_of_same hp hq hs
    exact (h.peek?_eq hp).symm.trans hloaded

theorem Current.takeOrLoad (h : c.Current used d) (hp : used p) :
    (c.takeOrLoad d p).1.Current used d ∧ (c.takeOrLoad d p).1.store = c.store ∧
      (c.takeOrLoad d p).2 = c.store.load d p := by
  rw [takeOrLoad_fst]
  exact ⟨h.invalidate p fun _ _ _ _ hl => hl, rfl, h.peek?_eq hp⟩

theorem Current.remove (h : c.Current used d) (hu : CacheStore.Separate used) (hp : used p) :
    (c.invalidate p).Current used (c.store.remove d p).1 :=
  h.invalidate p fun _ _ hq hne hl =>
    (CacheStore.sameFiles_remove (hu.slotName_ne hp hq hne)).sameAnswers.load.trans hl

/-- A save that succeeds replaces the entry in memory, and one that fails at any step drops it. -/
theorem Current.save (h : c.Current used d) (hu : CacheStore.Separate used) (hp : used p)
    (hfits : Envelope.Fits c.store.format ((c.store.envelope p e).encode c.store.format)) :
    (c.save d p e).1.Current used (c.save d p e).2.1 ∧ (c.save d p e).1.store = c.store ∧
      (c.save d p e).2 = c.store.save d p e := by
  have hkept : ∀ q (e' : CachedSnapshot), used q → p.same q = false →
      c.store.load d q = some e' → c.store.load (c.store.save d p e).1 q = some e' :=
    fun _ _ hq hne => (CacheStore.keepsAnswers_save e (hu.slotName_ne hp hq hne)).load _
  unfold SnapshotCache.save
  split
  next d' hs =>
    rw [hs] at hkept ⊢
    obtain ⟨hdistinct, hhas, hrest⟩ := h.distinct.insert p e
    refine ⟨⟨hdistinct, fun q e' hq he => ?_⟩, rfl, rfl⟩
    by_cases hsame : p.same q = true
    · -- No path is held twice, so what is held for this one is what was saved.
      obtain rfl := hu.eq_of_same hp hq hsame
      rw [hdistinct.unique he hhas]
      exact CacheStore.load_own_save hfits hs
    · rcases hrest q e' he with ⟨hqp, -⟩ | he
      · rw [Path.same_comm] at hsame
        exact absurd (Path.compare_eq_iff.mp hqp) hsame
      · exact hkept q e' hq (Bool.eq_false_iff.mpr hsame) (h.memory q e' hq he)
  next d' cause hs =>
    rw [hs] at hkept ⊢
    exact ⟨h.invalidate p hkept, rfl, rfl⟩

/-- A request is answered as the store alone would answer it, and memory stays as good as the disk. -/
theorem Current.serve (h : c.Current used d) (hu : CacheStore.Separate used) {r : CacheRequest}
    (hr : r.Admissible c.store used) :
    (c.serve d r).1.Current used (c.serve d r).2.1 ∧ (c.serve d r).1.store = c.store ∧
      (c.serve d r).2 = c.store.serve d r := by
  cases r with
  | tryLoad p =>
    obtain ⟨hc, hs, he⟩ := h.tryLoad hu hr
    rw [SnapshotCache.serve, CacheStore.serve, he]
    exact ⟨hc, hs, rfl⟩
  | takeOrLoad p =>
    obtain ⟨hc, hs, he⟩ := h.takeOrLoad hr
    rw [SnapshotCache.serve, CacheStore.serve, he]
    exact ⟨hc, hs, rfl⟩
  | save p e =>
    obtain ⟨hp, hfits⟩ := hr
    obtain ⟨hc, hs, ho⟩ := h.save hu hp hfits
    rw [SnapshotCache.serve, CacheStore.serve, ← ho]
    dsimp only
    exact ⟨hc, hs, rfl⟩
  | invalidate p =>
    rw [SnapshotCache.serve, CacheStore.serve]
    exact ⟨h.invalidate p fun _ _ _ _ hl => hl, rfl, rfl⟩
  | remove p =>
    rw [SnapshotCache.serve, CacheStore.serve, SnapshotCache.remove]
    dsimp only
    exact ⟨h.remove hu hr, rfl, rfl⟩

/-- What a cache and a disk come to. Between requests the disk may change in every way that leaves the
slots in use as they are; files may become impossible to replace or remove, so that the next save or
removal stops at any of its steps. -/
inductive Reaches (used : Path → Prop) (start : SnapshotCache) : SnapshotCache → Disk → Prop
  | start (d : Disk) : Reaches used start start d
  | serve {c : SnapshotCache} {d : Disk} (h : Reaches used start c d) {r : CacheRequest}
      (hr : r.Admissible start.store used) :
      Reaches used start (c.serve d r).1 (c.serve d r).2.1
  | world {c : SnapshotCache} {d d' : Disk} (h : Reaches used start c d)
      (hd : start.store.SameSlots used d d') : Reaches used start c d'

theorem Reaches.current {start : SnapshotCache} (h : Reaches used start c d)
    (hu : CacheStore.Separate used) (hstart : ∀ d, start.Current used d) :
    c.Current used d ∧ c.store = start.store := by
  induction h with
  | start d => exact ⟨hstart d, rfl⟩
  | serve _ hr ih =>
    obtain ⟨hc, hs⟩ := ih
    obtain ⟨hc', hs', -⟩ := hc.serve hu (hs ▸ hr)
    exact ⟨hc', hs'.trans hs⟩
  | world _ hd ih =>
    obtain ⟨hc, hs⟩ := ih
    exact ⟨hc.world (hs ▸ hd), hs⟩

/-- At any time the disk may come to refuse any step of a save or a removal. -/
theorem Reaches.refuse {start : SnapshotCache} (h : Reaches used start c d)
    {step : CacheStore.SlotStep} (hstep : (start.store.written? step).isSome = true ∨
      (CacheStore.readSlot d (start.store.target step)).isSome = true) :
    ∃ d', Reaches used start c d' ∧ ∃ cause, start.store.attempt d' step = .error cause :=
  ⟨_, .world h (start.store.sameSlots_freeze used d _), CacheStore.attempt_freeze hstep⟩

/-- However the cache came to its state, it answers every request as the store alone would do. -/
theorem serve_transparent (s : CacheStore) {capacity : Nat} (hcap : 1 ≤ capacity)
    (hu : CacheStore.Separate used) :
    ∃ start, new? s capacity = .ok start ∧ ∀ c d, Reaches used start c d →
      ∀ r, r.Admissible s used → (c.serve d r).2 = s.serve d r := by
  let start : SnapshotCache :=
    ⟨s, { capacity := capacity, maxScore := Lru.defaultMaxScore }⟩
  have hnew : new? s capacity = .ok start := by
    rw [new?, Lru.new?, if_neg (Nat.ne_of_gt hcap)]
    rfl
  refine ⟨start, hnew, fun c d h r hr => ?_⟩
  obtain ⟨hc, hs⟩ := h.current hu (current_new s capacity used)
  obtain rfl : s = c.store := hs.symm
  exact (hc.serve hu hr).2.2

/-- A second save stops between its steps, which leaves a text without an envelope of its own. -/
theorem serve_transparent_half_saved :
    let s : CacheStore := ⟨⟨"cache"⟩, .binary, snapshotSchema⟩
    let p : Path := ⟨"/w/a.h"⟩
    let entry (text : String) : CachedSnapshot := ⟨1, text, { path := p, modified := 1 }⟩
    ∃ start c d, new? s 1 = .ok start ∧ Reaches (· = p) start c d ∧
      (c.serve d (.tryLoad p)).2 = (d, .entry (some (entry "int a;"))) ∧
      let out := c.serve d (.save p (entry "int b;"))
      (out.1.serve out.2.1 (.tryLoad p)).2 = (out.2.1, .entry none) ∧
        s.loadText out.2.1 p = some "int b;" := by
  intro s p entry
  have hu : CacheStore.Separate (· = p) :=
    ⟨by rintro _ rfl; decide +kernel, fun q r hq hr _ => hq.trans hr.symm⟩
  have hfits : ∀ text ∈ ["int a;", "int b;"],
      (CacheRequest.save p (entry text)).Admissible s (· = p) := by
    have hle : ∀ text ∈ ["int a;", "int b;"],
        ((s.envelope p (entry text)).encode s.format).length ≤ Binary.limit := by decide +kernel
    exact fun text ht => ⟨rfl, fun _ => hle text ht⟩
  obtain ⟨start, hnew, h⟩ := serve_transparent s (by decide : 1 ≤ 1) hu
  have hstart : start = ⟨s, { capacity := 1, maxScore := Lru.defaultMaxScore }⟩ :=
    (Except.ok.inj hnew).symm
  have hstore : start.store = s := by rw [hstart]
  have hfirst := hstore ▸ hfits "int a;" (by simp)
  have hsecond := hstore ▸ hfits "int b;" (by simp)
  obtain ⟨c, hc⟩ : ∃ c, c = (start.serve {} (.save p (entry "int a;"))).1 := ⟨_, rfl⟩
  obtain ⟨d, hd⟩ : ∃ d, d = (start.serve {} (.save p (entry "int a;"))).2.1.freeze
    (Disk.placeOf (Disk.absolute {} (s.entryPath p))) := ⟨_, rfl⟩
  have hfrozen : Reaches (· = p) start c d := by
    rw [hc, hd]
    exact .world (.serve (.start {}) hfirst) (start.store.sameSlots_freeze _ _ _)
  have hloads : s.load d p = some (entry "int a;") ∧
      s.load (c.serve d (.save p (entry "int b;"))).2.1 p = (none : Option CachedSnapshot) ∧
      s.loadText (c.serve d (.save p (entry "int b;"))).2.1 p = some "int b;" := by
    rw [hc, hd, hstart]
    decide +kernel
  obtain ⟨hbefore, hafter, htext⟩ := hloads
  refine ⟨start, c, d, hnew, hfrozen, (h c d hfrozen (.tryLoad p) rfl).trans ?_,
    (h _ _ (hfrozen.serve hsecond) (.tryLoad p) rfl).trans ?_, htext⟩
  · rw [CacheStore.serve, hbefore]
  · rw [CacheStore.serve, hafter]

end SnapshotCache

end SymbolIndex
