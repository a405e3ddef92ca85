import SymbolIndex.Cache.Snapshots
import SymbolIndex.Proofs.Disk

/-! What the cache does to the disk. -/

namespace SymbolIndex

namespace CacheStore

variable {α : Type} [Payload α]

theorem cwd_save (s : CacheStore) (d : Disk) (source : Path) (e : CacheEntry α) :
    (s.save d source e).1.cwd = d.cwd := by
  unfold save
  split
  next => rfl
  next d₁ ht =>
    unfold saveText at ht
    have h₁ : d₁.cwd = d.cwd := Disk.cwd_replace ht
    split
    next => exact h₁
    next d₂ he =>
      unfold saveEnvelope at he
      exact (Disk.cwd_replace he).trans h₁

theorem cwd_removeFile {d d' : Disk} {p : Path} (h : removeFile d p = .ok d') :
    d'.cwd = d.cwd := by
  unfold removeFile at h
  split at h
  next => cases h; rfl
  next => exact Disk.cwd_remove h

omit [Payload α] in
theorem cwd_remove (s : CacheStore) (d : Disk) (source : Path) :
    (s.remove d source).1.cwd = d.cwd := by
  unfold remove
  split
  next => rfl
  next d₁ he =>
    have h₁ := cwd_removeFile he
    split
    next => exact h₁
    next d₂ ht => exact (cwd_removeFile ht).trans h₁

end CacheStore

namespace SnapshotCache

/-- In memory or not, a save does to the disk what the store does. -/
theorem save_frame (c : SnapshotCache) (d : Disk) (p : Path) (e : CachedSnapshot) :
    (c.save d p e).1.store = c.store ∧ (c.save d p e).2.1 = (c.store.save d p e).1 := by
  unfold save
  split
  next hs => exact ⟨rfl, by rw [hs]⟩
  next hs => exact ⟨rfl, by rw [hs]⟩

theorem cwd_save (c : SnapshotCache) (d : Disk) (p : Path) (e : CachedSnapshot) :
    (c.save d p e).2.1.cwd = d.cwd := by
  rw [(c.save_frame d p e).2]
  exact c.store.cwd_save d p e

theorem cwd_remove (c : SnapshotCache) (d : Disk) (p : Path) :
    (c.remove d p).2.1.cwd = d.cwd := by
  have h := c.store.cwd_remove d p
  unfold remove
  dsimp only
  exact h

end SnapshotCache

end SymbolIndex
