import SymbolIndex.Cache.Store
import SymbolIndex.Lru

/-! Recently used cache entries, kept in memory in front of the store. -/

namespace SymbolIndex

abbrev CachedSnapshot := CacheEntry Snapshot

/-- The version that envelopes of snapshots are written with. -/
def snapshotSchema : SchemaVersion := ⟨1, 0⟩

structure SnapshotCache where
  store : CacheStore
  loaded : Lru Path CachedSnapshot
  deriving DecidableEq

namespace SnapshotCache

def new? (store : CacheStore) (capacity : Nat) : Except LruError SnapshotCache :=
  (Lru.new? capacity Lru.defaultMaxScore).map (⟨store, ·⟩)

/-- Keep an entry unless a copy with the same or a later time is held; the copy that stays. -/
def retainNewer (c : SnapshotCache) (p : Path) (e : CachedSnapshot) :
    SnapshotCache × CachedSnapshot :=
  match c.loaded.get p with
  | (loaded, some held) =>
    if e.modified ≤ held.modified then ({ c with loaded }, held)
    else ({ c with loaded := (loaded.insert p e).1 }, e)
  | (loaded, none) => ({ c with loaded := (loaded.insert p e).1 }, e)

/-- The entry for a path, from memory or else from disk. -/
def tryLoad (c : SnapshotCache) (d : Disk) (p : Path) : SnapshotCache × Option CachedSnapshot :=
  match c.loaded.get p with
  | (loaded, some e) => ({ c with loaded }, some e)
  | (loaded, none) =>
    match c.store.load d p with
    | none => ({ c with loaded }, none)
    | some e =>
      let (c, e) := retainNewer { c with loaded } p e
      (c, some e)

/-- Take the entry out of memory, or else read it from disk without keeping it. -/
def takeOrLoad (c : SnapshotCache) (d : Disk) (p : Path) : SnapshotCache × Option CachedSnapshot :=
  match c.loaded.take p with
  | (loaded, some e) => ({ c with loaded }, some e)
  | (loaded, none) => ({ c with loaded }, c.store.load d p)

def invalidate (c : SnapshotCache) (p : Path) : SnapshotCache :=
  { c with loaded := (c.loaded.take p).1 }

/-- Save an entry and keep it in memory; if that fails, memory forgets the path. -/
def save (c : SnapshotCache) (d : Disk) (p : Path) (e : CachedSnapshot) :
    SnapshotCache × Disk × Except CacheError Unit :=
  match c.store.save d p e with
  | (d, .ok ()) => ({ c with loaded := (c.loaded.insert p e).1 }, d, .ok ())
  | (d, .error cause) => (c.invalidate p, d, .error cause)

/-- Remove a path from memory and from disk. -/
def remove (c : SnapshotCache) (d : Disk) (p : Path) : SnapshotCache × Disk × Except CacheError Unit :=
  (c.invalidate p, c.store.remove d p)

end SnapshotCache

end SymbolIndex
