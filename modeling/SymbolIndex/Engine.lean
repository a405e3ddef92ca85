import SymbolIndex.Record
import SymbolIndex.Disk

/-! Extraction engines: what turns a file into records. An engine is a state that answers calls; it
sees the disk and the contents of unsaved editor buffers. -/

namespace SymbolIndex

/-- Editor contents of files that differ from what is on disk. -/
abbrev Buffers := OrderedMap Path String

inductive Extraction
  | records (records : List Record)
  | failed (message : String)
  /-- The engine broke down in the middle of its work. -/
  | crashed (message : String)
  deriving DecidableEq, Inhabited

class Engine (σ : Type) where
  extract : σ → Disk → Path → (args : List String) → (unsaved : Buffers) → σ × Extraction

end SymbolIndex
