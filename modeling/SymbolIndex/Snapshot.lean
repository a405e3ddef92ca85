import SymbolIndex.Symbol.Info
import SymbolIndex.Symbol.PerCategory
import SymbolIndex.Path

/-! What one file contributes to the index, by symbol id. -/

namespace SymbolIndex

structure Snapshot where
  path : Path
  modified : Timestamp
  args : List String := []
  /-- Direct includes, with the modification time seen for each. -/
  dependencies : OrderedMap Path (Option Timestamp) := ∅
  symbols : PerCategory (OrderedMap SymbolId SymbolView) := .same ∅
  deriving DecidableEq, Inhabited

namespace Snapshot

/-- What the snapshot holds for an id in a category. -/
def find? (s : Snapshot) (c : Category) (id : SymbolId) : Option SymbolView :=
  (s.symbols.get c).find? id

/-- Change what the snapshot holds for an id, starting from the empty view. -/
def update (s : Snapshot) (c : Category) (id : SymbolId) (f : SymbolView → SymbolView) : Snapshot :=
  { s with symbols := s.symbols.modify c fun m => m.alter id fun v => some (f (v.getD .empty)) }

/-- The first category that holds the id. -/
def categoryOf? (s : Snapshot) (id : SymbolId) : Option Category :=
  Category.all.find? fun c => (s.symbols.get c).contains id

/-- Every symbol of the snapshot, by category and id. -/
def entries (s : Snapshot) : List (Category × SymbolId × SymbolView) :=
  Category.all.flatMap fun c => (s.symbols.get c).entries.map (c, ·)

def symbolCount (s : Snapshot) : Nat :=
  s.symbols.types.size + s.symbols.funcs.size + s.symbols.vars.size

end Snapshot

end SymbolIndex
