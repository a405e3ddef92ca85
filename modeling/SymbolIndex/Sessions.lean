import SymbolIndex.Lru
import SymbolIndex.Path

/-! A bounded store of values that are costly to make, one per file. -/

namespace SymbolIndex

abbrev Sessions (σ : Type) := Lru Path σ

namespace Sessions

variable {σ ε : Type}

/-- The session for a path, made on a miss. A failure to make one is not kept. -/
def getOrCreate (c : Sessions σ) (p : Path) (create : Except ε σ) : Sessions σ × Except ε σ :=
  match c.get p with
  | (c, some session) => (c, .ok session)
  | (c, none) =>
    match create with
    | .error e => (c, .error e)
    | .ok session => ((c.insert p session).1, .ok session)

end Sessions

end SymbolIndex
