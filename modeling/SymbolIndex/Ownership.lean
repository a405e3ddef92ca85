import SymbolIndex.Path
import SymbolIndex.Ordered.Set

/-! Which files a running job may produce records for. The job that claims a file first keeps it
until its claims are dropped; others skip the file. -/

namespace SymbolIndex

/-- The files claimed by any job. -/
abbrev Ownership := OrderedSet Path

namespace Ownership

/-- Claim a path, unless it is claimed already. -/
def claim (o : Ownership) (p : Path) : Ownership × Bool :=
  if o.contains p then (o, false) else (o.insert p, true)

def release (o : Ownership) (p : Path) : Ownership := o.erase p

end Ownership

/-- The claims of one job, in the order they were made. -/
structure Claims where
  paths : List Path := []
  deriving DecidableEq, Inhabited

namespace Claims

def holds (c : Claims) (p : Path) : Bool := c.paths.any (·.same p)

/-- Claim a path for this job; true if the job holds it now, also when it did before. -/
def claim (o : Ownership) (c : Claims) (p : Path) : Ownership × Claims × Bool :=
  if c.holds p then (o, c, true)
  else match o.claim p with
    | (o, true) => (o, ⟨c.paths ++ [p]⟩, true)
    | (o, false) => (o, c, false)

/-- Give up everything the job holds. -/
def drop (o : Ownership) (c : Claims) : Ownership := c.paths.foldl Ownership.release o

end Claims

end SymbolIndex
