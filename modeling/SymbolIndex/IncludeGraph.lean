import SymbolIndex.Path
import SymbolIndex.Ordered.Set

/-! Which file includes which. The graph holds a node for every path it met at either end of an
edge, under the spelling it met first. -/

namespace SymbolIndex

structure IncludeGraph where
  /-- The direct includes of every node. -/
  targets : OrderedMap Path (OrderedSet Path) := ∅
  deriving DecidableEq, Inhabited

namespace IncludeGraph

def empty : IncludeGraph := {}

/-- The spelling under which the graph holds a path. -/
def node? (g : IncludeGraph) (p : Path) : Option Path :=
  (g.targets.entries.find? fun e => e.1.same p).map (·.1)

def addNode (g : IncludeGraph) (p : Path) : IncludeGraph := ⟨g.targets.insertNew p ∅⟩

def hasEdge (g : IncludeGraph) (file target : Path) : Bool :=
  ((g.targets.find? file).getD ∅).contains target

def addEdge (g : IncludeGraph) (file target : Path) : IncludeGraph :=
  let g := g.addNode target
  let target := (g.node? target).getD target
  ⟨g.targets.alter file fun held => some ((held.getD ∅).insert target)⟩

/-- Replace the direct includes of a file. -/
def setIncludes (g : IncludeGraph) (file : Path) (includes : List Path) : IncludeGraph :=
  includes.foldl (fun g target => g.addEdge file target) ⟨(g.addNode file).targets.insert file ∅⟩

/-- The direct includes of a path, ascending. -/
def includesOf (g : IncludeGraph) (p : Path) : List Path := ((g.targets.find? p).getD ∅).toList

/-- The nodes that include a path directly, ascending. -/
def includersOf (g : IncludeGraph) (p : Path) : List Path :=
  (g.targets.entries.filter fun e => e.2.contains p).map (·.1)

/-- Drop a node at which no edge starts or ends. -/
def prune (g : IncludeGraph) (p : Path) : IncludeGraph :=
  if (g.includesOf p).isEmpty && (g.includersOf p).isEmpty then ⟨g.targets.erase p⟩ else g

/-- Forget the includes of a file. Its node stays while other files include it. -/
def remove (g : IncludeGraph) (file : Path) : IncludeGraph :=
  if g.targets.contains file then
    (file :: g.includesOf file).foldl prune ⟨g.targets.insert file ∅⟩
  else g

/-- Walk edges backwards from the queue; `seen` collects what was reached. -/
def walkBack (g : IncludeGraph) : (fuel : Nat) → (queue : List Path) → (seen : OrderedSet Path) →
    OrderedSet Path
  | 0, _, seen => seen
  | _, [], seen => seen
  | fuel + 1, p :: queue, seen =>
    let fresh := (g.includersOf p).filter fun q => !seen.contains q
    walkBack g fuel (queue ++ fresh) (seen.insertAll fresh)

/-- Every file other than `p` that includes `p`, directly or through others, ascending. -/
def dependents (g : IncludeGraph) (p : Path) : List Path :=
  ((walkBack g (g.targets.size + 1) [p] (.ofList [p])).erase p).toList

def edgeCount (g : IncludeGraph) : Nat := (g.targets.values.flatMap OrderedSet.toList).length

end IncludeGraph

end SymbolIndex
