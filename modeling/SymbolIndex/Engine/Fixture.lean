import SymbolIndex.Engine

/-! An engine that answers from memory, with records, failures and crashes set ahead of time. -/

namespace SymbolIndex

structure FixtureEngine where
  records : OrderedMap Path (List Record) := ∅
  failures : OrderedMap Path String := ∅
  crashes : OrderedMap Path String := ∅
  /-- Calls that were answered, crashes apart. -/
  calls : Nat := 0
  deriving DecidableEq, Inhabited

namespace FixtureEngine

/-- Answer a path with records from now on. -/
def setRecords (e : FixtureEngine) (p : Path) (records : List Record) : FixtureEngine :=
  { e with
    records := e.records.insert p records
    failures := e.failures.erase p
    crashes := e.crashes.erase p }

def fail (e : FixtureEngine) (p : Path) (message : String) : FixtureEngine :=
  { e with failures := e.failures.insert p message }

def crash (e : FixtureEngine) (p : Path) (message : String) : FixtureEngine :=
  { e with crashes := e.crashes.insert p message }

def answer (e : FixtureEngine) (p : Path) : Extraction :=
  match e.failures.find? p, e.records.find? p with
  | some message, _ => .failed message
  | none, some records => .records records
  | none, none => .failed s!"no fixture for {p.text}"

def extract (e : FixtureEngine) (p : Path) : FixtureEngine × Extraction :=
  match e.crashes.find? p with
  | some message => (e, .crashed message)
  | none => ({ e with calls := e.calls + 1 }, e.answer p)

end FixtureEngine

instance : Engine FixtureEngine := ⟨fun e _ p _ _ => e.extract p⟩

end SymbolIndex
