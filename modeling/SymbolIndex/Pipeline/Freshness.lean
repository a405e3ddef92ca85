import SymbolIndex.Cache.Snapshots

/-! Whether what the cache holds for a file still describes it. Only the entry itself is trusted: the
time it records for the file, and the time each direct include had when it was extracted. -/

namespace SymbolIndex

inductive Freshness
  /-- The entry can be replayed. -/
  | fresh (entry : CachedSnapshot)
  /-- The engine has to run. -/
  | changed
  /-- The file is gone, and no editor holds it. -/
  | vanished
  deriving DecidableEq

namespace Freshness

def sourceExtensions : List String := [".h", ".c", ".cc", ".cpp", ".hpp", ".m", ".mm"]

def isSourceFile (arg : String) : Bool :=
  sourceExtensions.any fun e => e.toList.isSuffixOf arg.toList

/-- Whether two argument lists are the same up to the names of source files. -/
def sameArgs (previous current : List String) : Bool :=
  previous.length = current.length &&
    (previous.zip current).all fun e => e.1 = e.2 || (isSourceFile e.1 && isSourceFile e.2)

/-- Whether a file still has the time that was recorded for it. -/
def unchanged (d : Disk) (p : Path) (recorded : Option Timestamp) : Bool :=
  (d.modified? p).isSome && d.modified? p = recorded

/-- Whether an entry describes the file and its direct includes as they are on disk. -/
def describes (d : Disk) (p : Path) (args : List String) (e : CachedSnapshot) : Bool :=
  unchanged d p (some e.modified) && sameArgs e.payload.args args &&
    e.payload.dependencies.entries.all fun dep => unchanged d dep.1 dep.2

/-- What to do about a file, given its arguments, its cache entry and whether an editor holds it. -/
def check (d : Disk) (p : Path) (args : List String) (interactive : Bool)
    (cached : Option CachedSnapshot) (inEditor : Bool) : Freshness :=
  if inEditor then .changed
  else if (d.modified? p).isNone then .vanished
  else match cached with
    | some e => if !interactive && describes d p args e then .fresh e else .changed
    | none => .changed

end Freshness

end SymbolIndex
