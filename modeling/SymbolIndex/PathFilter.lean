import SymbolIndex.Glob
import SymbolIndex.Path

/-! Which paths may be indexed. A path on the whitelist always may; any other may unless it is on the
blacklist. -/

namespace SymbolIndex

structure PathFilter where
  whitelist : List Glob := []
  blacklist : List Glob := []
  deriving Inhabited

/-- A glob of a list cannot be read. -/
structure BadGlob where
  text : String
  cause : GlobError
  deriving DecidableEq, Inhabited

def BadGlob.message (e : BadGlob) : String :=
  s!"invalid glob '{e.text}': error parsing glob '{e.text}': {e.cause.message}"

namespace PathFilter

def readGlobs (texts : List String) : Except BadGlob (List Glob) :=
  texts.mapM fun text => (Glob.parse text).mapError (⟨text, ·⟩)

/-- The whitelist is read first. -/
def ofGlobs (whitelist blacklist : List String) : Except BadGlob PathFilter := do
  return { whitelist := ← readGlobs whitelist, blacklist := ← readGlobs blacklist }

/-- The first glob of the blacklist that keeps a path out, if one does. -/
def rejection? (f : PathFilter) (p : Path) : Option String :=
  let path := Bytes.ofText p.text
  if f.whitelist.any (·.matchesBytes path) then none
  else (f.blacklist.find? (·.matchesBytes path)).map (·.text)

def allows (f : PathFilter) (p : Path) : Bool := (f.rejection? p).isNone

end PathFilter

end SymbolIndex
