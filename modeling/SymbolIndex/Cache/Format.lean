import SymbolIndex.Disk

/-! The two forms of a cache file, and what can go wrong with the cache. -/

namespace SymbolIndex

inductive CacheError
  | disk (cause : DiskError)
  | json (detail : String)
  | binary (detail : String)
  | invalidEntry (detail : String)
  deriving DecidableEq, Inhabited

def CacheError.message : CacheError → String
  | .disk cause => s!"IO error: {cause.message}"
  | .json detail => s!"JSON error: {detail}"
  | .binary detail => s!"binary codec error: {detail}"
  | .invalidEntry detail => s!"Invalid cache entry: {detail}"

inductive CacheFormat
  | json
  | binary
  deriving DecidableEq, Inhabited

namespace CacheFormat

def name : CacheFormat → String
  | .json => "json"
  | .binary => "binary"

def fileExtension : CacheFormat → String
  | .json => "json"
  | .binary => "bin"

/-- The format of a name, in any mixture of ASCII cases. -/
def ofName (name : String) : Except CacheError CacheFormat :=
  let lower := name.map Char.toLower
  if lower = "json" then .ok .json
  else if lower = "binary" ∨ lower = "bin" then .ok .binary
  else .error (.invalidEntry s!"unknown cache format '{lower}' (expected 'json' or 'binary')")

end CacheFormat

end SymbolIndex
