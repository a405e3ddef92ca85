import SymbolIndex.Cache.Format
import SymbolIndex.PathFilter

/-! What can go wrong: errors that stop an operation, and failures confined to one file, which are
collected while the others go on. -/

namespace SymbolIndex

inductive Error
  | io (detail : String)
  | cache (cause : CacheError)
  | config (detail : String)
  | engine (detail : String)
  | internal (detail : String)
  deriving DecidableEq, Inhabited

namespace Error

def message : Error → String
  | .io detail => s!"I/O error: {detail}"
  | .cache cause => s!"cache error: {cause.message}"
  | .config detail => s!"configuration error: {detail}"
  | .engine detail => s!"engine error: {detail}"
  | .internal detail => s!"internal error: {detail}"

/-- The text of the error behind this one, if there is one. -/
def cause? : Error → Option String
  | .io detail => some detail
  | .cache cause => some cause.message
  | .engine detail => some detail
  | .config _ | .internal _ => none

def ofDisk (e : DiskError) : Error := .io e.message

def ofGlob (e : BadGlob) : Error := .config e.message

end Error

inductive FileErrorKind
  | engineFailed
  | vanished
  | cacheWrite
  | internal
  deriving DecidableEq, Inhabited

namespace FileErrorKind

def name : FileErrorKind → String
  | .engineFailed => "engine failed"
  | .vanished => "file vanished"
  | .cacheWrite => "cache write failed"
  | .internal => "internal error"

/-- The project is to blame: mending the source or the build mends it. -/
def isInputError (k : FileErrorKind) : Bool := k = .engineFailed || k = .vanished

/-- The cache or the pipeline is to blame. -/
def isInternalError (k : FileErrorKind) : Bool := k = .cacheWrite || k = .internal

end FileErrorKind

/-- A failure confined to one file. -/
structure FileError where
  path : Path
  kind : FileErrorKind
  message : String
  deriving DecidableEq, Inhabited

namespace FileError

def text (e : FileError) : String := s!"{e.path.text}: {e.message} ({e.kind.name})"

def engineFailed (p : Path) (message : String) : FileError := ⟨p, .engineFailed, message⟩

def vanished (p : Path) : FileError := ⟨p, .vanished, "file no longer exists"⟩

def cacheWrite (p : Path) (cause : CacheError) : FileError := ⟨p, .cacheWrite, cause.message⟩

def internal (p : Path) (message : String) : FileError := ⟨p, .internal, message⟩

end FileError

end SymbolIndex
