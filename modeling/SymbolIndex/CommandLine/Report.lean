import SymbolIndex.Workspace

/-! What the commands print. -/

namespace SymbolIndex.CommandLine

/-- A line of output. How long a run took is known only to what runs it. -/
inductive Line
  | text (line : String)
  | duration
  deriving DecidableEq, Inhabited

namespace Line

/-- A value with two decimals in a unit of so many nanoseconds; a half goes up. -/
def decimals (nanoseconds unit : Nat) : String :=
  let hundredths := (nanoseconds * 100 + unit / 2) / unit
  s!"{hundredths / 100}." ++ .ofList (Nat.toDigits 10 (hundredths % 100 + 100)).tail

def durationText (nanoseconds : Nat) : String :=
  if 1000000000 ≤ nanoseconds then decimals nanoseconds 1000000000 ++ "s"
  else if 1000000 ≤ nanoseconds then decimals nanoseconds 1000000 ++ "ms"
  else if 1000 ≤ nanoseconds then decimals nanoseconds 1000 ++ "µs"
  else decimals nanoseconds 1 ++ "ns"

/-- The line of a run that took so many nanoseconds. -/
def render (nanoseconds : Nat) : Line → String
  | .text line => line
  | .duration => "Duration: " ++ durationText nanoseconds

end Line

namespace Report

/-- How many failures of files are shown. -/
def maxErrors : Nat := 5

def errorLine (e : FileError) : String := "  • " ++ e.text

def errors (es : List FileError) : List String :=
  if es = [] then []
  else ["", s!"Errors ({es.length}):"] ++ (es.take maxErrors).map errorLine ++
    if maxErrors < es.length then [s!"  ... and {es.length - maxErrors} more"] else []

def indexing (root : Path) (force : Bool) : List String :=
  s!"Indexing {root.text}..." :: if force then ["Re-extracting every file"] else []

def indexed (s : DatabaseStats) : String :=
  s!"Indexed {s.files} files: {s.types} types, {s.funcs} functions, " ++
    s!"{s.vars} variables, {s.uses} uses"

def index (s : DatabaseStats) (c : Counters) : List Line :=
  [.text "", .text (indexed s), .duration] ++ List.map Line.text (
    (if 0 < c.fromCache then [s!"From cache: {c.fromCache} files (unchanged since last index)"]
      else []) ++
    (if 0 < c.filtered then [s!"Skipped: {c.filtered} files (blacklisted)"] else []) ++
    errors c.errors)

def stats (s : DatabaseStats) (c : Counters) : List String := [
  "Nereid Index Statistics", "",
  s!"  Files: {s.files}", s!"  Types: {s.types}", s!"  Functions: {s.funcs}",
  s!"  Variables: {s.vars}", s!"  Uses: {s.uses}", s!"  Include edges: {s.includeEdges}", "",
  s!"  Jobs: {c.applied} applied, {c.fromCache} from cache, " ++
    s!"{c.failed} failed, {c.coalesced} coalesced"] ++ errors c.errors

/-- Fill a text up with blanks on the left. -/
def alignRight (width : Nat) (text : String) : String :=
  .ofList (List.replicate (width - text.length) ' ') ++ text

def outlineLine (i : OutlineItem) : String :=
  let line := alignRight 4 s!"{i.span.startLine}"
  let kind := if i.isDefinition then "  def" else " decl"
  s!"  {line} {kind} {i.category.name} {i.name}"

def symbolLine (w : Workspace) (s : SymbolSummary) : String :=
  let place := (s.definition.map w.locationText).getD ""
  s!"  {s.category.name} {s.name} {place}"

/-- The symbols of a file that was named as `file` and whose canonical path is `path`. -/
def symbols (w : Workspace) (db : Database) (file path : Path) (outline : Bool) : List String :=
  if (db.snapshot? path).isNone then [s!"Note: {file.text} is not indexed"]
  else if outline then (db.outline path).map outlineLine
  else
    let found := db.symbolsIn path
    s!"{file.text} ({found.length}):" :: found.map (symbolLine w)

def useLine (w : Workspace) (u : UseSite) : String :=
  let place := w.locationText ⟨u.path, u.use.span⟩
  s!"  • {place} {u.use.role.text}"

/-- The uses of a symbol, shown by its name if it is known. -/
def uses (w : Workspace) (db : Database) (signature : String) (role : Option Role) : List String :=
  let id := SymbolId.ofSignature signature
  let found := match role with
    | some role => db.usesWithRole id role
    | none => db.usesOf id
  let name := ((db.definition? id).map (·.name)).getD signature
  s!"{name} ({found.length} uses):" :: found.map (useLine w)

def definition (w : Workspace) (db : Database) (signature : String) : List String :=
  let id := SymbolId.ofSignature signature
  let first := match db.definitionOf? id with
    | some place => s!"Defined at {w.locationText place}"
    | none => s!"Note: no definition indexed for {signature}"
  let declared := (db.declarationsOf id).map fun place => s!"  • {w.locationText place}"
  first :: if declared = [] then [] else "Declared at:" :: declared

def failure (e : Error) : List String :=
  ("error: " ++ e.message) :: (e.cause?.map ("  caused by: " ++ ·)).toList

end Report

end SymbolIndex.CommandLine
