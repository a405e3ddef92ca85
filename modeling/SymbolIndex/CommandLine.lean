import SymbolIndex.CommandLine.Invocation
import SymbolIndex.CommandLine.Report

/-! Running a command line. A command sees the disk and the environment as values and gives back the
disk as it leaves it. -/

namespace SymbolIndex

/-- What a command line printed, and its exit code. -/
structure CommandResult where
  code : Nat := 0
  out : List CommandLine.Line := []
  err : List String := []
  deriving DecidableEq, Inhabited

namespace CommandLine

def versionText : String := "nereid 0.1.0"

def usage : List String := [
  "Usage: nereid [OPTIONS] <COMMAND>", "",
  "Commands:",
  "  index [--force]           Index every file in the compilation database",
  "  symbols <FILE> [-o]       List symbols declared or defined in a file",
  "  uses <USR> [-r <ROLE>]    Show every use of a symbol",
  "  definition <USR>          Show where a symbol is defined and declared",
  "  stats                     Show database and pipeline statistics", "",
  "Options:",
  "  -w, --workspace <DIR>     Project root",
  "  --compile-commands <FILE> Compilation database",
  "  --dumps <DIR>             Directory of extraction dumps",
  "  -v, --verbose             Log more",
  "  -h, --help                Print help",
  "  -V, --version             Print version"]

def printed (lines : List String) : CommandResult := { out := lines.map .text }

def stopped : Stop → CommandResult
  | .help => printed usage
  | .version => printed [versionText]
  | .misuse e => { code := 2, err := ("error: " ++ e.message) :: "" :: usage.take 1 }

def failed (e : Error) : CommandResult := { code := 1, err := Report.failure e }

/-- Print something about the loaded pipeline, and leave the disk as it left it. -/
def report (w : Workspace) (d : Disk) (env : String → Option String) (force : Bool)
    (lines : Pipeline DumpEngine → List Line) : Disk × CommandResult :=
  match w.load d env force with
  | .ok p => (p.disk, { out := lines p })
  | .error e => (d, failed e)

def roleOf : Option String → Except Error (Option Role)
  | none => .ok none
  | some name =>
    match Role.ofName? name with
    | some role => .ok (some role)
    | none => .error (.config s!"unknown role '{name}'")

def execute (w : Workspace) (d : Disk) (env : String → Option String) :
    Command → Disk × CommandResult
  | .index force =>
    let (after, result) := report w d env force fun p => Report.index p.db.stats p.counters
    (after, { result with out := (Report.indexing w.root force).map .text ++ result.out })
  | .symbols file outline =>
    let path := w.root.normalizeAgainst file
    report w d env false fun p => (Report.symbols w p.db file path outline).map .text
  | .uses signature role =>
    match roleOf role with
    | .error e => (d, failed e)
    | .ok role => report w d env false fun p => (Report.uses w p.db signature role).map .text
  | .definition signature =>
    report w d env false fun p => (Report.definition w p.db signature).map .text
  | .stats => report w d env false fun p => (Report.stats p.db.stats p.counters).map .text

/-- Where a command looks for its project; the working directory unless something else is said. -/
def workspaceOf (cwd : Path) (i : Invocation) : Workspace :=
  .new cwd (i.workspace.getD cwd) i.compileCommands i.dumps

def run (d : Disk) (env : String → Option String) (args : List String) : Disk × CommandResult :=
  match Invocation.read args with
  | .ok i => execute (workspaceOf d.cwd i) d env i.command
  | .error stop => (d, stopped stop)

end CommandLine

end SymbolIndex
