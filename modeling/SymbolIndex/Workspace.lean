import SymbolIndex.Engine.Dump
import SymbolIndex.Pipeline

/-! Where a project keeps what an index is made from, and the pipeline that results from it. -/

namespace SymbolIndex

structure Workspace where
  root : Path
  compileCommands : Path
  /-- The directory of extraction dumps. -/
  dumps : Path
  deriving DecidableEq, Inhabited

namespace Workspace

/-- What is not given is looked for below the root. -/
def new (cwd root : Path) (compileCommands dumps : Option Path) : Workspace :=
  let root := root.normalize (some cwd)
  { root
    compileCommands := compileCommands.getD (root.join ⟨"compile_commands.json"⟩)
    dumps := dumps.getD ((root.join ⟨Config.directoryName⟩).join ⟨"dumps"⟩) }

/-- The spelling of a location in a report: relative to the root where it is below it. -/
def locationText (w : Workspace) (l : Location) : String :=
  let path := (w.root.below? l.path).getD l.path
  s!"{path.text}:{l.span.startLine}:{l.span.startColumn}"

/-- Ask for every project file: the unchanged ones come from the cache, unless all are forced. -/
def request (p : Pipeline DumpEngine) (force : Bool) : Pipeline DumpEngine :=
  if force then (p.enqueueAll p.project.files true fun _ => true).1 else p.indexProject.1

/-- An idle pipeline whose database is up to date with every project file. -/
def load (w : Workspace) (d : Disk) (env : String → Option String) (force : Bool) :
    Except Error (Pipeline DumpEngine) := do
  let config ← Config.forProject d env w.root
  let project ← Project.load d w.compileCommands
  let p ← Pipeline.new d (DumpEngine.new w.dumps) config w.root project
  return (request p force).settle

/-- The files that dumps and cache entries of a project file name as includes. -/
def includesNamed (d : Disk) (store : CacheStore) (engine : DumpEngine) (p : Path) : List Path :=
  let cached : Option CachedSnapshot := store.load d p
  let dumped := (DumpEngine.readDump d (engine.dumpPath p)).toOption
  let snapshots := (cached.map (·.payload)).toList ++ ((dumped.map (·.records)).getD []).map
    fun r => (r.remap (some d.cwd) fun _ => none).1
  snapshots.flatMap (·.dependencies.keys)

/-- The files whose times a run may ask for, given a disk with compile commands, dumps and cache. -/
def sources (w : Workspace) (d : Disk) (env : String → Option String) : List Path :=
  match Config.forProject d env w.root, Project.load d w.compileCommands with
  | .ok config, .ok project =>
    let store : CacheStore := ⟨config.cacheDirFor w.root, config.cacheFormat, snapshotSchema⟩
    project.files.flatMap fun p => p :: includesNamed d store (.new w.dumps) p
  | _, _ => []

end Workspace

end SymbolIndex
