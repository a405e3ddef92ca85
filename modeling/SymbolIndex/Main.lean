import SymbolIndex.CommandLine

/-! The program. It takes in the files that a command line may need, runs it, and puts back what that
changed. -/

namespace SymbolIndex.Main

def timeOf (t : IO.FS.SystemTime) : Timestamp := .ofInt (t.sec * 1000000000 + t.nsec.toNat)

/-- Take in what a path names, if anything; a file's content only if it is needed. -/
def takeIn (withContent : Bool) (d : Disk) (p : Path) : IO Disk := do
  try
    let place ← IO.FS.realPath p.text
    let info ← place.metadata
    match info.type with
    | .dir => return d.makeDirectory p (timeOf info.modified)
    | .file =>
      let content ← if withContent then IO.FS.readBinFile place else pure .empty
      return d.put p content.data.toList (timeOf info.modified)
    | _ => return d
  catch _ => return d

/-- Take in a directory with the files in it. -/
def takeInDirectory (d : Disk) (p : Path) : IO Disk := do
  let d ← takeIn false d p
  try
    let files ← (← IO.FS.realPath p.text).readDir
    files.foldlM (fun d file => takeIn true d (p.join ⟨file.fileName⟩)) d
  catch _ => return d

def takeInAll (w : Workspace) (d : Disk) (env : String → Option String) : IO Disk := do
  let d ← [Config.fileIn w.root, w.compileCommands].foldlM (takeIn true) d
  let config := (Config.forProject d env w.root).toOption.getD {}
  let d ← takeInDirectory (← takeInDirectory d w.dumps) (config.cacheDirFor w.root)
  let missing := (w.sources d env).filter fun p => (d.modified? p).isNone
  missing.foldlM (takeIn false) d

def pathOf (names : List (List Char)) : String := "/" ++ "/".intercalate (names.map String.ofList)

/-- Write the files that are new or changed, each as a whole, and remove those that are gone. -/
def putBack (before after : Disk) : IO Unit := do
  for (names, node) in after.nodes.entries do
    if before.nodes.find? names = some node then continue
    match node with
    | .directory _ => IO.FS.createDirAll (pathOf names)
    | .file content _ =>
      IO.FS.writeBinFile (pathOf names ++ ".new") ⟨content.toArray⟩
      IO.FS.rename (pathOf names ++ ".new") (pathOf names)
  for (names, node) in before.nodes.entries do
    match node, after.nodes.find? names with
    | .file _ _, none => IO.FS.removeFile (pathOf names)
    | _, _ => pure ()

def environment : IO (String → Option String) := do
  let names := [Config.cacheDirVariable, Config.cacheFormatVariable, Config.threadsVariable]
  let values ← names.mapM fun name => return (name, ← IO.getEnv name)
  return fun name => (values.lookup name).join

def run (args : List String) : IO UInt32 := do
  let started ← IO.monoNanosNow
  let cwd : Path := ⟨(← IO.currentDir).toString⟩
  let env ← environment
  let disk ← match CommandLine.Invocation.read args with
    | .ok i => takeInAll (CommandLine.workspaceOf cwd i) { cwd } env
    | .error _ => pure { cwd }
  let (after, result) := CommandLine.run disk env args
  putBack disk after
  let elapsed := (← IO.monoNanosNow) - started
  for line in result.out do
    IO.println (line.render elapsed)
  for line in result.err do
    IO.eprintln line
  return result.code.toUInt32

end SymbolIndex.Main

def main (args : List String) : IO UInt32 := SymbolIndex.Main.run args
