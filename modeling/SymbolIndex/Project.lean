import SymbolIndex.CompileCommands
import SymbolIndex.Error

/-! Which files belong to a project and with which arguments each is compiled. -/

namespace SymbolIndex

inductive Project
  | compiled (commands : CompileCommands)
  /-- A fixed set of files that share their arguments. -/
  | fixed (files : List Path) (args : List String)
  deriving DecidableEq, Inhabited

namespace Project

def files : Project → List Path
  | .compiled commands => commands.files
  | .fixed files _ => files

def argsFor : Project → Path → List String
  | .compiled commands, p => commands.argsFor p
  | .fixed _ args, _ => args

def contains : Project → Path → Bool
  | .compiled commands, p => commands.contains p
  | .fixed files _, p => files.any (·.same p)

/-- Read a list of compile commands. -/
def load (d : Disk) (file : Path) : Except Error Project :=
  match d.readText? file with
  | .error e => .error (.ofDisk e)
  | .ok none => .error (.io "stream did not contain valid UTF-8")
  | .ok (some text) =>
    match CompileCommands.parse? (some d.cwd) (Bytes.ofText text) with
    | some commands => .ok (.compiled commands)
    | none => .error (.config s!"{file.text}: malformed compile commands")

end Project

end SymbolIndex
