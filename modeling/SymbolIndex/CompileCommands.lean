import SymbolIndex.Json.Document
import SymbolIndex.Json.Shape
import SymbolIndex.Path
import SymbolIndex.Ordered.Map
import SymbolIndex.Text.ShellWords

/-! How the files of a project are compiled. A file without an entry of its own, usually a header,
borrows the arguments of the entry that shares the longest part of its path. -/

namespace SymbolIndex

/-- One entry of a list of compile commands, as it is written. -/
structure CompileCommand where
  directory : Path
  file : Path
  arguments : Option (List String)
  command : Option String
  deriving DecidableEq, Inhabited

namespace CompileCommand

def ofJson? (j : Json) : Option CompileCommand := do
  let m ← j.members? ["directory", "file", "arguments", "command"]
  return {
    directory := ⟨← m.required "directory" Json.text?⟩
    file := ⟨← m.required "file" Json.text?⟩
    arguments := ← m.defaulted "arguments" none (Json.option? (Json.list? Json.text?))
    command := ← m.defaulted "command" none (Json.option? Json.text?) }

/-- The file, seen from the entry's directory. -/
def target (c : CompileCommand) (cwd : Option Path) : Path :=
  (c.directory.normalize cwd).normalizeAgainst c.file

/-- The given arguments, or else the words of the command line if it can be split. -/
def args? (c : CompileCommand) : Option (List String) :=
  c.arguments <|> c.command.bind ShellWords.split?

end CompileCommand

structure CompileCommands where
  entries : OrderedMap Path (List String) := ∅
  deriving DecidableEq, Inhabited

namespace CompileCommands

/-- Entries without usable arguments are left out; the last entry of a file counts. -/
def ofCommands (cwd : Option Path) (commands : List CompileCommand) : CompileCommands where
  entries := .ofList (commands.filterMap fun c => c.args?.map (c.target cwd, ·))

def parse? (cwd : Option Path) (content : Bytes) : Option CompileCommands :=
  ((Json.parse? content).bind (Json.list? CompileCommand.ofJson?)).map (ofCommands cwd)

def files (c : CompileCommands) : List Path := c.entries.keys

/-- Whether a file has an entry of its own. -/
def contains (c : CompileCommands) (p : Path) : Bool := c.entries.contains p

/-- How many leading components two paths share. -/
def sharedComponents (p q : Path) : Nat :=
  ((p.components.zip q.components).takeWhile fun e => e.1 = e.2).length

/-- The later of two entries, unless the earlier one shares more with a path. -/
def closer (p : Path) (best next : Path × List String) : Path × List String :=
  if sharedComponents best.1 p ≤ sharedComponents next.1 p then next else best

def closest? (c : CompileCommands) (p : Path) : Option (Path × List String) :=
  match c.entries.entries with
  | [] => none
  | first :: rest => some (rest.foldl (closer p) first)

def argsFor (c : CompileCommands) (p : Path) : List String :=
  (c.entries.find? p <|> (c.closest? p).map (·.2)).getD []

end CompileCommands

end SymbolIndex
