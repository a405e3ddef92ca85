import SymbolIndex.CommandLine.Words
import SymbolIndex.Path

/-! What a command line asks for. The switches that say where a project is may stand before and after
the command; those after it count. -/

namespace SymbolIndex.CommandLine

inductive Command
  /-- Index every file, taking nothing from the cache if forced. -/
  | index (force : Bool)
  /-- List the symbols of a file, or outline it in source order. -/
  | symbols (file : Path) (outline : Bool)
  /-- List the uses of a symbol, or those that have a role. -/
  | uses (signature : String) (role : Option String)
  | definition (signature : String)
  | stats
  deriving DecidableEq, Inhabited

structure Invocation where
  workspace : Option Path := none
  compileCommands : Option Path := none
  dumps : Option Path := none
  command : Command
  deriving DecidableEq, Inhabited

namespace Invocation

/-- The switches of every command. How much is logged has no effect: nothing is. -/
def common : List Switch := [
  { name := "workspace", letter := some 'w', takesValue := true },
  { name := "compile-commands", takesValue := true },
  { name := "dumps", takesValue := true },
  { name := "verbose", letter := some 'v', repeats := true },
  { name := "help", letter := some 'h', stop := some .help },
  { name := "version", letter := some 'V', stop := some .version }]

def commands : List String := ["index", "symbols", "uses", "definition", "stats", "help"]

def vocabularyOf (command : String) : Vocabulary :=
  match command with
  | "index" => { switches := { name := "force" } :: common }
  | "symbols" => { switches := { name := "outline", letter := some 'o' } :: common, operands := 1 }
  | "uses" => {
    switches := { name := "role", letter := some 'r', takesValue := true, emptyValue := true } :: common
    operands := 1 }
  | "definition" => { switches := common, operands := 1 }
  | _ => { switches := common }

def operandOf (name : String) (w : Words) : Except Stop String :=
  match w.operands with
  | word :: _ => .ok word
  | [] => .error (.misuse (.missingOperand name))

def commandOf (name : String) (w : Words) : Except Stop Command :=
  match name with
  | "index" => .ok (.index (w.has "force"))
  | "symbols" => do
    let file ← operandOf "file" w
    if file = "" then throw (.misuse (.missingOperand "file"))
    return .symbols ⟨file⟩ (w.has "outline")
  | "uses" => do return .uses (← operandOf "symbol" w) (w.value? "role")
  | "definition" => do return .definition (← operandOf "symbol" w)
  | _ => .ok .stats

/-- Help may be asked for on one command. -/
def help : List String → Stop
  | [] => .help
  | [word] => if commands.contains word then .help else .misuse (.unknownCommand word)
  | word :: next :: _ => .misuse (.unknownCommand (if commands.contains word then next else word))

def read (args : List String) : Except Stop Invocation := do
  let (outer, command) ← Words.readUntilCommand { switches := common, commands } {} args
  match command with
  | none => throw (.misuse .missingCommand)
  | some ("help", words) => throw (help words)
  | some (name, words) =>
    let (inner, _) ← Words.readUntilCommand (vocabularyOf name) {} words
    let path (switch : String) := (inner.value? switch <|> outer.value? switch).map Path.mk
    return {
      workspace := path "workspace"
      compileCommands := path "compile-commands"
      dumps := path "dumps"
      command := ← commandOf name inner }

end Invocation

end SymbolIndex.CommandLine
