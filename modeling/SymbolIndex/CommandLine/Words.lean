/-! The words of a command line: switches, which may take a value, and operands. A command's own words
follow its name. -/

namespace SymbolIndex.CommandLine

/-- Why a command line cannot be understood. -/
inductive UsageError
  | unknownSwitch (word : String)
  | missingValue (switch : String)
  | emptyValue (switch : String)
  | unwantedValue (switch : String)
  | repeated (switch : String)
  | unknownCommand (word : String)
  | missingCommand
  | unwantedOperand (word : String)
  | missingOperand (name : String)
  deriving DecidableEq, Inhabited

def UsageError.message : UsageError → String
  | .unknownSwitch word => s!"unknown option '{word}'"
  | .missingValue switch => s!"option '--{switch}' needs a value"
  | .emptyValue switch => s!"the value of option '--{switch}' is empty"
  | .unwantedValue switch => s!"option '--{switch}' takes no value"
  | .repeated switch => s!"option '--{switch}' is given twice"
  | .unknownCommand word => s!"unknown command '{word}'"
  | .missingCommand => "no command is given"
  | .unwantedOperand word => s!"unexpected argument '{word}'"
  | .missingOperand name => s!"no {name} is given"

/-- Why the reading of a command line ends before the line does. -/
inductive Stop
  | help
  | version
  | misuse (e : UsageError)
  deriving DecidableEq, Inhabited

/-- A switch is spelled `--name`, and `-l` if it has a letter. -/
structure Switch where
  name : String
  letter : Option Char := none
  takesValue : Bool := false
  /-- Whether the value may be empty; one that names a file may not. -/
  emptyValue : Bool := false
  /-- Whether the switch may be given more than once. -/
  repeats : Bool := false
  /-- What a switch that is not about a command asks for. -/
  stop : Option Stop := none
  deriving DecidableEq, Inhabited

/-- What the words of a command line may be. -/
structure Vocabulary where
  switches : List Switch
  /-- The names of the commands, where one may be given. -/
  commands : List String := []
  /-- How many operands there may be. -/
  operands : Nat := 0
  deriving DecidableEq, Inhabited

/-- The words read so far. -/
structure Words where
  /-- The switches with their values, the latest first. -/
  given : List (String × String) := []
  operands : List String := []
  /-- A switch whose value is the next word. -/
  pending : Option Switch := none
  /-- After a word `--` all words are operands. -/
  literal : Bool := false
  deriving DecidableEq, Inhabited

namespace Words

def has (w : Words) (name : String) : Bool := (w.given.lookup name).isSome

def value? (w : Words) (name : String) : Option String := w.given.lookup name

def give (w : Words) (s : Switch) (value : String) : Except Stop Words :=
  match s.stop with
  | some stop => .error stop
  | none =>
    if !s.repeats && w.has s.name then .error (.misuse (.repeated s.name))
    else if s.takesValue && !s.emptyValue && value = "" then .error (.misuse (.emptyValue s.name))
    else .ok { w with given := (s.name, value) :: w.given, pending := none }

/-- A switch with the value that is attached to it, if one is. -/
def giveAttached (w : Words) (s : Switch) : Option String → Except Stop Words
  | some value => if s.takesValue then w.give s value else .error (.misuse (.unwantedValue s.name))
  | none => if s.takesValue then .ok { w with pending := some s } else w.give s ""

/-- The two sides of the first equals sign. -/
def splitValue (word : List Char) : String × Option String :=
  match word.dropWhile (· ≠ '=') with
  | [] => (.ofList word, none)
  | _ :: value => (.ofList (word.takeWhile (· ≠ '=')), some (.ofList value))

def long (v : Vocabulary) (w : Words) (word : List Char) : Except Stop Words :=
  let (name, value) := splitValue word
  match v.switches.find? (·.name = name) with
  | some s => w.giveAttached s value
  | none => .error (.misuse (.unknownSwitch ("--" ++ name)))

/-- Letters after a hyphen: what follows the letter of a switch that takes a value is the value. -/
def letters (v : Vocabulary) (w : Words) : List Char → Except Stop Words
  | [] => .ok w
  | c :: rest =>
    match v.switches.find? (·.letter = some c) with
    | none => .error (.misuse (.unknownSwitch (.ofList ['-', c])))
    | some s =>
      if s.takesValue then
        match rest with
        | [] => w.giveAttached s none
        | '=' :: value => w.giveAttached s (some (.ofList value))
        | value => w.giveAttached s (some (.ofList value))
      else (w.giveAttached s none).bind (letters v · rest)

def operand (v : Vocabulary) (w : Words) (word : String) : Except Stop Words :=
  if w.operands.length < v.operands then .ok { w with operands := w.operands ++ [word] }
  else .error (.misuse (if v.commands = [] then .unwantedOperand word else .unknownCommand word))

def needsValue (w : Words) (next : Words → Except Stop Words) : Except Stop Words :=
  match w.pending with
  | some s => .error (.misuse (.missingValue s.name))
  | none => next w

/-- One more word. A word that begins with a hyphen is never the value of the switch before it. -/
def add (v : Vocabulary) (w : Words) (word : String) : Except Stop Words :=
  if w.literal then w.operand v word
  else match word.toList with
    | ['-', '-'] => w.needsValue fun w => .ok { w with literal := true }
    | '-' :: '-' :: name => w.needsValue (long v · name)
    | '-' :: c :: rest => w.needsValue (letters v · (c :: rest))
    | _ =>
      match w.pending with
      | some s => w.give s word
      | none => w.operand v word

/-- Read words up to the name of a command, which comes with the words after it. -/
def readUntilCommand (v : Vocabulary) (w : Words) :
    List String → Except Stop (Words × Option (String × List String))
  | [] => w.needsValue .ok |>.map (·, none)
  | word :: rest =>
    if !w.literal && w.pending.isNone && v.commands.contains word then .ok (w, some (word, rest))
    else (w.add v word).bind (readUntilCommand v · rest)

end Words

end SymbolIndex.CommandLine
