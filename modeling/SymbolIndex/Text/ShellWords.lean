import SymbolIndex.Text.Bytes

/-! Splitting a command line into words as a shell does. -/

namespace SymbolIndex.ShellWords

def isSpace (c : Char) : Bool := c = ' ' ∨ c = '\t' ∨ c = '\n'

/-- Inside double quotes a backslash stands for itself in front of all but these. -/
def isEscapable (c : Char) : Bool := c = '$' ∨ c.toNat = 0x60 ∨ c = '"' ∨ c = '\\'

/-- Read to the closing double quote; `none` if there is none. -/
def doubleQuoted (word : List Char) : List Char → Option (List Char × List Char)
  | [] => none
  | '"' :: rest => some (word, rest)
  | '\\' :: c :: rest =>
    if c = '\n' then doubleQuoted word rest
    else if isEscapable c then doubleQuoted (c :: word) rest
    else doubleQuoted (c :: '\\' :: word) rest
  | c :: rest => if c = '\\' then none else doubleQuoted (c :: word) rest

def singleQuoted (word : List Char) : List Char → Option (List Char × List Char)
  | [] => none
  | '\'' :: rest => some (word, rest)
  | c :: rest => singleQuoted (c :: word) rest

/-- Read a word up to a space or the end; its characters come out in reverse. -/
def readWord : (fuel : Nat) → (word : List Char) → List Char → Option (List Char × List Char)
  | 0, _, _ => none
  | _, word, [] => some (word, [])
  | fuel + 1, word, c :: rest =>
    if isSpace c then some (word, rest)
    else if c = '"' then (doubleQuoted word rest).bind fun r => readWord fuel r.1 r.2
    else if c = '\'' then (singleQuoted word rest).bind fun r => readWord fuel r.1 r.2
    else if c = '\\' then
      match rest with
      | [] => none
      | d :: rest => readWord fuel (if d = '\n' then word else d :: word) rest
    else readWord fuel (c :: word) rest

def readWords : (fuel : Nat) → List Char → Option (List String)
  | 0, _ => some []
  | _, [] => some []
  | fuel + 1, c :: rest =>
    if isSpace c then readWords fuel rest
    else if c = '#' then readWords fuel (rest.dropWhile (· ≠ '\n'))
    else do
      let (word, rest) ← readWord (rest.length + 2) [] (c :: rest)
      return .ofList word.reverse :: (← readWords fuel rest)

/-- The words of a line; none if a quote is left open or a backslash comes last. -/
def split? (line : String) : Option (List String) := readWords (line.length + 1) line.toList

end SymbolIndex.ShellWords
