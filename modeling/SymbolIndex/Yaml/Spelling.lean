import SymbolIndex.Yaml.Cursor
import SymbolIndex.Yaml.Plain

/-! How a text is written in a YAML document: as it stands if it is then read back as the same text,
else in single quotes, and in double quotes where something has to be escaped. A text of several
lines becomes a block. -/

namespace SymbolIndex.Yaml.Spelling

/-- Characters that are written as they are. -/
def isPrintable (c : Char) : Bool :=
  let n := c.toNat
  n = 10 ∨ (0x20 ≤ n ∧ n ≤ 0x7e) ∨ (0xa0 ≤ n ∧ n ≤ 0xfffd ∧ n ≠ 0xfeff) ∨ 0x10000 ≤ n

/-- What separates words; the end of the text does, too. -/
def isGap (c : Option Char) : Bool := c.all fun x => isBlank x || isBreak x

/-- Two neighbours, somewhere in a text. -/
def hasPair (p q : Char → Bool) : List Char → Bool
  | a :: b :: rest => (p a && q b) || hasPair p q (b :: rest)
  | _ => false

/-- Whether the first character would start something else than a plain scalar. -/
def startsIndicator (text : List Char) : Bool :=
  match text with
  | [] => false
  | c :: rest =>
    "#,[]\x7b\x7d&*!|>'\"%@`".contains c ||
      ((c = '?' || c = ':' || c = '-') && isGap rest.head?) ||
      ["---", "..."].contains (String.ofList (text.take 3))

/-- Whether a colon or a hash behind the first character would end a plain scalar. -/
def hasIndicator (before : Char) : List Char → Bool
  | [] => false
  | c :: rest =>
    (c = ':' && isGap rest.head?) || (c = '#' && isGap (some before)) || hasIndicator c rest

def isSpecial (text : List Char) : Bool :=
  hasPair isSpace isBreak text || !text.all isPrintable

def hasOuterGap (text : List Char) : Bool :=
  let gap (c : Char) : Bool := isSpace c || isBreak c
  text.head?.any gap || text.getLast?.any gap

def singleAllowed (text : List Char) : Bool := !isSpecial text && !hasPair isBreak isSpace text

def plainAllowed (text : List Char) : Bool :=
  singleAllowed text && !hasOuterGap text && !text.any isBreak && !startsIndicator text &&
    !hasIndicator (text.headD ' ') text.tail

def blockAllowed (text : List Char) : Bool := !isSpecial text && !text.getLast?.any isSpace

/-- The letters of one-letter escapes. -/
def letters : List (Nat × Char) := [
  (0, '0'), (7, 'a'), (8, 'b'), (9, 't'), (10, 'n'), (11, 'v'), (12, 'f'), (13, 'r'), (27, 'e'),
  (0x22, '"'), (0x5c, '\\'), (0x85, 'N'), (0xa0, '_'), (0x2028, 'L'), (0x2029, 'P')]

def upperHex (width n : Nat) : List Char := (Digits.hexChars width n).map Char.toUpper

def escapeChar (c : Char) : List Char :=
  if isPrintable c ∧ !isBreak c ∧ c ≠ '"' ∧ c ≠ '\\' then [c]
  else match letters.lookup c.toNat with
    | some letter => ['\\', letter]
    | none =>
      if c.toNat ≤ 0xff then '\\' :: 'x' :: upperHex 2 c.toNat
      else if c.toNat ≤ 0xffff then '\\' :: 'u' :: upperHex 4 c.toNat
      else '\\' :: 'U' :: upperHex 8 c.toNat

def doubleQuoted (text : List Char) : List Char := '"' :: (text.flatMap escapeChar ++ ['"'])

/-- Indentation of the lines of a scalar behind the first. -/
def indentation : List Char := [' ', ' ']

/-- The characters of a scalar, with every line behind the first indented. -/
def indented (write : Char → List Char) : (broken : Bool) → List Char → List Char
  | _, [] => []
  | broken, c :: rest =>
    if isBreak c then c :: indented write true rest
    else (if broken then indentation else []) ++ write c ++ indented write false rest

def quoteChar (c : Char) : List Char := if c = '\'' then ['\'', '\''] else [c]

def singleQuoted (text : List Char) : List Char :=
  let ending := if text.getLast?.any isBreak then indentation else []
  '\'' :: (indented quoteChar false text ++ ending ++ ['\''])

/-- What the bar of a block is followed by: the indentation if it cannot be seen from the first
line, and how the text ends. -/
def blockHints (text : List Char) : List Char :=
  let indent := if text.head?.any fun c => isSpace c || isBreak c then ['2'] else []
  let ending := match text.reverse with
    | [] => ['-']
    | c :: rest =>
      if !isBreak c then ['-'] else if rest.head?.all isBreak then ['+'] else []
  indent ++ ending

def literalBlock (text : List Char) : List Char :=
  '|' :: (blockHints text ++ '\n' :: indented (fun c => [c]) true text)

def chars (text : String) : List Char :=
  let cs := text.toList
  if cs.contains '\n' then
    if blockAllowed cs then literalBlock cs else doubleQuoted cs
  else if !Plain.isAmbiguous text ∧ plainAllowed cs then cs
  else if singleAllowed cs then singleQuoted cs
  else doubleQuoted cs

/-- The written form of a text, with the end of its line. -/
def line (text : String) : String :=
  let cs := chars text
  .ofList (if cs.getLast?.any isBreak then cs else cs ++ ['\n'])

end SymbolIndex.Yaml.Spelling
