/-! Positions in the text of a YAML document. Every line break of the text but the two Unicode
separators is a single line feed by the time a cursor walks over it. -/

namespace SymbolIndex.Yaml

def isSpace (c : Char) : Bool := c = ' '

def isBlank (c : Char) : Bool := c = ' ' ∨ c = '\t'

/-- A line feed, a line separator or a paragraph separator. -/
def isBreak (c : Char) : Bool := c = '\n' ∨ c.toNat = 0x2028 ∨ c.toNat = 0x2029

def isByteOrderMark (c : Char) : Bool := c.toNat = 0xfeff

/-- The characters of names of anchors, directives and tag handles. -/
def isWord (c : Char) : Bool :=
  ('a' ≤ c ∧ c ≤ 'z') ∨ ('A' ≤ c ∧ c ≤ 'Z') ∨ ('0' ≤ c ∧ c ≤ '9') ∨ c = '_' ∨ c = '-'

/-- The characters that a document may contain. -/
def isAllowed (c : Char) : Bool :=
  let n := c.toNat
  n = 9 ∨ n = 10 ∨ n = 13 ∨ (0x20 ≤ n ∧ n ≤ 0x7e) ∨ n = 0x85 ∨ (0xa0 ≤ n ∧ n ≤ 0xd7ff) ∨
    (0xe000 ≤ n ∧ n ≤ 0xfffd) ∨ 0x10000 ≤ n

/-- Write every line break in one way. -/
def unifyBreaks : List Char → List Char
  | '\r' :: '\n' :: rest => '\n' :: unifyBreaks rest
  | c :: rest => (if c = '\r' ∨ c.toNat = 0x85 then '\n' else c) :: unifyBreaks rest
  | [] => []

structure Cursor where
  rest : List Char
  /-- How many characters were passed. -/
  offset : Nat := 0
  line : Nat := 0
  column : Nat := 0
  deriving DecidableEq, Inhabited

namespace Cursor

def head? (c : Cursor) : Option Char := c.rest.head?

def atEnd (c : Cursor) : Bool := c.rest.isEmpty

/-- Whether the character at a distance satisfies a test. -/
def sees (c : Cursor) (distance : Nat) (p : Char → Bool) : Bool := (c.rest[distance]?).any p

def seesChar (c : Cursor) (distance : Nat) (x : Char) : Bool := c.rest[distance]? = some x

/-- Whether a blank, a break or the end of the text is at a distance. -/
def seesGap (c : Cursor) (distance : Nat) : Bool :=
  match c.rest[distance]? with
  | some x => isBlank x || isBreak x
  | none => true

def seesBreakOrEnd (c : Cursor) : Bool :=
  match c.head? with
  | some x => isBreak x
  | none => true

/-- Pass characters of the current line. -/
def skip (c : Cursor) (count : Nat := 1) : Cursor :=
  { c with rest := c.rest.drop count, offset := c.offset + count, column := c.column + count }

/-- Pass a line break. -/
def skipBreak (c : Cursor) : Cursor :=
  { rest := c.rest.drop 1, offset := c.offset + 1, line := c.line + 1, column := 0 }

/-- The characters of this line from here on that satisfy a test, and what follows them. -/
def span (c : Cursor) (p : Char → Bool) : List Char × Cursor :=
  let taken := c.rest.takeWhile p
  (taken, c.skip taken.length)

def skipWhile (c : Cursor) (p : Char → Bool) : Cursor := (c.span p).2

/-- Pass everything up to the end of the line. -/
def skipLine (c : Cursor) : Cursor := c.skipWhile fun x => !isBreak x

/-- Three dashes or three dots at the start of a line, with a gap behind them. -/
def atMarker (c : Cursor) (x : Char) : Bool :=
  c.column = 0 && c.seesChar 0 x && c.seesChar 1 x && c.seesChar 2 x && c.seesGap 3

def atDocumentMarker (c : Cursor) : Bool := c.atMarker '-' || c.atMarker '.'

end Cursor

end SymbolIndex.Yaml
