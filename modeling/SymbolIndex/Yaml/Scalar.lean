import SymbolIndex.Yaml.Cursor
import SymbolIndex.Text.Digits

/-! Scalars: text in quotes, in a block, or as it stands. Line breaks inside a scalar are folded: a
single one becomes a space, and of several the first is dropped. -/

namespace SymbolIndex.Yaml

inductive ScalarStyle
  | plain
  | singleQuoted
  | doubleQuoted
  | literal
  | folded
  deriving DecidableEq, Inhabited

namespace Scalar

/-- Blanks and breaks between two pieces of a scalar. -/
structure Gap where
  /-- Blanks before the first break. -/
  blanks : List Char := []
  /-- A break was passed, if only an escaped one. -/
  broken : Bool := false
  firstBreak : List Char := []
  moreBreaks : List Char := []
  deriving DecidableEq, Inhabited

namespace Gap

def empty : Gap := {}

def addBlank (g : Gap) (x : Char) : Gap :=
  if g.broken then g else { g with blanks := g.blanks ++ [x] }

def addBreak (g : Gap) (x : Char) : Gap :=
  if g.broken then { g with moreBreaks := g.moreBreaks ++ [x] }
  else { broken := true, firstBreak := [x] }

/-- What a gap contributes to the text. -/
def text (g : Gap) : List Char :=
  if !g.broken then g.blanks
  else if g.firstBreak = ['\n'] then
    if g.moreBreaks = [] then [' '] else g.moreBreaks
  else g.firstBreak ++ g.moreBreaks

end Gap

/-- Pass blanks and breaks. Where `indent` is given, tabs are refused in the indentation it asks
for. -/
def readGap (indent : Option Nat) : (fuel : Nat) → Cursor → Gap → Option (Gap × Cursor)
  | 0, c, g => some (g, c)
  | fuel + 1, c, g =>
    match c.head? with
    | none => some (g, c)
    | some x =>
      if isBlank x then
        if g.broken ∧ x = '\t' ∧ indent.any (c.column < ·) then none
        else readGap indent fuel c.skip (g.addBlank x)
      else if isBreak x then readGap indent fuel c.skipBreak (g.addBreak x)
      else some (g, c)

def gap (indent : Option Nat) (c : Cursor) (g : Gap) : Option (Gap × Cursor) :=
  readGap indent c.rest.length c g

/-- The characters that a letter after a backslash stands for. -/
def escapes : List (Char × Nat) := [
  ('0', 0), ('a', 7), ('b', 8), ('t', 9), ('\t', 9), ('n', 10), ('v', 11), ('f', 12), ('r', 13),
  ('e', 27), (' ', 0x20), ('"', 0x22), ('/', 0x2f), ('\\', 0x5c), ('N', 0x85), ('_', 0xa0),
  ('L', 0x2028), ('P', 0x2029)]

/-- How many hexadecimal digits follow a letter after a backslash. -/
def codeWidths : List (Char × Nat) := [('x', 2), ('u', 4), ('U', 8)]

/-- The character of an escape behind its backslash, and the length of the escape. -/
def escape? (rest : List Char) : Option (Char × Nat) := do
  let letter ← rest.head?
  match escapes.lookup letter with
  | some n => return (.ofNat n, 1)
  | none =>
    let width ← codeWidths.lookup letter
    let digits := rest.tail.take width
    if digits.length ≠ width then none
    else
      let n ← Digits.hex? digits
      if n.isValidChar then return (.ofNat n, width + 1) else none

/-- The characters of a quoted scalar up to the next gap or the closing quote; `broken` is set when
an escaped break ended them. -/
def readQuotedPiece (double : Bool) : (fuel : Nat) → Cursor → List Char →
    Option (List Char × Cursor × Bool)
  | 0, _, _ => none
  | fuel + 1, c, text =>
    match c.head? with
    | none => none
    | some x =>
      if isBlank x || isBreak x then some (text, c, false)
      else if x = '\'' ∧ !double then
        if c.seesChar 1 '\'' then readQuotedPiece double fuel (c.skip 2) (text ++ ['\''])
        else some (text, c, false)
      else if x = '"' ∧ double then some (text, c, false)
      else if x = '\\' ∧ double then
        if c.sees 1 isBreak then some (text, c.skip.skipBreak, true)
        else match escape? c.rest.tail with
          | none => none
          | some (y, length) => readQuotedPiece double fuel (c.skip (length + 1)) (text ++ [y])
      else readQuotedPiece double fuel c.skip (text ++ [x])

def readQuoted (double : Bool) : (fuel : Nat) → Cursor → List Char → Option (List Char × Cursor)
  | 0, _, _ => none
  | fuel + 1, c, text =>
    if c.atDocumentMarker then none
    else match readQuotedPiece double (c.rest.length + 1) c text with
      | none => none
      | some (text, c, broken) =>
        if c.seesChar 0 (if double then '"' else '\'') then some (text, c.skip)
        else match gap none c { broken } with
          | none => none
          | some (g, c) => readQuoted double fuel c (text ++ g.text)

/-- A quoted scalar, from its opening quote on. -/
def quoted (double : Bool) (c : Cursor) : Option (String × Cursor) :=
  (readQuoted double (c.rest.length + 1) c.skip []).map fun r => (.ofList r.1, r.2)

def isFlowIndicator (x : Char) : Bool := x = ',' ∨ x = '[' ∨ x = ']' ∨ x = '{' ∨ x = '}'

/-- The characters of a plain scalar up to the next gap or to what ends it. In a flow collection a
colon must not stand before an indicator. -/
def readPlainPiece (flow : Bool) : (fuel : Nat) → Cursor → List Char → Option (List Char × Cursor)
  | 0, c, piece => some (piece, c)
  | fuel + 1, c, piece =>
    match c.head? with
    | none => some (piece, c)
    | some x =>
      if isBlank x || isBreak x then some (piece, c)
      else if flow ∧ x = ':' ∧ c.sees 1 (fun y => isFlowIndicator y || y == '?') then none
      else if (x = ':' ∧ c.seesGap 1) ∨ (flow ∧ isFlowIndicator x) then some (piece, c)
      else readPlainPiece flow fuel c.skip (piece ++ [x])

structure Plain where
  text : List Char := []
  /-- What was passed since the last piece. -/
  pending : Gap := {}
  deriving Inhabited

def readPlain (flow : Bool) (indent : Nat) : (fuel : Nat) → Cursor → Plain →
    Option (Plain × Cursor)
  | 0, _, _ => none
  | fuel + 1, c, s =>
    if c.atDocumentMarker || c.seesChar 0 '#' then some (s, c)
    else match readPlainPiece flow c.rest.length c [] with
      | none => none
      | some (piece, c) =>
        let s := if piece = [] then s else ⟨s.text ++ s.pending.text ++ piece, {}⟩
        if c.head?.any fun x => isBlank x || isBreak x then
          match gap (some indent) c s.pending with
          | none => none
          | some (g, c) =>
            let s := { s with pending := g }
            if !flow && c.column < indent then some (s, c) else readPlain flow indent fuel c s
        else some (s, c)

/-- A plain scalar, and whether a line break follows it. -/
def plain (flow : Bool) (indent : Nat) (c : Cursor) : Option (String × Bool × Cursor) :=
  (readPlain flow indent (c.rest.length + 1) c {}).map fun r =>
    (.ofList r.1.text, r.1.pending.broken, r.2)

inductive Chomping
  | strip
  | clip
  | keep
  deriving DecidableEq, Inhabited

structure BlockHeader where
  chomping : Chomping := .clip
  /-- The indentation given by a digit. -/
  increment : Nat := 0
  deriving DecidableEq, Inhabited

def chomping? : Option Char → Option Chomping
  | some '+' => some .keep
  | some '-' => some .strip
  | _ => none

/-- A digit other than zero; `none` inside for a character that is no digit at all. -/
def increment? (x : Option Char) : Option (Option Nat) :=
  match x.bind Digits.decimalValue? with
  | some 0 => none
  | found => some found

/-- The indicators behind the bar or angle of a block scalar, in either order. -/
def blockHeader (c : Cursor) : Option (BlockHeader × Cursor) :=
  match chomping? c.head? with
  | some chomping => (increment? c.skip.head?).map fun
    | some increment => (⟨chomping, increment⟩, c.skip 2)
    | none => (⟨chomping, 0⟩, c.skip)
  | none => (increment? c.head?).map fun
    | some increment =>
      match chomping? c.skip.head? with
      | some chomping => (⟨chomping, increment⟩, c.skip 2)
      | none => (⟨.clip, increment⟩, c.skip)
    | none => ({}, c)

structure BlockBreaks where
  breaks : List Char := []
  deepest : Nat := 0
  deriving Inhabited

/-- Pass empty lines and the indentation of the line after them; `indent` is zero while it is not
known. -/
def readBlockBreaks (indent : Nat) : (fuel : Nat) → Cursor → BlockBreaks →
    Option (BlockBreaks × Cursor)
  | 0, c, b => some (b, c)
  | fuel + 1, c, b =>
    let spaces := (c.rest.takeWhile isSpace).length
    let c := c.skip (if indent = 0 then spaces else min spaces (indent - c.column))
    let b := { b with deepest := max b.deepest c.column }
    if (indent = 0 ∨ c.column < indent) ∧ c.seesChar 0 '\t' then none
    else match c.head? with
      | none => some (b, c)
      | some x =>
        if isBreak x then
          readBlockBreaks indent fuel c.skipBreak { b with breaks := b.breaks ++ [x] }
        else some (b, c)

structure Block where
  text : List Char := []
  firstBreak : List Char := []
  moreBreaks : List Char := []
  leadingBlank : Bool := false
  deriving Inhabited

/-- Add a line. A folded block joins two lines that do not start with a blank. -/
def Block.addLine (b : Block) (folded : Bool) (line : List Char) : Block :=
  let blank := line.head?.any isBlank
  let joint :=
    if folded ∧ b.firstBreak = ['\n'] ∧ !b.leadingBlank ∧ !blank then
      if b.moreBreaks = [] then [' '] else []
    else b.firstBreak
  { text := b.text ++ joint ++ b.moreBreaks ++ line, leadingBlank := blank }

def readBlockLines (folded : Bool) (indent : Nat) : (fuel : Nat) → Cursor → Block →
    Option (Block × Cursor)
  | 0, _, _ => none
  | fuel + 1, c, b =>
    if c.column = indent ∧ !c.atEnd then
      let (line, c) := c.span fun x => !isBreak x
      let b := b.addLine folded line
      let firstBreak := c.head?.toList
      let c := if c.atEnd then c else c.skipBreak
      match readBlockBreaks indent (c.rest.length + 1) c {} with
      | none => none
      | some (more, c) =>
        readBlockLines folded indent fuel c { b with firstBreak, moreBreaks := more.breaks }
    else some (b, c)

/-- The text of a block: what follows its last line depends on the chomping. -/
def Block.chomped (b : Block) : Chomping → List Char
  | .strip => b.text
  | .clip => b.text ++ b.firstBreak
  | .keep => b.text ++ b.firstBreak ++ b.moreBreaks

/-- A block scalar, from its bar or angle on; `parent` is the indentation around it. -/
def block (folded : Bool) (parent : Option Nat) (c : Cursor) : Option (String × Cursor) := do
  let (header, c) ← blockHeader c.skip
  let c := c.skipWhile isBlank
  let c := if c.seesChar 0 '#' then c.skipLine else c
  if !c.seesBreakOrEnd then none
  else
    let c := if c.atEnd then c else c.skipBreak
    let given := if header.increment = 0 then 0 else parent.getD 0 + header.increment
    let (breaks, c) ← readBlockBreaks given (c.rest.length + 1) c {}
    let least := match parent with
      | some n => n + 1
      | none => 1
    let indent := if given = 0 then max breaks.deepest least else given
    let (b, c) ← readBlockLines folded indent (c.rest.length + 2) c { moreBreaks := breaks.breaks }
    return (.ofList (b.chomped header.chomping), c)

end Scalar

end SymbolIndex.Yaml
