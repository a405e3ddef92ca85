import SymbolIndex.Yaml.Scalar

/-! The tokens of a YAML document. Indentation becomes brackets: a deeper column opens a block
collection, and a shallower one closes it. A key is only known as one when its colon is reached, so
the place of every node that may turn out to be a key is remembered. -/

namespace SymbolIndex.Yaml

inductive Token
  | versionDirective (major minor : Nat)
  | tagDirective (handle uri : String)
  | documentStart
  | documentEnd
  | blockSequenceStart
  | blockMappingStart
  | blockEnd
  | flowSequenceStart
  | flowSequenceEnd
  | flowMappingStart
  | flowMappingEnd
  | blockEntry
  | flowEntry
  | key
  | value
  | alias (name : String)
  | anchor (name : String)
  | tag (handle suffix : String)
  | scalar (text : String) (style : ScalarStyle)
  deriving DecidableEq, Inhabited

namespace Token

/-- A place where a key may have started. -/
structure KeyMark where
  /-- How many tokens came before it. -/
  index : Nat
  offset : Nat
  line : Nat
  column : Nat
  /-- Nothing but a key may stand here. -/
  required : Bool
  deriving DecidableEq, Inhabited

structure Scan where
  cursor : Cursor
  /-- The latest token first. -/
  tokens : List Token := []
  /-- The indentation of the open block collections, the innermost first. -/
  indents : List Nat := []
  /-- The marks of the enclosing flow collections, the innermost first, and of the block level. -/
  marks : List (Option KeyMark) := [none]
  keyAllowed : Bool := true
  deriving Inhabited

namespace Scan

def inFlow (s : Scan) : Bool := 1 < s.marks.length

def indent? (s : Scan) : Option Nat := s.indents.head?

/-- The smallest column of what belongs to the current block collection. -/
def inner (s : Scan) : Nat :=
  match s.indent? with
  | some n => n + 1
  | none => 0

def push (s : Scan) (t : Token) : Scan := { s with tokens := t :: s.tokens }

/-- Put a token behind the first `index` ones. -/
def insertAt (s : Scan) (index : Nat) (t : Token) : Scan :=
  { s with tokens := s.tokens.insertIdx (s.tokens.length - index) t }

/-- Open a block collection if the column is deeper than the current one. -/
def indentTo (s : Scan) (column index : Nat) (t : Token) : Scan :=
  if !s.inFlow && s.inner ≤ column then
    { s.insertAt index t with indents := column :: s.indents }
  else s

/-- Close the block collections that are deeper than a column; all of them when there is none. -/
def close (s : Scan) (column : Option Nat) : Scan :=
  if s.inFlow then s
  else
    let ended := s.indents.takeWhile fun n => column.all (· < n)
    { s with
      tokens := ended.map (fun _ => .blockEnd) ++ s.tokens
      indents := s.indents.drop ended.length }

/-- A key stands on one line and is at most 1024 characters long. -/
def KeyMark.stale (m : KeyMark) (c : Cursor) : Bool := m.line < c.line || m.offset + 1024 < c.offset

def dropStale (s : Scan) : Option Scan :=
  let isStale (m : Option KeyMark) : Bool := m.any (KeyMark.stale · s.cursor)
  if s.marks.any fun m => isStale m && m.any (·.required) then none
  else some { s with marks := s.marks.map fun m => if isStale m then none else m }

/-- Give up the mark of the current level. -/
def dropMark (s : Scan) : Option Scan :=
  if (s.marks.head?.join).any (·.required) then none
  else some { s with marks := s.marks.set 0 none }

/-- Remember that a key may start here. -/
def saveMark (s : Scan) : Option Scan :=
  if s.keyAllowed then
    let mark : KeyMark := {
      index := s.tokens.length, offset := s.cursor.offset, line := s.cursor.line
      column := s.cursor.column
      required := !s.inFlow && s.indent? = some s.cursor.column }
    s.dropMark.map fun s => { s with marks := s.marks.set 0 (some mark) }
  else some s

def skip (s : Scan) (count : Nat := 1) : Scan := { s with cursor := s.cursor.skip count }

/-- Pass what stands between two tokens. A tab may indent nothing that could be a key. -/
def skipGap : (fuel : Nat) → Scan → Scan
  | 0, s => s
  | fuel + 1, s =>
    let c := s.cursor
    let c := if c.column = 0 ∧ c.sees 0 isByteOrderMark then c.skip else c
    let c := c.skipWhile fun x => x = ' ' || (x = '\t' && (s.inFlow || !s.keyAllowed))
    let c := if c.seesChar 0 '#' then c.skipLine else c
    if c.sees 0 isBreak then
      skipGap fuel { s with cursor := c.skipBreak, keyAllowed := s.keyAllowed || !s.inFlow }
    else { s with cursor := c }

/-- The rest of a directive's line may only hold a comment. -/
def endDirective (s : Scan) (c : Cursor) (t : Token) : Option Scan :=
  let c := c.skipWhile isBlank
  let c := if c.seesChar 0 '#' then c.skipLine else c
  if c.seesBreakOrEnd then
    some { s.push t with cursor := if c.atEnd then c else c.skipBreak }
  else none

def versionNumber? (c : Cursor) : Option (Nat × Cursor) :=
  let (digits, c) := c.span Char.isDigit
  if 9 < digits.length then none else (Digits.decimal? digits).map (·, c)

/-- The characters of a percent escape in a tag: one character in the bytes of its UTF-8 form. -/
def uriEscape? (rest : List Char) : Option (Char × Nat) := do
  let byte (i : Nat) : Option UInt8 :=
    match rest.drop (3 * i) with
    | '%' :: a :: b :: _ => (Digits.hex? [a, b]).map UInt8.ofNat
    | _ => none
  let first ← byte 0
  let width ← if first < 0x80 then some 1
    else if first &&& 0xe0 = 0xc0 then some 2
    else if first &&& 0xf0 = 0xe0 then some 3
    else if first &&& 0xf8 = 0xf0 then some 4
    else none
  let bytes ← (List.range width).mapM byte
  if (bytes.drop 1).all fun b => b &&& 0xc0 = 0x80 then
    match String.fromUTF8? ⟨bytes.toArray⟩ with
    | some s => s.toList.head?.map (·, 3 * width)
    | none => none
  else none

def isUriChar (verbatim : Bool) (x : Char) : Bool :=
  isWord x || ";/?:@&=+$.!~*'()".contains x || (verbatim && (x = ',' || x = '[' || x = ']'))

def readUri (verbatim : Bool) : (fuel : Nat) → Cursor → List Char → Option (List Char × Cursor)
  | 0, c, uri => some (uri, c)
  | fuel + 1, c, uri =>
    match c.head? with
    | none => some (uri, c)
    | some x =>
      if x = '%' then
        match uriEscape? c.rest with
        | none => none
        | some (y, length) => readUri verbatim fuel (c.skip length) (uri ++ [y])
      else if isUriChar verbatim x then readUri verbatim fuel c.skip (uri ++ [x])
      else some (uri, c)

def uri (verbatim : Bool) (c : Cursor) : Option (List Char × Cursor) :=
  readUri verbatim c.rest.length c []

/-- An exclamation mark, and a name with another one behind it if there is one. -/
def tagHandle (c : Cursor) : Option (List Char × Cursor) :=
  if c.seesChar 0 '!' then
    let (name, c') := c.skip.span isWord
    if c'.seesChar 0 '!' then some ('!' :: (name ++ ['!']), c'.skip) else some ('!' :: name, c')
  else none

def directive (s : Scan) : Option Scan := do
  let s ← (s.close none).dropMark
  let (name, c) := s.cursor.skip.span isWord
  let s := { s with keyAllowed := false }
  if !c.seesGap 0 then none
  else if name = "YAML".toList then
    let (major, c) ← versionNumber? (c.skipWhile isBlank)
    if c.seesChar 0 '.' then
      let (minor, c) ← versionNumber? c.skip
      s.endDirective c (.versionDirective major minor)
    else none
  else if name = "TAG".toList then
    let (handle, c) ← tagHandle (c.skipWhile isBlank)
    if handle.getLast? = some '!' ∧ c.sees 0 isBlank then
      let (uri, c) ← uri true (c.skipWhile isBlank)
      if uri ≠ [] ∧ c.seesGap 0 then s.endDirective c (.tagDirective (.ofList handle) (.ofList uri))
      else none
    else none
  else none

def documentMarker (s : Scan) (t : Token) : Option Scan :=
  (s.close none).dropMark.map fun s => { s.skip 3 with keyAllowed := false }.push t

def flowStart (s : Scan) (t : Token) : Option Scan :=
  s.saveMark.map fun s => { s.skip with marks := none :: s.marks, keyAllowed := true }.push t

def flowEnd (s : Scan) (t : Token) : Option Scan :=
  s.dropMark.map fun s =>
    { s.skip with
      marks := if s.inFlow then s.marks.tail else s.marks, keyAllowed := false }.push t

def flowEntry (s : Scan) : Option Scan :=
  s.dropMark.map fun s => { s.skip with keyAllowed := true }.push .flowEntry

def blockEntry (s : Scan) : Option Scan :=
  if !s.inFlow && !s.keyAllowed then none
  else (s.indentTo s.cursor.column s.tokens.length .blockSequenceStart).dropMark.map fun s =>
    { s.skip with keyAllowed := true }.push .blockEntry

def explicitKey (s : Scan) : Option Scan :=
  if !s.inFlow && !s.keyAllowed then none
  else (s.indentTo s.cursor.column s.tokens.length .blockMappingStart).dropMark.map fun s =>
    { s.skip with keyAllowed := !s.inFlow }.push .key

/-- A colon makes what was marked a key. -/
def value (s : Scan) : Option Scan :=
  match s.marks.head?.join with
  | some mark =>
    let s := (s.insertAt mark.index .key).indentTo mark.column mark.index .blockMappingStart
    some ({ s.skip with marks := s.marks.set 0 none, keyAllowed := false }.push .value)
  | none =>
    if !s.inFlow && !s.keyAllowed then none
    else
      let s := s.indentTo s.cursor.column s.tokens.length .blockMappingStart
      some ({ s.skip with keyAllowed := !s.inFlow }.push .value)

/-- What may follow the name of an anchor or alias. -/
def endsName (c : Cursor) : Bool := c.seesGap 0 || c.sees 0 fun x => "?:,]\x7d%@`".contains x

def anchor (s : Scan) (token : String → Token) : Option Scan := do
  let s ← s.saveMark
  let (name, c) := s.cursor.skip.span isWord
  if name ≠ [] ∧ endsName c then
    return { s with cursor := c, keyAllowed := false }.push (token (.ofList name))
  else none

/-- The handle and suffix of a tag. -/
def tagParts (c : Cursor) : Option (List Char × List Char × Cursor) :=
  if c.seesChar 1 '<' then do
    let (suffix, c) ← uri true (c.skip 2)
    if suffix ≠ [] ∧ c.seesChar 0 '>' then return ([], suffix, c.skip) else none
  else do
    let (handle, c) ← tagHandle c
    if 2 ≤ handle.length ∧ handle.getLast? = some '!' then
      let (suffix, c) ← uri false c
      if suffix ≠ [] then return (handle, suffix, c) else none
    else
      let (rest, c) ← uri false c
      match handle.tail ++ rest with
      | [] => return ([], ['!'], c)
      | suffix => return (['!'], suffix, c)

def tag (s : Scan) : Option Scan := do
  let s ← s.saveMark
  let (handle, suffix, c) ← tagParts s.cursor
  if c.seesGap 0 ∨ (s.inFlow ∧ c.seesChar 0 ',') then
    return { s with cursor := c, keyAllowed := false }.push (.tag (.ofList handle) (.ofList suffix))
  else none

def blockScalar (s : Scan) (folded : Bool) : Option Scan := do
  let s ← s.dropMark
  let (text, c) ← Scalar.block folded s.indent? s.cursor
  let style : ScalarStyle := if folded then .folded else .literal
  return { s with cursor := c, keyAllowed := true }.push (.scalar text style)

def quotedScalar (s : Scan) (double : Bool) : Option Scan := do
  let s ← s.saveMark
  let (text, c) ← Scalar.quoted double s.cursor
  let style : ScalarStyle := if double then .doubleQuoted else .singleQuoted
  return { s with cursor := c, keyAllowed := false }.push (.scalar text style)

def plainScalar (s : Scan) : Option Scan := do
  let s ← s.saveMark
  let (text, broken, c) ← Scalar.plain s.inFlow s.inner s.cursor
  return { s with cursor := c, keyAllowed := broken }.push (.scalar text .plain)

/-- Characters that do not start a plain scalar by themselves. -/
def isIndicator (x : Char) : Bool := "-?:,[]\x7b\x7d#&*!|>'\"%@`".contains x

def startsPlain (s : Scan) (x : Char) : Bool :=
  !(isBlank x || isBreak x || isIndicator x) ||
    (x = '-' && !s.cursor.sees 1 isBlank) ||
    (!s.inFlow && (x = '?' || x = ':') && !s.cursor.seesGap 1)

/-- Read one token at a place where a token starts. -/
def next (s : Scan) (x : Char) : Option Scan :=
  let c := s.cursor
  if c.column = 0 ∧ x = '%' then s.directive
  else if c.atMarker '-' then s.documentMarker .documentStart
  else if c.atMarker '.' then s.documentMarker .documentEnd
  else if x = '[' then s.flowStart .flowSequenceStart
  else if x = '{' then s.flowStart .flowMappingStart
  else if x = ']' then s.flowEnd .flowSequenceEnd
  else if x = '}' then s.flowEnd .flowMappingEnd
  else if x = ',' then s.flowEntry
  else if x = '-' ∧ c.seesGap 1 then s.blockEntry
  else if x = '?' ∧ (s.inFlow ∨ c.seesGap 1) then s.explicitKey
  else if x = ':' ∧ (s.inFlow ∨ c.seesGap 1) then s.value
  else if x = '*' then s.anchor .alias
  else if x = '&' then s.anchor .anchor
  else if x = '!' then s.tag
  else if x = '|' ∧ !s.inFlow then s.blockScalar false
  else if x = '>' ∧ !s.inFlow then s.blockScalar true
  else if x = '\'' then s.quotedScalar false
  else if x = '"' then s.quotedScalar true
  else if s.startsPlain x then s.plainScalar
  else none

/-- All tokens from here to the end of the text. -/
def run : (fuel : Nat) → Scan → Option (List Token)
  | 0, _ => none
  | fuel + 1, s =>
    let s := s.skipGap (s.cursor.rest.length + 1)
    match s.dropStale with
    | none => none
    | some s =>
      match s.cursor.head? with
      | none => ((s.close none).dropMark).map (·.tokens.reverse)
      | some x =>
        match (s.close (some s.cursor.column)).next x with
        | none => none
        | some s => run fuel s

end Scan

/-- The tokens of a document, if every character is allowed and every token well formed. -/
def scan? (text : String) : Option (List Token) :=
  let chars := unifyBreaks text.toList
  if chars.all isAllowed then
    let chars := if chars.head?.any isByteOrderMark then chars.tail else chars
    Scan.run (chars.length + 2) { cursor := ⟨chars, 0, 0, 0⟩ }
  else none

end Token

end SymbolIndex.Yaml
