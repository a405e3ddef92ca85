import SymbolIndex.Glob.Pattern
import SymbolIndex.Text.Bytes

/-! Globs, matched against the bytes of a whole path. A star also matches separators. -/

namespace SymbolIndex

structure Glob where
  text : String
  pieces : List GlobPiece
  deriving Inhabited

namespace Glob

def separator : UInt8 := 47

def dot : UInt8 := 46

/-- Drop repeated ends of a path; two ends of one path are the same if they are equally long. -/
def distinct (ends : List Bytes) : List Bytes :=
  ends.eraseDupsBy fun a b => a.length == b.length

/-- The ends of a path behind each of its separators. -/
def behindSeparators : Bytes → List Bytes
  | [] => []
  | b :: rest => if b = separator then rest :: behindSeparators rest else behindSeparators rest

def behindSeparator : Bytes → List Bytes
  | b :: rest => if b = separator then [rest] else []
  | [] => []

/-- What is left of a path when bytes are taken off its front. -/
def behindText (text : Bytes) (path : Bytes) : List Bytes :=
  if text.isPrefixOf path then [path.drop text.length] else []

def charBytes (c : Char) : Bytes := String.utf8EncodeChar c

/-- The ranges of bytes that a range of characters stands for: between the last byte of the first
character and the first byte of the last one, with their other bytes on their own. -/
def byteRanges (range : Char × Char) : List (UInt8 × UInt8) :=
  let alone (bytes : Bytes) : List (UInt8 × UInt8) := bytes.map fun b => (b, b)
  let first := charBytes range.1
  if range.1 = range.2 then alone first
  else
    let last := charBytes range.2
    alone first.dropLast ++ [(first.getLast?.getD 0, last.head?.getD 0)] ++ alone last.tail

def inClass (negated : Bool) (ranges : List (Char × Char)) (b : UInt8) : Bool :=
  ((ranges.flatMap byteRanges).any fun r => r.1 ≤ b ∧ b ≤ r.2) != negated

def suffixes : Bytes → List Bytes
  | [] => [[]]
  | b :: rest => (b :: rest) :: suffixes rest

mutual

/-- Whether a piece is a group without anything in it. -/
def isVoid : GlobPiece → Bool
  | .alternates branches => allVoid branches
  | _ => false

def allVoid : List (List GlobPiece) → Bool
  | [] => true
  | branch :: branches => branchVoid branch && allVoid branches

def branchVoid : List GlobPiece → Bool
  | [] => true
  | piece :: pieces => isVoid piece && branchVoid pieces

end

mutual

/-- The ends of a path that can be left when a piece has matched its front. -/
def pieceEnds (path : Bytes) : GlobPiece → List Bytes
  | .literal c => behindText (charBytes c) path
  | .one => path.tail?.toList
  | .many => suffixes path
  | .anyAbove => path :: behindSeparators path
  | .anyBelow => (behindSeparator path).flatMap suffixes
  | .anyBetween => (behindSeparator path).flatMap fun rest => rest :: behindSeparators rest
  | .charClass negated ranges =>
    match path with
    | b :: rest => if inClass negated ranges b then [rest] else []
    | [] => []
  | .alternates branches => if allVoid branches then [path] else distinct (branchEnds path branches)

/-- An alternative with nothing in it is dropped. -/
def branchEnds (path : Bytes) : List (List GlobPiece) → List Bytes
  | [] => []
  | branch :: branches =>
    (if branchVoid branch then [] else ends [path] branch) ++ branchEnds path branches

def ends (paths : List Bytes) : List GlobPiece → List Bytes
  | [] => paths
  | piece :: pieces => ends (distinct (paths.flatMap fun path => pieceEnds path piece)) pieces

end

def isLiteral : GlobPiece → Bool
  | .literal _ => true
  | _ => false

def isChar (c : Char) : GlobPiece → Bool
  | .literal d => c == d
  | _ => false

/-- A glob that ends in a dot is looked up by file name or extension, and a name that ends in a dot
counts as having neither. Only fixed text is compared as it stands, alone or at the end of a path. -/
def endsInLooseDot (pieces : List GlobPiece) : Bool :=
  (pieces.getLast?.any (isChar '.')) &&
    match pieces with
    | .many :: rest | .anyAbove :: .many :: rest => rest.length == 1 || !rest.all isLiteral
    | .anyAbove :: rest => !rest.all isLiteral || !rest.any (isChar '/')
    | rest => !rest.all isLiteral

/-- Two stars alone match every path. -/
def isEverything : List GlobPiece → Bool
  | [.anyAbove] => true
  | _ => false

def matchesBytes (g : Glob) (path : Bytes) : Bool :=
  isEverything g.pieces ||
    (!endsInLooseDot g.pieces && (ends [path] g.pieces).any List.isEmpty)

def parse (text : String) : Except GlobError Glob := (GlobPattern.parse text).map (⟨text, ·⟩)

end Glob

end SymbolIndex
