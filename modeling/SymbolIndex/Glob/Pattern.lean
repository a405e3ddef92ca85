/-! The text of a glob and the pieces it stands for. -/

namespace SymbolIndex

inductive GlobPiece
  | literal (c : Char)
  /-- A question mark: any byte. -/
  | one
  /-- A star: any bytes. -/
  | many
  /-- Two stars in front: any directories, or none. -/
  | anyAbove
  /-- Two stars at the end: anything below a directory. -/
  | anyBelow
  /-- Two stars between separators: any directories, or none. -/
  | anyBetween
  | charClass (negated : Bool) (ranges : List (Char × Char))
  | alternates (branches : List (List GlobPiece))
  deriving Inhabited

inductive GlobError
  | unclosedClass
  | invalidRange (first last : Char)
  | unopenedAlternates
  | unclosedAlternates
  | danglingEscape
  deriving DecidableEq, Inhabited

def GlobError.message : GlobError → String
  | .unclosedClass => "unclosed character class; missing ']'"
  | .invalidRange first last => s!"invalid range; '{first}' > '{last}'"
  | .unopenedAlternates =>
    "unopened alternate group; missing '\x7b' (maybe escape '\x7d' with '[\x7d]'?)"
  | .unclosedAlternates =>
    "unclosed alternate group; missing '\x7d' (maybe escape '\x7b' with '[\x7b]'?)"
  | .danglingEscape => "dangling '\\'"

namespace GlobPattern

/-- A class that is being read. -/
structure ClassSoFar where
  /-- The latest range first. -/
  ranges : List (Char × Char) := []
  /-- A dash came last, which may join two characters to a range. -/
  dashed : Bool := false
  deriving Inhabited

/-- Make the latest range end at a character. -/
def ClassSoFar.extend (s : ClassSoFar) (c : Char) : Except GlobError ClassSoFar :=
  match s.ranges with
  | (first, _) :: ranges =>
    if c < first then .error (.invalidRange first c) else .ok ⟨(first, c) :: ranges, false⟩
  | [] => .ok ⟨[(c, c)], false⟩

def ClassSoFar.add (s : ClassSoFar) (c : Char) : Except GlobError ClassSoFar :=
  if s.dashed then s.extend c
  else if c = '-' ∧ s.ranges ≠ [] then .ok { s with dashed := true }
  else .ok { s with ranges := (c, c) :: s.ranges }

/-- The ranges of a class, in order; a dash that joins nothing stands for itself. -/
def ClassSoFar.close (s : ClassSoFar) : List (Char × Char) :=
  (if s.dashed then ('-', '-') :: s.ranges else s.ranges).reverse

/-- Read a class up to its closing bracket, which stands for itself in the first place. -/
def readClass (s : ClassSoFar) : List Char → Except GlobError (List (Char × Char) × List Char)
  | [] => .error .unclosedClass
  | c :: rest =>
    if c = ']' ∧ s.ranges ≠ [] then .ok (s.close, rest)
    else match s.add c with
      | .error e => .error e
      | .ok s => readClass s rest

/-- A group of alternatives that is still open. -/
structure Group where
  /-- The pieces in front of the group, the latest first. -/
  before : List GlobPiece
  /-- The alternatives that are complete, the latest first. -/
  branches : List (List GlobPiece) := []
  deriving Inhabited

structure State where
  /-- The pieces of the current alternative, the latest first. -/
  pieces : List GlobPiece := []
  /-- The open groups, the innermost first. -/
  groups : List Group := []
  /-- The character before the next one. -/
  before : Option Char := none
  deriving Inhabited

namespace State

def push (s : State) (p : GlobPiece) : State := { s with pieces := p :: s.pieces }

def openGroup (s : State) : State :=
  { s with pieces := [], groups := ⟨s.pieces, []⟩ :: s.groups }

def comma (s : State) : State :=
  match s.groups with
  | [] => s.push (.literal ',')
  | g :: groups =>
    { s with pieces := [], groups := { g with branches := s.pieces.reverse :: g.branches } :: groups }

def closeGroup (s : State) : Except GlobError State :=
  match s.groups with
  | [] => .error .unopenedAlternates
  | g :: groups =>
    let branches := (s.pieces.reverse :: g.branches).reverse
    .ok { s with pieces := .alternates branches :: g.before, groups }

/-- Replace the latest piece, unless it stands for directories already. -/
def absorb (s : State) (p : GlobPiece) : State :=
  match s.pieces with
  | .anyAbove :: _ | .anyBelow :: _ => s
  | _ :: pieces => { s with pieces := p :: pieces }
  | [] => s.push p

/-- Two stars mean directories only where they make up a whole component; elsewhere they are two
single stars. The characters behind them come back. -/
def doubleStar (s : State) (rest : List Char) : State × List Char :=
  let plain := (s.push .many).push .many
  let atStart := s.before = some '/' ∨
    (s.groups ≠ [] ∧ (s.before = some ',' ∨ s.before = some '{'))
  if s.pieces.isEmpty then
    match rest with
    | [] => (s.push .anyAbove, [])
    | '/' :: rest => ({ s.push .anyAbove with before := some '/' }, rest)
    | _ => ({ plain with before := some '*' }, rest)
  else if ¬ atStart then ({ plain with before := some '*' }, rest)
  else match rest with
    | [] => (s.absorb .anyBelow, [])
    | '/' :: rest => ({ s.absorb .anyBetween with before := some '/' }, rest)
    | c :: _ =>
      if s.groups ≠ [] ∧ (c = ',' ∨ c = '}') then
        ({ s.absorb .anyBelow with before := some '*' }, rest)
      else ({ plain with before := some '*' }, rest)

end State

def read : (fuel : Nat) → State → List Char → Except GlobError (List GlobPiece)
  | 0, s, _ | _, s, [] =>
    if s.groups = [] then .ok s.pieces.reverse else .error .unclosedAlternates
  | fuel + 1, s, c :: rest => do
    let next := { s with before := some c }
    match c with
    | '?' => read fuel (next.push .one) rest
    | '*' =>
      match rest with
      | '*' :: rest =>
        let (s, rest) := s.doubleStar rest
        read fuel s rest
      | _ => read fuel (next.push .many) rest
    | '[' =>
      let (negated, rest) := match rest with
        | '!' :: rest | '^' :: rest => (true, rest)
        | _ => (false, rest)
      let (ranges, rest) ← readClass {} rest
      read fuel ({ next with before := some ']' }.push (.charClass negated ranges)) rest
    | '{' => read fuel next.openGroup rest
    | '}' => read fuel (← next.closeGroup) rest
    | ',' => read fuel next.comma rest
    | '\\' =>
      match rest with
      | [] => throw .danglingEscape
      | c :: rest => read fuel ({ next with before := some c }.push (.literal c)) rest
    | c => read fuel (next.push (.literal c)) rest

/-- The pieces of a glob. -/
def parse (text : String) : Except GlobError (List GlobPiece) :=
  read (text.length + 1) {} text.toList

end GlobPattern

end SymbolIndex
