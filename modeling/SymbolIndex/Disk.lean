import SymbolIndex.Path
import SymbolIndex.Text.Bytes
import SymbolIndex.Ordered.Map

/-! A file tree as a value. Reads and writes of single files are atomic: a replaced file has its old
content or its new one and nothing in between. -/

namespace SymbolIndex

inductive Node
  | file (content : Bytes) (modified : Timestamp)
  | directory (modified : Timestamp)
  deriving DecidableEq, Inhabited

/-- Where a node is: the names from the root down. -/
abbrev Place := List (List Char)

inductive DiskError
  | notFound
  | notDirectory
  | isDirectory
  | refused
  deriving DecidableEq, Inhabited

def DiskError.message : DiskError → String
  | .notFound => "No such file or directory (os error 2)"
  | .notDirectory => "Not a directory (os error 20)"
  | .isDirectory => "Is a directory (os error 21)"
  | .refused => "Operation not permitted (os error 1)"

structure Disk where
  nodes : OrderedMap Place Node := ∅
  /-- The working directory, which relative paths start from. -/
  cwd : Path := ⟨"/"⟩
  /-- The time that files written now are stamped with. -/
  clock : Timestamp := 0
  /-- Files that can be read but neither replaced nor removed. -/
  frozen : List Place := []
  deriving DecidableEq, Inhabited

namespace Disk

open Lexical (Component)

def node? (d : Disk) (place : Place) : Option Node :=
  if place = [] then some (.directory 0) else d.nodes.find? place

def checkDirectory (d : Disk) (place : Place) : Except DiskError Unit :=
  match d.node? place with
  | some (.directory _) => .ok ()
  | some (.file _ _) => .error .notDirectory
  | none => .error .notFound

/-- Take one step from a place, which must be a directory. -/
def step (d : Disk) (place : Place) : Component Char → Except DiskError Place
  | .root => .ok []
  | .current => (d.checkDirectory place).map fun _ => place
  | .parent => (d.checkDirectory place).map fun _ => place.dropLast
  | .normal name => (d.checkDirectory place).map fun _ => place ++ [name]

def follow (d : Disk) (cs : List (Component Char)) : Except DiskError Place := cs.foldlM d.step []

/-- A path that ends in a separator or a lone dot can only name a directory. -/
def namesDirectory (p : Path) : Bool :=
  match (Lexical.split '/' p.text.toList).getLast? with
  | some piece => piece == [] || piece == ['.']
  | none => false

def absolute (d : Disk) (p : Path) : List (Component Char) := (d.cwd.join p).components

def find (d : Disk) (p : Path) : Except DiskError Node := do
  if p.text = "" then throw .notFound
  let place ← d.follow (d.absolute p)
  match d.node? place with
  | none => throw .notFound
  | some (.file content modified) =>
    if namesDirectory p then throw .notDirectory else return .file content modified
  | some (.directory modified) => return .directory modified

def read (d : Disk) (p : Path) : Except DiskError Bytes := do
  match ← d.find p with
  | .file content _ => return content
  | .directory _ => throw .isDirectory

/-- The modification time of a file or directory, if there is one. -/
def modified? (d : Disk) (p : Path) : Option Timestamp :=
  match d.find p with
  | .ok (.file _ modified) => some modified
  | .ok (.directory modified) => some modified
  | .error _ => none

/-- Take one step from a place. The directory that it comes to is made if it is missing. -/
def enter (clock : Timestamp) (state : Disk × Place) (c : Component Char) :
    Except DiskError (Disk × Place) := do
  let place ← state.1.step state.2 c
  match state.1.node? place with
  | none => return ({ state.1 with nodes := state.1.nodes.insert place (.directory clock) }, place)
  | some (.directory _) => return (state.1, place)
  | some (.file _ _) => throw .notDirectory

/-- Go where a list of components leads, making the directories that are missing. -/
def makeDirectories (d : Disk) (cs : List (Component Char)) : Except DiskError (Disk × Place) :=
  cs.foldlM (enter d.clock) (d, [])

/-- Write a file, making the directories above it. -/
def write (d : Disk) (p : Path) (content : Bytes) (modified : Timestamp) : Except DiskError Disk := do
  let cs := d.absolute p
  let (d, above) ← d.makeDirectories cs.dropLast
  let place ← d.step above (cs.getLast?.getD .root)
  match d.node? place with
  | some (.directory _) => throw .isDirectory
  | _ =>
    if d.frozen.contains place then throw .refused
    else return { d with nodes := d.nodes.insert place (.file content modified) }

/-- Replace a file as a whole, stamping it with the current time. -/
def replace (d : Disk) (p : Path) (content : Bytes) : Except DiskError Disk :=
  d.write p content d.clock

/-- Remove a file. -/
def remove (d : Disk) (p : Path) : Except DiskError Disk := do
  match ← d.find p with
  | .directory _ => throw .isDirectory
  | .file _ _ =>
    let place ← d.follow (d.absolute p)
    if d.frozen.contains place then throw .refused
    else return { d with nodes := d.nodes.erase place }

/-- Make a directory with a given modification time. -/
def makeDirectory (d : Disk) (p : Path) (modified : Timestamp) : Disk :=
  match d.makeDirectories (d.absolute p) with
  | .ok (d, place) => { d with nodes := d.nodes.insert place (.directory modified) }
  | .error _ => d

/-- Remove whatever a path names, with all below it. -/
def removeAll (d : Disk) (p : Path) : Disk :=
  match d.follow (d.absolute p) with
  | .ok place => { d with nodes := d.nodes.filter fun q _ => !place.isPrefixOf q }
  | .error _ => d

/-- Put a file in the place of whatever a path names, if that can be done. -/
def put (d : Disk) (p : Path) (content : Bytes) (modified : Timestamp) : Disk :=
  ((d.removeAll p).write p content modified).toOption.getD d

/-- The names in a directory, ascending. -/
def list (d : Disk) (p : Path) : List String :=
  match d.follow (d.absolute p) with
  | .ok place =>
    d.nodes.keys.filterMap fun q =>
      if q.dropLast == place then q.getLast?.map String.ofList else none
  | .error _ => []

/-- The text of a file; none if it is not UTF-8. -/
def readText? (d : Disk) (p : Path) : Except DiskError (Option String) :=
  (d.read p).map Bytes.text?

end Disk

end SymbolIndex
