import SymbolIndex.Delta
import SymbolIndex.IncludeGraph

/-! The symbol database. Every symbol keeps one view per contributing file, and what is known about
it as a whole is computed from these views when asked for, so taking one file back leaves what
others said untouched. A symbol without contributions is not kept. -/

namespace SymbolIndex

/-- Paths are numbered in the order in which the database met them. The numbers go on without end: that a
word of 32 bits holds no more than 2 ^ 32 of them, and gives all paths after that the last one, is left
out. -/
abbrev FileId := Nat

/-- A symbol with the views of every file that mentions it. -/
structure Definition where
  id : SymbolId
  category : Category
  contributions : OrderedMap FileId SymbolView := ∅
  deriving DecidableEq, Inhabited

namespace Definition

/-- The number of contributing files. -/
def provenance (d : Definition) : Nat := d.contributions.size

/-- The lowest file that defines the symbol, with what it says. -/
def definition? (d : Definition) : Option (FileId × SymbolInfo) :=
  d.contributions.entries.findSome? fun e =>
    (e.2.info.filter SymbolInfo.isDefinition).map (e.1, ·)

/-- The definition's fields, or else those of the first file that gives any. -/
def info? (d : Definition) : Option SymbolInfo :=
  (d.definition?.map (·.2)) <|> d.contributions.values.findSome? (·.info)

def name (d : Definition) : String :=
  match d.info? with
  | some info => info.name
  | none => ""

def declarations (d : Definition) : List (FileId × Span) :=
  d.contributions.entries.flatMap fun e => e.2.declarations.toList.map (e.1, ·)

def uses (d : Definition) : List (FileId × Use) :=
  d.contributions.entries.flatMap fun e => e.2.uses.toList.map (e.1, ·)

/-- The targets of a relation in any contribution. -/
def related (d : Definition) (kind : RelationKind) : OrderedSet SymbolId :=
  .ofList (d.contributions.values.flatMap fun v => (v.related kind).toList)

end Definition

/-- A file on record: what it contributes now, which the next delta is computed against. -/
structure FileRecord where
  path : Path
  snapshot : Snapshot
  deriving DecidableEq, Inhabited

structure Database where
  /-- The path of each file id. -/
  paths : List Path := []
  files : OrderedMap FileId FileRecord := ∅
  definitions : PerCategory (OrderedMap SymbolId Definition) := .same ∅
  /-- The category that answers for an id. -/
  dispatch : OrderedMap SymbolId Category := ∅
  includes : IncludeGraph := {}
  deriving DecidableEq, Inhabited

namespace Database

def empty : Database := {}

def fileId? (db : Database) (p : Path) : Option FileId := db.paths.findIdx? p.same

def pathOf? (db : Database) (file : FileId) : Option Path := db.paths[file]?

/-- The id of a path, new if the path is. -/
def intern (db : Database) (p : Path) : Database × FileId :=
  match db.fileId? p with
  | some file => (db, file)
  | none => ({ db with paths := db.paths ++ [p] }, db.paths.length)

def file? (db : Database) (p : Path) : Option FileRecord := (db.fileId? p).bind db.files.find?

def snapshot? (db : Database) (p : Path) : Option Snapshot := (db.file? p).map (·.snapshot)

def definitionIn? (db : Database) (c : Category) (id : SymbolId) : Option Definition :=
  (db.definitions.get c).find? id

def categoryOf? (db : Database) (id : SymbolId) : Option Category := db.dispatch.find? id

/-- The definition of an id in the category that answers for it. -/
def definition? (db : Database) (id : SymbolId) : Option Definition :=
  (db.categoryOf? id).bind (db.definitionIn? · id)

/-- What a file contributes to a symbol. -/
def contribution? (db : Database) (c : Category) (id : SymbolId) (file : FileId) :
    Option SymbolView :=
  (db.definitionIn? c id).bind (·.contributions.find? file)

end Database

end SymbolIndex
