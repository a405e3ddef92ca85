import SymbolIndex.Database
import SymbolIndex.Text.Lowercase

/-! Questions to the database. Answers are plain values in a fixed order. -/

namespace SymbolIndex

structure Location where
  path : Path
  span : Span
  deriving DecidableEq, Inhabited

instance : Ord Location := ⟨compareLex (compareOn Location.path) (compareOn Location.span)⟩

instance : Std.TransOrd Location :=
  inferInstanceAs (Std.TransCmp (compareLex (compareOn Location.path) (compareOn Location.span)))

structure UseSite where
  path : Path
  use : Use
  deriving DecidableEq, Inhabited

instance : Ord UseSite := ⟨compareLex (compareOn UseSite.path) (compareOn UseSite.use)⟩

instance : Std.TransOrd UseSite :=
  inferInstanceAs (Std.TransCmp (compareLex (compareOn UseSite.path) (compareOn UseSite.use)))

structure SymbolSummary where
  id : SymbolId
  category : Category
  name : String
  definition : Option Location
  deriving DecidableEq, Inhabited

structure OutlineItem where
  id : SymbolId
  category : Category
  name : String
  /-- The extent of a definition, or the range of a declaration. -/
  span : Span
  isDefinition : Bool
  deriving DecidableEq, Inhabited

structure DatabaseStats where
  files : Nat
  types : Nat
  funcs : Nat
  vars : Nat
  uses : Nat
  includeEdges : Nat
  deriving DecidableEq, Inhabited

/-- Ascending order; what compares equal stays as it was. -/
def sorted {α : Type} [Ord α] (items : List α) : List α :=
  items.mergeSort fun a b => (compare a b).isLE

namespace Database

/-- Every symbol of a category, by id. -/
def definitionsOf (db : Database) (c : Category) : List Definition := (db.definitions.get c).values

def allDefinitions (db : Database) : List Definition := Category.all.flatMap db.definitionsOf

def location? (db : Database) (file : FileId) (span : Span) : Option Location :=
  (db.pathOf? file).map (⟨·, span⟩)

/-- Where the name of a symbol's definition stands. -/
def definitionOf? (db : Database) (id : SymbolId) : Option Location := do
  let d ← db.definition? id
  let (file, info) ← d.definition?
  db.location? file (← info.spell)

def usesOf (db : Database) (id : SymbolId) : List UseSite :=
  match db.definition? id with
  | none => []
  | some d => sorted (d.uses.filterMap fun e => (db.pathOf? e.1).map (⟨·, e.2⟩))

/-- The uses that have every role of a set. -/
def usesWithRole (db : Database) (id : SymbolId) (role : Role) : List UseSite :=
  (db.usesOf id).filter fun u => u.use.role.contains role

def declarationsOf (db : Database) (id : SymbolId) : List Location :=
  match db.definition? id with
  | none => []
  | some d => sorted (d.declarations.filterMap fun e => db.location? e.1 e.2)

def related (db : Database) (id : SymbolId) (kind : RelationKind) : List SymbolId :=
  match db.definition? id with
  | none => []
  | some d => (d.related kind).toList

def summary (db : Database) (d : Definition) : SymbolSummary :=
  ⟨d.id, d.category, d.name, db.definitionOf? d.id⟩

/-- The symbols that a file declares or defines, by category and id. -/
def symbolsIn (db : Database) (p : Path) : List SymbolSummary :=
  match db.snapshot? p with
  | none => []
  | some s =>
    (s.entries.filter fun e =>
        !e.2.1.isUnknown && (!e.2.2.declarations.isEmpty || e.2.2.isDefinition)).filterMap
      fun e => (db.definitionIn? e.1 e.2.1).map db.summary

def outlineItems (e : Category × SymbolId × SymbolView) : List OutlineItem :=
  let name := (e.2.2.info.map (·.name)).getD ""
  ((e.2.2.info.bind (·.extent)).toList.map (⟨e.2.1, e.1, name, ·, true⟩)) ++
    e.2.2.declarations.toList.map (⟨e.2.1, e.1, name, ·, false⟩)

/-- A definition comes before a declaration of the same range. -/
def outlineBefore (a b : OutlineItem) : Bool :=
  ((compare a.span b.span).then (compare b.isDefinition a.isDefinition)).isLE

/-- The definitions and declarations in a file, in source order. -/
def outline (db : Database) (p : Path) : List OutlineItem :=
  match db.snapshot? p with
  | none => []
  | some s =>
    ((s.entries.filter fun e => !e.2.1.isUnknown).flatMap outlineItems).mergeSort outlineBefore

/-- Whether `part` occurs in a list. -/
def occursIn (part : List Char) : List Char → Bool
  | [] => part.isEmpty
  | c :: cs => part.isPrefixOf (c :: cs) || occursIn part cs

def nameBefore (a b : Definition) : Bool :=
  ((compare a.name.utf8ByteSize b.name.utf8ByteSize).then (compare a.name b.name)).isLE

/-- The symbols whose names contain a text in any letter case, shortest names first. -/
def search (db : Database) (text : String) (limit : Nat) : List SymbolSummary :=
  let part := (Lowercase.text text).toList
  let hits := db.allDefinitions.filter fun d =>
    d.name != "" && occursIn part (Lowercase.text d.name).toList
  ((hits.mergeSort nameBefore).take limit).map db.summary

/-- Every file that includes a path, directly or through others. -/
def dependents (db : Database) (p : Path) : List Path := db.includes.dependents p

def stats (db : Database) : DatabaseStats where
  files := db.files.size
  types := db.definitions.types.size
  funcs := db.definitions.funcs.size
  vars := db.definitions.vars.size
  uses := (db.allDefinitions.flatMap Definition.uses).length
  includeEdges := db.includes.edgeCount

end Database

end SymbolIndex
