import SymbolIndex.Snapshot

/-! Deltas: what moves the index from one snapshot of a file to the next. Ids that disappeared are
listed, and every id still present carries the elements its lists gained and lost. -/

namespace SymbolIndex

structure ListDelta (α : Type) where
  added : List α := []
  removed : List α := []
  deriving DecidableEq, Inhabited

namespace ListDelta

variable {α : Type} [Ord α]

def between (previous current : OrderedSet α) : ListDelta α :=
  ⟨current.difference previous, previous.difference current⟩

/-- Removals go first, so an element both removed and added stays. -/
def applyTo [Std.TransOrd α] (d : ListDelta α) (s : OrderedSet α) : OrderedSet α :=
  (s.eraseAll d.removed).insertAll d.added

omit [Ord α] in
def isEmpty (d : ListDelta α) : Bool := d.added.isEmpty && d.removed.isEmpty

end ListDelta

/-- What changed in a file's view of a symbol it still mentions. -/
structure ViewUpdate where
  id : SymbolId
  info : Option SymbolInfo := none
  declarations : ListDelta Span := {}
  uses : ListDelta Use := {}
  relations : OrderedMap RelationKind (ListDelta SymbolId) := ∅
  deriving DecidableEq, Inhabited

namespace ViewUpdate

/-- Relations that did not change are left out. -/
def between (id : SymbolId) (previous current : SymbolView) : ViewUpdate where
  id := id
  info := current.info
  declarations := .between previous.declarations current.declarations
  uses := .between previous.uses current.uses
  relations := .ofList (RelationKind.all.filterMap fun k =>
    let d := ListDelta.between (previous.related k) (current.related k)
    if d.isEmpty then none else some (k, d))

/-- A relation left without targets is dropped. -/
def applyRelation (relations : OrderedMap RelationKind (OrderedSet SymbolId))
    (change : RelationKind × ListDelta SymbolId) :
    OrderedMap RelationKind (OrderedSet SymbolId) :=
  relations.alter change.1 fun held =>
    let targets := change.2.applyTo (held.getD ∅)
    if targets.isEmpty then none else some targets

def applyTo (u : ViewUpdate) (v : SymbolView) : SymbolView where
  info := u.info
  declarations := u.declarations.applyTo v.declarations
  uses := u.uses.applyTo v.uses
  relations := u.relations.entries.foldl applyRelation v.relations

end ViewUpdate

structure CategoryDelta where
  removed : List SymbolId := []
  updates : List ViewUpdate := []
  deriving DecidableEq, Inhabited

namespace CategoryDelta

def between (previous current : OrderedMap SymbolId SymbolView) : CategoryDelta where
  removed := previous.keys.filter fun id => !current.contains id
  updates := current.entries.map fun e =>
    .between e.1 ((previous.find? e.1).getD .empty) e.2

def removal (previous : OrderedMap SymbolId SymbolView) : CategoryDelta where
  removed := previous.keys

def size (d : CategoryDelta) : Nat := d.removed.length + d.updates.length

end CategoryDelta

/-- What one file changes in the index. -/
structure FileDelta where
  path : Path
  /-- The snapshot on record once the delta is applied; none removes the file. -/
  snapshot : Option Snapshot
  changes : PerCategory CategoryDelta
  deriving DecidableEq, Inhabited

namespace FileDelta

def isRemoval (d : FileDelta) : Bool := d.snapshot.isNone

def size (d : FileDelta) : Nat :=
  d.changes.types.size + d.changes.funcs.size + d.changes.vars.size

def isEmpty (d : FileDelta) : Bool := d.size = 0

/-- From one snapshot of a file, if there was one, to the next. -/
def between (previous : Option Snapshot) (current : Snapshot) : FileDelta where
  path := current.path
  snapshot := some current
  changes := .build fun c =>
    .between ((previous.map (·.symbols.get c)).getD ∅) (current.symbols.get c)

def removal (previous : Snapshot) : FileDelta where
  path := previous.path
  snapshot := none
  changes := .build fun c => .removal (previous.symbols.get c)

end FileDelta

/-- A batch of file deltas, applied in order. -/
abbrev Delta := List FileDelta

end SymbolIndex
