import SymbolIndex.Symbol.Id
import SymbolIndex.Symbol.Kind
import SymbolIndex.Symbol.Location
import SymbolIndex.Ordered.Set

/-! What one file says about one symbol. -/

namespace SymbolIndex

/-- Names and definition fields of a symbol. Only the file that defines it gives `spell`, the range
of its name, and `extent`, the range of the whole definition. -/
structure SymbolInfo where
  name : String
  shortOffset : UInt16 := 0
  shortLength : UInt16 := 0
  spell : Option Span := none
  extent : Option Span := none
  storage : StorageClass := .unspecified
  declaringType : Option SymbolId := none
  valueType : Option SymbolId := none
  deriving DecidableEq, Inhabited

namespace SymbolInfo

def isDefinition (info : SymbolInfo) : Bool := info.spell.isSome

/-- The marked part of the name, or the whole name when the mark is empty or cuts a character. -/
def shortName (info : SymbolInfo) : String :=
  let bytes := Bytes.ofText info.name
  let stop := info.shortOffset.toNat + info.shortLength.toNat
  let part := (bytes.take stop).drop info.shortOffset.toNat
  if stop ≤ bytes.length ∧ part ≠ [] then (Bytes.text? part).getD info.name else info.name

end SymbolInfo

/-- One file's view of one symbol. -/
structure SymbolView where
  info : Option SymbolInfo := none
  declarations : OrderedSet Span := ∅
  uses : OrderedSet Use := ∅
  relations : OrderedMap RelationKind (OrderedSet SymbolId) := ∅
  deriving DecidableEq, Inhabited

namespace SymbolView

def empty : SymbolView := {}

def relate (v : SymbolView) (kind : RelationKind) (target : SymbolId) : SymbolView :=
  { v with relations := v.relations.alter kind fun held => some ((held.getD ∅).insert target) }

/-- The targets of one relation; a relation that is not listed has none. -/
def related (v : SymbolView) (kind : RelationKind) : OrderedSet SymbolId :=
  (v.relations.find? kind).getD ∅

def isDefinition (v : SymbolView) : Bool :=
  match v.info with
  | some info => info.isDefinition
  | none => false

end SymbolView

end SymbolIndex
