import SymbolIndex.Symbol.Info
import SymbolIndex.Path

/-! What an extraction engine reports about one file. Entries of a record refer to one another by an
index that means nothing outside it, and to symbols of other files by signature. -/

namespace SymbolIndex

inductive Reference
  | entry (index : UInt32)
  | signature (text : String)
  | builtin (name : String)
  deriving DecidableEq, Inhabited

structure EntryDefinition where
  spell : Span
  extent : Span
  deriving DecidableEq, Inhabited

/-- One symbol as seen from one file; the signature is empty when the engine found none. -/
structure Entry where
  index : UInt32
  category : Category
  signature : String
  name : String := ""
  shortOffset : UInt16 := 0
  shortLength : UInt16 := 0
  storage : StorageClass := .unspecified
  declarations : List Span := []
  definition : Option EntryDefinition := none
  declaringType : Option Reference := none
  valueType : Option Reference := none
  bases : List Reference := []
  callees : List Reference := []
  uses : List Use := []
  deriving DecidableEq, Inhabited

structure Dependency where
  path : Path
  modified : Option Timestamp
  deriving DecidableEq, Inhabited

structure Record where
  path : Path
  modified : Timestamp
  text : String := ""
  args : List String := []
  dependencies : List Dependency := []
  entries : List Entry := []
  deriving DecidableEq, Inhabited

end SymbolIndex
