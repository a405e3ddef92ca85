import SymbolIndex.Binary
import SymbolIndex.Symbol.Info
import SymbolIndex.Path

/-! Symbols in the binary form: records as their fields in order, choices as their place in the list
of constructors. -/

namespace SymbolIndex

open Binary (Reader)

namespace SymbolId

def toBinary (id : SymbolId) : Bytes := Binary.u64 id.value

def ofBinary : Reader SymbolId := fun bytes => (Binary.readU64 bytes).map fun r => (⟨r.1⟩, r.2)

end SymbolId

def Path.toBinary (p : Path) : Bytes := Binary.text p.text

def Path.ofBinary : Reader Path := fun bytes => (Binary.readText bytes).map fun r => (⟨r.1⟩, r.2)

def StorageClass.toBinary (s : StorageClass) : Bytes := Binary.u32 (.ofNat s.ctorIdx)

def RelationKind.toBinary (k : RelationKind) : Bytes := Binary.u32 (.ofNat k.ctorIdx)

/-- A choice by its place in a list. -/
def Binary.readChoice {α : Type} (all : List α) : Reader α := fun bytes => do
  let (index, rest) ← Binary.readU32 bytes
  return (← all[index.toNat]?, rest)

def StorageClass.ofBinary : Reader StorageClass := Binary.readChoice StorageClass.all

def RelationKind.ofBinary : Reader RelationKind := Binary.readChoice RelationKind.all

def Span.toBinary (s : Span) : Bytes :=
  Binary.u32 s.startLine ++ Binary.u32 s.startColumn ++ Binary.u32 s.endLine ++
    Binary.u32 s.endColumn

def Span.ofBinary : Reader Span := fun bytes => do
  let (startLine, bytes) ← Binary.readU32 bytes
  let (startColumn, bytes) ← Binary.readU32 bytes
  let (endLine, bytes) ← Binary.readU32 bytes
  let (endColumn, bytes) ← Binary.readU32 bytes
  return (⟨startLine, startColumn, endLine, endColumn⟩, bytes)

def Use.toBinary (u : Use) : Bytes := u.span.toBinary ++ Binary.u16 u.role.bits

def Use.ofBinary : Reader Use := fun bytes => do
  let (span, bytes) ← Span.ofBinary bytes
  let (bits, bytes) ← Binary.readU16 bytes
  return (⟨span, ⟨bits⟩⟩, bytes)

def SymbolInfo.toBinary (info : SymbolInfo) : Bytes :=
  Binary.text info.name ++ Binary.u16 info.shortOffset ++ Binary.u16 info.shortLength ++
    Binary.option Span.toBinary info.spell ++ Binary.option Span.toBinary info.extent ++
    info.storage.toBinary ++ Binary.option SymbolId.toBinary info.declaringType ++
    Binary.option SymbolId.toBinary info.valueType

def SymbolInfo.ofBinary : Reader SymbolInfo := fun bytes => do
  let (name, bytes) ← Binary.readText bytes
  let (shortOffset, bytes) ← Binary.readU16 bytes
  let (shortLength, bytes) ← Binary.readU16 bytes
  let (spell, bytes) ← Binary.readOption Span.ofBinary bytes
  let (extent, bytes) ← Binary.readOption Span.ofBinary bytes
  let (storage, bytes) ← StorageClass.ofBinary bytes
  let (declaringType, bytes) ← Binary.readOption SymbolId.ofBinary bytes
  let (valueType, bytes) ← Binary.readOption SymbolId.ofBinary bytes
  return (⟨name, shortOffset, shortLength, spell, extent, storage, declaringType, valueType⟩, bytes)

def SymbolView.toBinary (v : SymbolView) : Bytes :=
  Binary.option SymbolInfo.toBinary v.info ++ Binary.set Span.toBinary v.declarations ++
    Binary.set Use.toBinary v.uses ++
    Binary.map RelationKind.toBinary (Binary.set SymbolId.toBinary) v.relations

def SymbolView.ofBinary : Reader SymbolView := fun bytes => do
  let (info, bytes) ← Binary.readOption SymbolInfo.ofBinary bytes
  let (declarations, bytes) ← Binary.readSet Span.ofBinary bytes
  let (uses, bytes) ← Binary.readSet Use.ofBinary bytes
  let (relations, bytes) ←
    Binary.readMap RelationKind.ofBinary (Binary.readSet SymbolId.ofBinary) bytes
  return (⟨info, declarations, uses, relations⟩, bytes)

end SymbolIndex
