import SymbolIndex.Snapshot
import SymbolIndex.Symbol.Binary

/-! Snapshots in the binary form. -/

namespace SymbolIndex.Snapshot

def symbolsToBinary (m : OrderedMap SymbolId SymbolView) : Bytes :=
  Binary.map SymbolId.toBinary SymbolView.toBinary m

def symbolsOfBinary : Binary.Reader (OrderedMap SymbolId SymbolView) :=
  Binary.readMap SymbolId.ofBinary SymbolView.ofBinary

def toBinary (s : Snapshot) : Bytes :=
  s.path.toBinary ++ Binary.i64 s.modified ++ Binary.list Binary.text s.args ++
    Binary.map Path.toBinary (Binary.option Binary.i64) s.dependencies ++
    symbolsToBinary s.symbols.types ++ symbolsToBinary s.symbols.funcs ++
    symbolsToBinary s.symbols.vars

def ofBinary : Binary.Reader Snapshot := fun bytes => do
  let (path, bytes) ← Path.ofBinary bytes
  let (modified, bytes) ← Binary.readI64 bytes
  let (args, bytes) ← Binary.readList Binary.readText bytes
  let (dependencies, bytes) ← Binary.readMap Path.ofBinary (Binary.readOption Binary.readI64) bytes
  let (types, bytes) ← symbolsOfBinary bytes
  let (funcs, bytes) ← symbolsOfBinary bytes
  let (vars, bytes) ← symbolsOfBinary bytes
  return (⟨path, modified, args, dependencies, ⟨types, funcs, vars⟩⟩, bytes)

end SymbolIndex.Snapshot
