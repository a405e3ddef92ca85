import SymbolIndex.Snapshot.Json
import SymbolIndex.Snapshot.Binary

/-! What a cache entry may carry: values with a JSON and a binary form. -/

namespace SymbolIndex

class Payload (α : Type) where
  toJson : α → Json
  ofJson? : Json → Option α
  toBinary : α → Bytes
  ofBinary : Binary.Reader α

instance : Payload Snapshot := ⟨Snapshot.toJson, Snapshot.ofJson?, Snapshot.toBinary, Snapshot.ofBinary⟩

instance : Payload (List String) where
  toJson := Json.ofList Json.ofText
  ofJson? := Json.list? Json.text?
  toBinary := Binary.list Binary.text
  ofBinary := Binary.readList Binary.readText

instance : Payload (OrderedMap UInt64 (Option String)) where
  toJson m := .object (m.entries.map fun e => (Json.key64 e.1, Json.ofOption Json.ofText e.2))
  ofJson? := Json.map? Json.ofKey64? (Json.option? Json.text?)
  toBinary := Binary.map Binary.u64 (Binary.option Binary.text)
  ofBinary := Binary.readMap Binary.readU64 (Binary.readOption Binary.readText)

end SymbolIndex
