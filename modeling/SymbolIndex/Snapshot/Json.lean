import SymbolIndex.Snapshot
import SymbolIndex.Symbol.Json

/-! Snapshots in JSON. -/

namespace SymbolIndex.Snapshot

def symbolsToJson (m : OrderedMap SymbolId SymbolView) : Json :=
  .object (m.entries.map fun e => (e.1.key, e.2.toJson))

def symbolsOfJson? : Json → Option (OrderedMap SymbolId SymbolView) :=
  Json.map? SymbolId.ofKey? SymbolView.ofJson?

def timeToJson (t : Timestamp) : Json := .ofInt t.toInt

def toJson (s : Snapshot) : Json := .ofFields [
  ("path", s.path.toJson),
  ("last_modified", timeToJson s.modified),
  ("args", .ofList Json.ofText s.args),
  ("dependencies", .ofFields (s.dependencies.entries.map fun e =>
    (e.1.text, Json.ofOption timeToJson e.2))),
  ("types", symbolsToJson s.symbols.types),
  ("funcs", symbolsToJson s.symbols.funcs),
  ("vars", symbolsToJson s.symbols.vars)]

def pathOfKey? (key : Bytes) : Option Path := (Json.bodyText? key).map .mk

def ofJson? (j : Json) : Option Snapshot := do
  let m ← j.members? ["path", "last_modified", "args", "dependencies", "types", "funcs", "vars"]
  return {
    path := ← m.required "path" Path.ofJson?
    modified := ← m.required "last_modified" Json.i64?
    args := ← m.required "args" (Json.list? Json.text?)
    dependencies := ← m.required "dependencies"
      (Json.map? pathOfKey? (Json.option? Json.i64?))
    symbols := {
      types := ← m.required "types" symbolsOfJson?
      funcs := ← m.required "funcs" symbolsOfJson?
      vars := ← m.required "vars" symbolsOfJson? } }

end SymbolIndex.Snapshot
