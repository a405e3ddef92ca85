import SymbolIndex.Json.Shape
import SymbolIndex.Symbol.Info
import SymbolIndex.Path

/-! Symbols in JSON. Ids are numbers, and decimal texts where they name the fields of a map. -/

namespace SymbolIndex

namespace SymbolId

def toJson (id : SymbolId) : Json := .ofNat id.value.toNat

def ofJson? (j : Json) : Option SymbolId := j.u64?.map .mk

def key (id : SymbolId) : Bytes := Json.key64 id.value

def ofKey? (key : Bytes) : Option SymbolId := (Json.ofKey64? key).map .mk

end SymbolId

def Path.toJson (p : Path) : Json := .ofText p.text

def Path.ofJson? (j : Json) : Option Path := j.text?.map .mk

def Category.ofJson? (j : Json) : Option Category := j.bareChoice?.bind ofName?

def StorageClass.ofJson? (j : Json) : Option StorageClass := j.bareChoice?.bind ofName?

def Span.toJson (s : Span) : Json := .ofFields [
  ("start_line", .ofNat s.startLine.toNat), ("start_column", .ofNat s.startColumn.toNat),
  ("end_line", .ofNat s.endLine.toNat), ("end_column", .ofNat s.endColumn.toNat)]

def Span.ofJson? (j : Json) : Option Span := do
  let m ← j.members? ["start_line", "start_column", "end_line", "end_column"]
  return {
    startLine := ← m.required "start_line" Json.u32?
    startColumn := ← m.required "start_column" Json.u32?
    endLine := ← m.required "end_line" Json.u32?
    endColumn := ← m.required "end_column" Json.u32? }

def Use.toJson (u : Use) : Json := .ofFields [
  ("span", u.span.toJson), ("role", .ofNat u.role.bits.toNat)]

def Use.ofJson? (j : Json) : Option Use := do
  let m ← j.members? ["span", "role"]
  return {
    span := ← m.required "span" Span.ofJson?
    role := ⟨← m.required "role" Json.u16?⟩ }

namespace SymbolInfo

def toJson (info : SymbolInfo) : Json := .ofFields [
  ("detailed_name", .ofText info.name),
  ("short_name_offset", .ofNat info.shortOffset.toNat),
  ("short_name_len", .ofNat info.shortLength.toNat),
  ("spell", .ofOption Span.toJson info.spell),
  ("extent", .ofOption Span.toJson info.extent),
  ("storage", .ofText info.storage.name),
  ("declaring_type", .ofOption SymbolId.toJson info.declaringType),
  ("value_type", .ofOption SymbolId.toJson info.valueType)]

def ofJson? (j : Json) : Option SymbolInfo := do
  let m ← j.members? ["detailed_name", "short_name_offset", "short_name_len", "spell", "extent",
    "storage", "declaring_type", "value_type"]
  return {
    name := ← m.required "detailed_name" Json.text?
    shortOffset := ← m.required "short_name_offset" Json.u16?
    shortLength := ← m.required "short_name_len" Json.u16?
    spell := ← m.optional "spell" Span.ofJson?
    extent := ← m.optional "extent" Span.ofJson?
    storage := ← m.required "storage" StorageClass.ofJson?
    declaringType := ← m.optional "declaring_type" SymbolId.ofJson?
    valueType := ← m.optional "value_type" SymbolId.ofJson? }

end SymbolInfo

namespace SymbolView

def relationsToJson (relations : OrderedMap RelationKind (OrderedSet SymbolId)) : Json :=
  .ofFields (relations.entries.map fun e => (e.1.name, .ofList SymbolId.toJson e.2.toList))

def relationOfKey? (key : Bytes) : Option RelationKind := (Json.bodyText? key).bind RelationKind.ofName?

def toJson (v : SymbolView) : Json := .ofFields [
  ("info", .ofOption SymbolInfo.toJson v.info),
  ("declarations", .ofList Span.toJson v.declarations.toList),
  ("uses", .ofList Use.toJson v.uses.toList),
  ("relations", relationsToJson v.relations)]

def ofJson? (j : Json) : Option SymbolView := do
  let m ← j.members? ["info", "declarations", "uses", "relations"]
  return {
    info := ← m.optional "info" SymbolInfo.ofJson?
    declarations := ← m.required "declarations" (Json.set? Span.ofJson?)
    uses := ← m.required "uses" (Json.set? Use.ofJson?)
    relations := ← m.required "relations" (Json.map? relationOfKey? (Json.set? SymbolId.ofJson?)) }

end SymbolView

end SymbolIndex
