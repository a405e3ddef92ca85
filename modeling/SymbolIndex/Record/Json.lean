import SymbolIndex.Record
import SymbolIndex.Symbol.Json

/-! Reading records from JSON, the form in which an engine dumps them. -/

namespace SymbolIndex

def Reference.ofJson? (j : Json) : Option Reference :=
  match j.choice? with
  | some ("local", some payload) => payload.u32?.map .entry
  | some ("external", some payload) => payload.text?.map .signature
  | some ("builtin", some payload) => payload.text?.map .builtin
  | _ => none

def EntryDefinition.ofJson? (j : Json) : Option EntryDefinition := do
  let m ← j.members? ["spell", "extent"]
  return {
    spell := ← m.required "spell" Span.ofJson?
    extent := ← m.required "extent" Span.ofJson? }

def Entry.ofJson? (j : Json) : Option Entry := do
  let m ← j.members? ["index", "category", "usr", "detailed_name", "short_name_offset",
    "short_name_len", "storage", "declarations", "definition", "declaring_type", "value_type",
    "bases", "callees", "uses"]
  return {
    index := ← m.required "index" Json.u32?
    category := ← m.required "category" Category.ofJson?
    signature := ← m.required "usr" Json.text?
    name := ← m.defaulted "detailed_name" "" Json.text?
    shortOffset := ← m.defaulted "short_name_offset" 0 Json.u16?
    shortLength := ← m.defaulted "short_name_len" 0 Json.u16?
    storage := ← m.defaulted "storage" .unspecified StorageClass.ofJson?
    declarations := ← m.defaulted "declarations" [] (Json.list? Span.ofJson?)
    definition := ← m.defaulted "definition" none (Json.option? EntryDefinition.ofJson?)
    declaringType := ← m.defaulted "declaring_type" none (Json.option? Reference.ofJson?)
    valueType := ← m.defaulted "value_type" none (Json.option? Reference.ofJson?)
    bases := ← m.defaulted "bases" [] (Json.list? Reference.ofJson?)
    callees := ← m.defaulted "callees" [] (Json.list? Reference.ofJson?)
    uses := ← m.defaulted "uses" [] (Json.list? Use.ofJson?) }

def Dependency.ofJson? (j : Json) : Option Dependency := do
  let m ← j.members? ["path", "last_modified"]
  return {
    path := ← m.required "path" Path.ofJson?
    modified := ← m.optional "last_modified" Json.i64? }

def Record.ofJson? (j : Json) : Option Record := do
  let m ← j.members? ["path", "last_modified", "text", "args", "dependencies", "entries"]
  return {
    path := ← m.required "path" Path.ofJson?
    modified := ← m.required "last_modified" Json.i64?
    text := ← m.defaulted "text" "" Json.text?
    args := ← m.defaulted "args" [] (Json.list? Json.text?)
    dependencies := ← m.defaulted "dependencies" [] (Json.list? Dependency.ofJson?)
    entries := ← m.defaulted "entries" [] (Json.list? Entry.ofJson?) }

end SymbolIndex
