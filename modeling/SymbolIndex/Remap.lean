import SymbolIndex.Record
import SymbolIndex.Snapshot

/-! Remapping: from a record, whose entries are linked by local indices, to a snapshot keyed by
symbol id. Every relation is entered at both ends, so a file also contributes to symbols that it
only mentions. -/

namespace SymbolIndex

structure RemapStats where
  entries : Nat := 0
  /-- Ids the index did not know. -/
  newSymbols : Nat := 0
  /-- Ids the index knows under another category. -/
  categoryMismatches : Nat := 0
  /-- Entries without a signature. -/
  unknownSignatures : Nat := 0
  danglingRefs : Nat := 0
  unresolvedBuiltins : Nat := 0
  /-- Entries whose id an earlier entry uses under another category. -/
  categoryConflicts : Nat := 0
  deriving DecidableEq, Inhabited

namespace Remap

inductive Resolution
  | target (id : SymbolId)
  | nameless
  | dangling
  | unknownBuiltin
  deriving DecidableEq

def Resolution.ofId (id : SymbolId) : Resolution :=
  if id.isUnknown then .nameless else .target id

def Resolution.target? : Resolution → Option SymbolId
  | .target id => some id
  | _ => none

abbrev Identified := List (SymbolId × Entry)

def identified (r : Record) : Identified := r.entries.map fun e => (.ofSignature e.signature, e)

/-- The id at a local index; the last entry with that index counts. -/
def atIndex? (entries : Identified) (index : UInt32) : Option SymbolId :=
  (entries.reverse.find? fun e => e.2.index = index).map (·.1)

/-- The category of the first entry with an id. -/
def claimed? (entries : Identified) (id : SymbolId) : Option Category :=
  if id.isUnknown then none else (entries.find? fun e => e.1 = id).map (·.2.category)

def resolve (entries : Identified) : Reference → Resolution
  | .entry index =>
    match atIndex? entries index with
    | some id => .ofId id
    | none => .dangling
  | .signature text => .ofId (.ofSignature text)
  | .builtin name =>
    match SymbolId.ofBuiltin? name with
    | some id => .target id
    | none => .unknownBuiltin

def target? (entries : Identified) (ref : Reference) : Option SymbolId :=
  (resolve entries ref).target?

def references (e : Entry) : List Reference :=
  e.declaringType.toList ++ e.valueType.toList ++ e.bases ++ e.callees

/-- What an entry says about its symbol. -/
def info (entries : Identified) (e : Entry) : SymbolInfo where
  name := e.name
  shortOffset := e.shortOffset
  shortLength := e.shortLength
  spell := e.definition.map (·.spell)
  extent := e.definition.map (·.extent)
  storage := e.storage
  declaringType := e.declaringType.bind (target? entries)
  valueType := e.valueType.bind (target? entries)

/-- Several entries may describe one symbol. The first definition wins; otherwise what is there
stays and only gaps are filled. -/
def mergeInfo (held : Option SymbolInfo) (incoming : SymbolInfo) : SymbolInfo :=
  match held with
  | none => incoming
  | some held =>
    if !held.isDefinition && incoming.isDefinition then incoming
    else
      let named := if held.name = "" then
          { held with
            name := incoming.name
            shortOffset := incoming.shortOffset
            shortLength := incoming.shortLength }
        else held
      { named with
        declaringType := held.declaringType <|> incoming.declaringType
        valueType := held.valueType <|> incoming.valueType }

/-- Enter an entry's own fields and outgoing relations. -/
def describe (entries : Identified) (e : Entry) (v : SymbolView) : SymbolView :=
  let v : SymbolView := { v with
    info := some (mergeInfo v.info (info entries e))
    declarations := v.declarations.insertAll e.declarations
    uses := v.uses.insertAll e.uses }
  let v := (e.bases.filterMap (target? entries)).foldl (fun v t => v.relate .bases t) v
  (e.callees.filterMap (target? entries)).foldl (fun v t => v.relate .callees t) v

/-- The far ends of an entry's relations: the category the target is entered under, the target and
the relation it gets. -/
def backward (entries : Identified) (e : Entry) : List (Category × SymbolId × RelationKind) :=
  (e.bases.filterMap (target? entries)).map (e.category, ·, .derived) ++
  (e.callees.filterMap (target? entries)).map (.func, ·, .callers) ++
  (e.declaringType.bind (target? entries)).toList.map (.type, ·, .members) ++
  (if e.category = .var then
    (e.valueType.bind (target? entries)).toList.map (.type, ·, .instances) else [])

/-- Whether a target takes a backward relation: not a builtin, which the whole project shares, and
not an id the record files under another category. -/
def accepts (entries : Identified) (c : Category) (target : SymbolId) : Bool :=
  !target.isBuiltin &&
    match claimed? entries target with
    | some claimed => claimed = c
    | none => true

/-- Enter one entry. Without a signature only its uses are kept, under the unknown id; with an id
that is claimed by another category it is dropped. -/
def enter (entries : Identified) (s : Snapshot) (id : SymbolId) (e : Entry) : Snapshot :=
  if id.isUnknown then
    s.update e.category .unknown fun v => { v with uses := v.uses.insertAll e.uses }
  else if claimed? entries id ≠ some e.category then s
  else
    ((backward entries e).filter fun b => accepts entries b.1 b.2.1).foldl
      (fun s b => s.update b.1 b.2.1 (·.relate b.2.2 id))
      (s.update e.category id (describe entries e))

/-- The entries that are entered under their own id. -/
def kept (entries : Identified) : Identified :=
  entries.filter fun e => !e.1.isUnknown && claimed? entries e.1 == some e.2.category

/-- The ids of a record, each once. -/
def ids (entries : Identified) : List SymbolId :=
  ((entries.map (·.1)).filter (!·.isUnknown)).eraseDups

def stats (entries : Identified) (known : SymbolId → Option Category) : RemapStats :=
  let resolutions := (kept entries).flatMap fun e => (references e.2).map (resolve entries)
  { entries := entries.length
    newSymbols := (ids entries).countP fun id => (known id).isNone
    categoryMismatches := (ids entries).countP fun id =>
      (known id).isSome && known id != claimed? entries id
    unknownSignatures := entries.countP (·.1.isUnknown)
    danglingRefs := resolutions.count .dangling
    unresolvedBuiltins := resolutions.count .unknownBuiltin
    categoryConflicts := entries.countP fun e =>
      !e.1.isUnknown && claimed? entries e.1 != some e.2.category }

end Remap

/-- Remap a record, given the working directory and the categories of known ids. -/
def Record.remap (r : Record) (cwd : Option Path) (known : SymbolId → Option Category) :
    Snapshot × RemapStats :=
  let entries := Remap.identified r
  let start : Snapshot := {
    path := r.path.normalize cwd
    modified := r.modified
    args := r.args
    dependencies := .ofList (r.dependencies.map fun d => (d.path.normalize cwd, d.modified)) }
  (entries.foldl (fun s e => Remap.enter entries s e.1 e.2) start, Remap.stats entries known)

end SymbolIndex
