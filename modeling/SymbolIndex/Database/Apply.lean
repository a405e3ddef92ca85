import SymbolIndex.Database

/-! Applying deltas to the database. -/

namespace SymbolIndex

structure ApplyStats where
  filesUpdated : Nat := 0
  filesRemoved : Nat := 0
  symbolsCreated : Nat := 0
  symbolsRemoved : Nat := 0
  updates : Nat := 0
  deriving DecidableEq, Inhabited

def ApplyStats.add (a b : ApplyStats) : ApplyStats where
  filesUpdated := a.filesUpdated + b.filesUpdated
  filesRemoved := a.filesRemoved + b.filesRemoved
  symbolsCreated := a.symbolsCreated + b.symbolsCreated
  symbolsRemoved := a.symbolsRemoved + b.symbolsRemoved
  updates := a.updates + b.updates

/-- A removal left behind something that its file had contributed. -/
structure LeftBehind where
  path : Path
  deriving DecidableEq, Inhabited

def LeftBehind.message (e : LeftBehind) : String :=
  s!"removal delta for {e.path.text} left contributions behind"

namespace Database

/-- The category that answers for an id once `c` no longer holds it. -/
def redispatch (db : Database) (c : Category) (id : SymbolId) : OrderedMap SymbolId Category :=
  if db.dispatch.find? id = some c then
    match Category.all.find? fun d => (db.definitions.get d).contains id with
    | some other => db.dispatch.insert id other
    | none => db.dispatch.erase id
  else db.dispatch

/-- Keep `d` for an id, or nothing when it has no contributions. -/
def putDefinition (db : Database) (c : Category) (id : SymbolId) (d : Definition) : Database :=
  { db with definitions := db.definitions.modify c fun m =>
      if d.contributions.isEmpty then m.erase id else m.insert id d }

/-- Take back a file's contribution to a symbol, and the symbol with its last contribution. -/
def retract (c : Category) (file : FileId) (state : Database × ApplyStats) (id : SymbolId) :
    Database × ApplyStats :=
  match state.1.definitionIn? c id with
  | none => state
  | some d =>
    let rest := { d with contributions := d.contributions.erase file }
    let db := state.1.putDefinition c id rest
    if rest.contributions.isEmpty then
      ({ db with dispatch := db.redispatch c id },
        { state.2 with symbolsRemoved := state.2.symbolsRemoved + 1 })
    else (db, state.2)

/-- Enter a file's update of a symbol; the first category to hold an id answers for it. -/
def contribute (c : Category) (file : FileId) (state : Database × ApplyStats) (u : ViewUpdate) :
    Database × ApplyStats :=
  let held := state.1.definitionIn? c u.id
  let d := held.getD { id := u.id, category := c }
  let db := state.1.putDefinition c u.id { d with
    contributions := d.contributions.alter file fun v => some (u.applyTo (v.getD .empty)) }
  let dispatch := if u.id.isUnknown then db.dispatch else db.dispatch.insertNew u.id c
  let created := if held.isNone then 1 else 0
  ({ db with dispatch }, { state.2 with
    symbolsCreated := state.2.symbolsCreated + created
    updates := state.2.updates + 1 })

def applyCategory (file : FileId) (state : Database × ApplyStats)
    (change : Category × CategoryDelta) : Database × ApplyStats :=
  change.2.updates.foldl (contribute change.1 file)
    (change.2.removed.foldl (retract change.1 file) state)

/-- Whether a file still contributes to a symbol of a snapshot. -/
def contributesTo (db : Database) (file : FileId) (s : Snapshot) : Bool :=
  s.entries.any fun e => (db.contribution? e.1 e.2.1 file).isSome

/-- Put the outcome of a delta on record: the file's snapshot and its includes. -/
def settle (d : FileDelta) (file : FileId) (state : Database × ApplyStats) :
    Database × ApplyStats :=
  let (db, stats) := state
  match d.snapshot with
  | some snapshot =>
    ({ db with
        includes := db.includes.setIncludes d.path snapshot.dependencies.keys
        files := db.files.insert file ⟨d.path, snapshot⟩ },
      { stats with filesUpdated := stats.filesUpdated + 1 })
  | none =>
    ({ db with includes := db.includes.remove d.path, files := db.files.erase file },
      { stats with filesRemoved := stats.filesRemoved + 1 })

def applyFile (state : Database × ApplyStats) (d : FileDelta) : Except LeftBehind (Database × ApplyStats) :=
  let (db, file) := state.1.intern d.path
  let changed := (Category.all.map fun c => (c, d.changes.get c)).foldl (applyCategory file)
    (db, state.2)
  let complete := match d.snapshot, changed.1.files.find? file with
    | none, some record => !changed.1.contributesTo file record.snapshot
    | _, _ => true
  if complete then .ok (settle d file changed) else .error ⟨d.path⟩

/-- Apply the deltas in order. -/
def apply (db : Database) (delta : Delta) : Except LeftBehind (Database × ApplyStats) :=
  delta.foldlM applyFile (db, {})

/-- Take back all that a file contributes and forget the file; none if it is not on record. -/
def removeFile (db : Database) (p : Path) : Option (Except LeftBehind (Database × ApplyStats)) :=
  (db.snapshot? p).map fun s => db.apply [.removal s]

/-- Bring the database up to date with a snapshot of a file. -/
def index (db : Database) (s : Snapshot) : Except LeftBehind (Database × ApplyStats) :=
  db.apply [.between (db.snapshot? s.path) s]

/-- A delta is only valid against the snapshot it was computed from. If the file has another one by
now, the delta is computed again from that. -/
def rebase (db : Database) (d : FileDelta) (basedOn : Option Snapshot) : FileDelta :=
  let current := db.snapshot? d.path
  if current = basedOn then d
  else match d.snapshot, current with
    | some snapshot, _ => .between current snapshot
    | none, some current => .removal current
    | none, none => d

end Database

end SymbolIndex
