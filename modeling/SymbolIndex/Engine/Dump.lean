import SymbolIndex.Cache.SlotName
import SymbolIndex.Engine
import SymbolIndex.Json.Document
import SymbolIndex.Record.Json
import SymbolIndex.Sessions

/-! An engine that reads records dumped by a front end that ran before. Decoded dumps are kept until
their file changes. -/

namespace SymbolIndex

structure Dump where
  /-- The modification time of the dump's file. -/
  modified : Option Timestamp
  records : List Record
  deriving DecidableEq

structure DumpEngine where
  directory : Path
  sessions : Sessions Dump
  deriving DecidableEq

namespace DumpEngine

/-- How many dumps are kept. -/
def capacity : Nat := 32

def new (directory : Path) : DumpEngine := ⟨directory, .new capacity⟩

def dumpPath (e : DumpEngine) (p : Path) : Path :=
  e.directory.join ⟨SlotName.ofText p.text ++ ".json"⟩

inductive DumpError
  | missing (dump : Path) (cause : DiskError)
  | malformed (dump : Path)
  deriving DecidableEq

def DumpError.message : DumpError → String
  | .missing dump cause => s!"no dump at {dump.text}: {cause.message}"
  | .malformed dump => s!"malformed dump {dump.text}"

def readDump (d : Disk) (dump : Path) : Except DumpError Dump :=
  match d.read dump with
  | .error cause => .error (.missing dump cause)
  | .ok bytes =>
    match (Json.parse? bytes).bind (Json.list? Record.ofJson?) with
    | some records => .ok ⟨d.modified? dump, records⟩
    | none => .error (.malformed dump)

/-- The sessions after the one for a path was dropped if its dump has changed. -/
def checked (e : DumpEngine) (d : Disk) (p : Path) : Sessions Dump × Option (List Record) :=
  match e.sessions.get p with
  | (sessions, none) => (sessions, none)
  | (sessions, some dump) =>
    if dump.modified.isSome ∧ dump.modified = d.modified? (e.dumpPath p) then
      (sessions, some dump.records)
    else ((sessions.take p).1, none)

def extract (e : DumpEngine) (d : Disk) (p : Path) : DumpEngine × Except DumpError (List Record) :=
  match e.checked d p with
  | (sessions, some records) => ({ e with sessions }, .ok records)
  | (sessions, none) =>
    let (sessions, dump) := Sessions.getOrCreate sessions p (readDump d (e.dumpPath p))
    ({ e with sessions }, dump.map (·.records))

end DumpEngine

instance : Engine DumpEngine where
  extract e d p _ _ :=
    match e.extract d p with
    | (e, .ok records) => (e, .records records)
    | (e, .error cause) => (e, .failed cause.message)

end SymbolIndex
