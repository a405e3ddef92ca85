import SymbolIndex.Cache.Envelope
import SymbolIndex.Cache.SlotName

/-! The cache on disk. Every source file owns two files: one with its text as it was, and one with
the envelope of its entry. Loading never fails loudly: whatever cannot be used reads as nothing. -/

namespace SymbolIndex

structure CacheEntry (α : Type) where
  modified : Timestamp
  text : String
  payload : α
  deriving DecidableEq

structure CacheStore where
  root : Path
  format : CacheFormat
  version : SchemaVersion
  deriving DecidableEq, Inhabited

namespace CacheStore

variable {α : Type} [Payload α]

def textPath (s : CacheStore) (source : Path) : Path :=
  s.root.join ⟨SlotName.ofText source.text⟩

def entryPath (s : CacheStore) (source : Path) : Path :=
  s.root.join ⟨SlotName.ofText source.text ++ "." ++ s.format.fileExtension⟩

def textHash (text : String) : UInt64 := XXH3.hash64 (Bytes.ofText text)

def envelope (s : CacheStore) (source : Path) (e : CacheEntry α) : Envelope α where
  header := ⟨s.version, source.text, e.modified⟩
  textHash := textHash e.text
  payload := e.payload

/-- The header of an envelope, if it has this store's major version and is for this source. -/
def header? (s : CacheStore) (source : Path) (bytes : Bytes) : Option EnvelopeHeader :=
  (EnvelopeHeader.decode? s.format bytes).filter fun h =>
    h.version.major = s.version.major ∧ h.source = source.text

/-- The envelope with this content, if it is one for this source. -/
def envelope? (s : CacheStore) (source : Path) (bytes : Bytes) : Option (Envelope α) :=
  (s.header? source bytes).bind fun _ => Envelope.decode? s.format bytes

/-- An envelope joined with the text beside it, if they come from one save. -/
def entryOf? (e : Envelope α) (text : Bytes) : Option (CacheEntry α) :=
  match Bytes.text? text with
  | none => none
  | some text =>
    if textHash text = e.textHash then some ⟨e.header.modified, text, e.payload⟩ else none

/-- What a file holds; nothing if it cannot be read. -/
def readSlot (d : Disk) (p : Path) : Option Bytes := (d.read p).toOption

def load (s : CacheStore) (d : Disk) (source : Path) : Option (CacheEntry α) := do
  let e ← s.envelope? source (← readSlot d (s.entryPath source))
  entryOf? e (← readSlot d (s.textPath source))

def loadText (s : CacheStore) (d : Disk) (source : Path) : Option String :=
  (readSlot d (s.textPath source)).bind Bytes.text?

/-- The modification time in the entry's header. -/
def cachedTime? (s : CacheStore) (d : Disk) (source : Path) : Option Timestamp :=
  ((readSlot d (s.entryPath source)).bind (s.header? source)).map (·.modified)

def hasFreshCopy (s : CacheStore) (d : Disk) (source : Path) (modified : Timestamp) : Bool :=
  s.cachedTime? d source = some modified

/-- The first step of a save. -/
def saveText (s : CacheStore) (d : Disk) (source : Path) (e : CacheEntry α) : Except DiskError Disk :=
  d.replace (s.textPath source) (Bytes.ofText e.text)

/-- The second step of a save. -/
def saveEnvelope (s : CacheStore) (d : Disk) (source : Path) (e : CacheEntry α) :
    Except DiskError Disk :=
  d.replace (s.entryPath source) ((s.envelope source e).encode s.format)

/-- Replace the text and then the envelope; a failure in between leaves the new text. -/
def save (s : CacheStore) (d : Disk) (source : Path) (e : CacheEntry α) :
    Disk × Except CacheError Unit :=
  match s.saveText d source e with
  | .error cause => (d, .error (.disk cause))
  | .ok d =>
    match s.saveEnvelope d source e with
    | .error cause => (d, .error (.disk cause))
    | .ok d => (d, .ok ())

/-- Remove a file, unless it is missing. -/
def removeFile (d : Disk) (p : Path) : Except DiskError Disk :=
  match d.remove p with
  | .error .notFound => .ok d
  | outcome => outcome

/-- Remove the envelope and then the text. -/
def remove (s : CacheStore) (d : Disk) (source : Path) : Disk × Except CacheError Unit :=
  match removeFile d (s.entryPath source) with
  | .error cause => (d, .error (.disk cause))
  | .ok d =>
    match removeFile d (s.textPath source) with
    | .error cause => (d, .error (.disk cause))
    | .ok d => (d, .ok ())

end CacheStore

end SymbolIndex
