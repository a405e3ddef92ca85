import SymbolIndex.Cache.Payload
import SymbolIndex.Cache.Format
import SymbolIndex.Json.Document

/-! The envelope of a cache entry: who wrote it for which source, and a hash of the text that was
saved with it. Its leading fields form a header that is read on its own. -/

namespace SymbolIndex

/-- Entries of another major version are not read; minor versions are compatible. -/
structure SchemaVersion where
  major : UInt32
  minor : UInt32
  deriving DecidableEq, Inhabited

structure EnvelopeHeader where
  version : SchemaVersion
  source : String
  modified : Timestamp
  deriving DecidableEq, Inhabited

structure Envelope (α : Type) where
  header : EnvelopeHeader
  textHash : UInt64
  payload : α
  deriving DecidableEq

namespace SchemaVersion

def toJson (v : SchemaVersion) : Json := .ofFields [
  ("major", .ofNat v.major.toNat), ("minor", .ofNat v.minor.toNat)]

def ofJson? (j : Json) : Option SchemaVersion := do
  let m ← j.members? ["major", "minor"]
  return {
    major := ← m.required "major" Json.u32?
    minor := ← m.required "minor" Json.u32? }

def toBinary (v : SchemaVersion) : Bytes := Binary.u32 v.major ++ Binary.u32 v.minor

def ofBinary : Binary.Reader SchemaVersion := fun bytes => do
  let (major, bytes) ← Binary.readU32 bytes
  let (minor, bytes) ← Binary.readU32 bytes
  return (⟨major, minor⟩, bytes)

end SchemaVersion

namespace EnvelopeHeader

def names : List String := ["version", "source_path", "last_modified"]

def fields (h : EnvelopeHeader) : List (String × Json) := [
  ("version", h.version.toJson), ("source_path", .ofText h.source),
  ("last_modified", .ofInt h.modified.toInt)]

def ofMembers? (m : Json.Members) : Option EnvelopeHeader := do
  return {
    version := ← m.required "version" SchemaVersion.ofJson?
    source := ← m.required "source_path" Json.text?
    modified := ← m.required "last_modified" Json.i64? }

def ofJson? (j : Json) : Option EnvelopeHeader := (j.members? names).bind ofMembers?

def toBinary (h : EnvelopeHeader) : Bytes :=
  h.version.toBinary ++ Binary.text h.source ++ Binary.i64 h.modified

def ofBinary : Binary.Reader EnvelopeHeader := fun bytes => do
  let (version, bytes) ← SchemaVersion.ofBinary bytes
  let (source, bytes) ← Binary.readText bytes
  let (modified, bytes) ← Binary.readI64 bytes
  return (⟨version, source, modified⟩, bytes)

end EnvelopeHeader

namespace Envelope

variable {α : Type} [Payload α]

def toJson (e : Envelope α) : Json := .ofFields (e.header.fields ++ [
  ("text_hash", .ofNat e.textHash.toNat), ("payload", Payload.toJson e.payload)])

def ofJson? (j : Json) : Option (Envelope α) := do
  let m ← j.members? (EnvelopeHeader.names ++ ["text_hash", "payload"])
  return {
    header := ← EnvelopeHeader.ofMembers? m
    textHash := ← m.required "text_hash" Json.u64?
    payload := ← m.required "payload" Payload.ofJson? }

def toBinary (e : Envelope α) : Bytes :=
  e.header.toBinary ++ Binary.u64 e.textHash ++ Payload.toBinary e.payload

def ofBinary : Binary.Reader (Envelope α) := fun bytes => do
  let (header, bytes) ← EnvelopeHeader.ofBinary bytes
  let (textHash, bytes) ← Binary.readU64 bytes
  let (payload, bytes) ← Payload.ofBinary bytes
  return (⟨header, textHash, payload⟩, bytes)

def encode (f : CacheFormat) (e : Envelope α) : Bytes :=
  match f with
  | .json => e.toJson.render
  | .binary => e.toBinary

/-- The envelope that the whole input writes. -/
def decode? (f : CacheFormat) (bytes : Bytes) : Option (Envelope α) :=
  match f with
  | .json => (Json.parse? bytes).bind ofJson?
  | .binary => Binary.decode? ofBinary bytes

end Envelope

/-- The header of an envelope: the whole document in JSON, the front of the input in binary. -/
def EnvelopeHeader.decode? (f : CacheFormat) (bytes : Bytes) : Option EnvelopeHeader :=
  match f with
  | .json => (Json.parse? bytes).bind EnvelopeHeader.ofJson?
  | .binary => Binary.decodeFront? EnvelopeHeader.ofBinary bytes

end SymbolIndex
