import SymbolIndex.Cache.Store
import SymbolIndex.Proofs.Snapshot.Binary
import SymbolIndex.Proofs.Snapshot.Json

/-! Envelopes are read back in both formats. In the binary format an envelope beyond the decoding
limit is written and cannot be read. -/

namespace SymbolIndex

/-- Payloads that are read back from both of their forms. -/
structure Payload.Faithful (α : Type) [Payload α] : Prop where
  json : Json.Restores Payload.toJson (Payload.ofJson? : Json → Option α)
  binary : Binary.Reads Payload.toBinary (Payload.ofBinary : Binary.Reader α)

theorem Snapshot.faithful : Payload.Faithful Snapshot := ⟨restores_snapshot, reads_snapshot⟩

theorem restores_schemaVersion : Json.Restores SchemaVersion.toJson SchemaVersion.ofJson? where
  writable v := Json.writable_ofFields (by simp [Json.writable_ofNat])
  reads v := by
    rw [SchemaVersion.ofJson?, SchemaVersion.toJson, Json.members?_record]
    · simp [Json.Members.required, List.lookup_cons, Json.restores_u32.reads]
    · rfl
    · decide

theorem reads_schemaVersion : Binary.Reads SchemaVersion.toBinary SchemaVersion.ofBinary where
  nonempty v := by
    have h := Binary.reads_u32.nonempty v.major
    simp only [SchemaVersion.toBinary, List.length_append]
    omega
  reads v rest h := by
    simp only [SchemaVersion.toBinary, List.length_append] at h
    simp (disch := omega) [SchemaVersion.toBinary, SchemaVersion.ofBinary, Binary.reads_u32.reads]

theorem reads_envelopeHeader : Binary.Reads EnvelopeHeader.toBinary EnvelopeHeader.ofBinary where
  nonempty h := by
    have hv := reads_schemaVersion.nonempty h.version
    simp only [EnvelopeHeader.toBinary, List.length_append]
    omega
  reads h rest hlen := by
    simp only [EnvelopeHeader.toBinary, List.length_append] at hlen
    simp (disch := omega) [EnvelopeHeader.toBinary, EnvelopeHeader.ofBinary,
      reads_schemaVersion.reads, Binary.reads_text.reads, Binary.reads_i64.reads]

namespace Envelope

variable {α : Type} [Payload α]

theorem reads (hp : Payload.Faithful α) :
    Binary.Reads (Envelope.toBinary : Envelope α → Bytes) Envelope.ofBinary where
  nonempty e := by
    have h := reads_envelopeHeader.nonempty e.header
    simp only [Envelope.toBinary, List.length_append]
    omega
  reads e rest h := by
    simp only [Envelope.toBinary, List.length_append] at h
    simp (disch := omega) [Envelope.toBinary, Envelope.ofBinary, reads_envelopeHeader.reads,
      Binary.reads_u64.reads, hp.binary.reads]

theorem restores (hp : Payload.Faithful α) :
    Json.Restores (Envelope.toJson : Envelope α → Json) Envelope.ofJson? where
  writable e := Json.writable_ofFields (by
    simp [EnvelopeHeader.fields, Json.writable_ofNat, Json.writable_ofInt,
      restores_schemaVersion.writable, Json.restores_text.writable, hp.json.writable])
  reads e := by
    rw [Envelope.ofJson?, Envelope.toJson, Json.members?_record]
    · simp [EnvelopeHeader.fields, EnvelopeHeader.ofMembers?, Json.Members.required, List.lookup_cons,
        restores_schemaVersion.reads, Json.restores_text.reads, Json.restores_i64.reads,
        Json.restores_u64.reads, hp.json.reads]
    · rfl
    · decide

theorem header_ofJson? (e : Envelope α) : EnvelopeHeader.ofJson? e.toJson = some e.header := by
  rw [EnvelopeHeader.ofJson?, Envelope.toJson, Json.members?_ofFields]
  · simp [EnvelopeHeader.fields, EnvelopeHeader.names, EnvelopeHeader.ofMembers?,
      Json.Members.required, List.lookup_cons, restores_schemaVersion.reads, Json.restores_text.reads,
      Json.restores_i64.reads]
  · simp [EnvelopeHeader.fields, EnvelopeHeader.names]

def Fits (f : CacheFormat) (bytes : Bytes) : Prop := f = .binary → bytes.length ≤ Binary.limit

theorem decode?_encode (hp : Payload.Faithful α) {f : CacheFormat} {e : Envelope α}
    (h : Fits f (e.encode f)) : Envelope.decode? f (e.encode f) = some e := by
  cases f with
  | json =>
    rw [encode, decode?, ((restores hp).writable e).parse?, Option.bind_some, (restores hp).reads]
  | binary =>
    have hlen : e.toBinary.length ≤ Binary.limit := h rfl
    rw [encode, decode?, (reads hp).decode, if_pos hlen]

theorem decode?_of_not_fits (hp : Payload.Faithful α) {f : CacheFormat} {e : Envelope α}
    (h : ¬ Fits f (e.encode f)) : Envelope.decode? f (e.encode f) = (none : Option (Envelope α)) := by
  cases f with
  | json => exact absurd (fun hf => nomatch hf) h
  | binary =>
    have hlen : ¬ e.toBinary.length ≤ Binary.limit := fun hlen => h fun _ => hlen
    rw [encode, decode?, (reads hp).decode, if_neg hlen]

theorem header_decode?_encode (hp : Payload.Faithful α) {f : CacheFormat} {e : Envelope α}
    (h : Fits f (e.encode f)) : EnvelopeHeader.decode? f (e.encode f) = some e.header := by
  cases f with
  | json =>
    rw [encode, EnvelopeHeader.decode?, ((restores hp).writable e).parse?, Option.bind_some,
      header_ofJson?]
  | binary =>
    have hlen : e.toBinary.length ≤ Binary.limit := h rfl
    rw [toBinary, List.append_assoc, List.length_append] at hlen
    rw [encode, EnvelopeHeader.decode?, toBinary, List.append_assoc,
      reads_envelopeHeader.decodeFront _ _ (by omega)]

end Envelope

namespace CacheStore

variable {α : Type} [Payload α] {s : CacheStore} {source : Path} {e : CacheEntry α}

/-- What a save writes is found under its own source by stores of the same major version, and by
nobody else. -/
theorem envelope?_encode (hp : Payload.Faithful α)
    (h : Envelope.Fits s.format ((s.envelope source e).encode s.format)) (version : SchemaVersion)
    (other : Path) :
    envelope? { s with version := version } other ((s.envelope source e).encode s.format) =
      if version.major = s.version.major ∧ other.text = source.text then some (s.envelope source e)
      else none := by
  rw [envelope?, header?, Envelope.header_decode?_encode hp h, Envelope.decode?_encode hp h]
  by_cases hsame : version.major = s.version.major ∧ other.text = source.text
  · simp [envelope, Option.filter_some, hsame]
  · have hdiffer : ¬ (s.version.major = version.major ∧ source.text = other.text) :=
      fun h => hsame ⟨h.1.symm, h.2.symm⟩
    simp [envelope, Option.filter_some, hsame, hdiffer]

theorem envelope?_of_not_fits (hp : Payload.Faithful α)
    (h : ¬ Envelope.Fits s.format ((s.envelope source e).encode s.format)) (other : Path) :
    s.envelope? other ((s.envelope source e).encode s.format) = (none : Option (Envelope α)) := by
  rw [envelope?, Envelope.decode?_of_not_fits hp h]
  simp

theorem envelope?_foreign (hp : Payload.Faithful α) {other : Path} (hne : other ≠ source)
    (version : SchemaVersion) :
    envelope? { s with version := version } other ((s.envelope source e).encode s.format) =
      (none : Option (Envelope α)) := by
  by_cases h : Envelope.Fits s.format ((s.envelope source e).encode s.format)
  · rw [envelope?_encode hp h, if_neg fun hsame => hne (congrArg Path.mk hsame.2)]
  · rw [envelope?, Envelope.decode?_of_not_fits hp h]
    exact Option.bind_fun_none _

theorem load_of_no_envelope {d : Disk} {bytes : Bytes}
    (hread : readSlot d (s.entryPath source) = some bytes)
    (h : s.envelope? source bytes = (none : Option (Envelope α))) :
    s.load d source = (none : Option (CacheEntry α)) := by
  rw [load, hread]
  simp only [Option.bind_eq_bind, Option.bind_some, h, Option.bind_none]

/-- What is read of an envelope comes from the save that wrote it. -/
theorem envelope?_eq_some (hp : Payload.Faithful α) {other : Path} {found : Envelope α}
    (h : s.envelope? other ((s.envelope source e).encode s.format) = some found) :
    other = source ∧ found = s.envelope source e := by
  by_cases hfits : Envelope.Fits s.format ((s.envelope source e).encode s.format)
  · rw [envelope?_encode hp hfits s.version] at h
    split at h
    next hsame => exact ⟨Path.mk.injEq _ _ ▸ hsame.2, (Option.some.inj h).symm⟩
    next => cases h
  · rw [envelope?_of_not_fits hp hfits] at h
    cases h

omit [Payload α] in
theorem entryOf?_envelope (s : CacheStore) (source : Path) (e : CacheEntry α) :
    entryOf? (s.envelope source e) (Bytes.ofText e.text) = some e := by
  rw [entryOf?, Bytes.text?_ofText]
  exact if_pos rfl

end CacheStore

end SymbolIndex
