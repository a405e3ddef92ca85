import SymbolIndex.Proofs.Binary.Prefix
import SymbolIndex.Proofs.Cache.RoundTrip
import SymbolIndex.Proofs.Json.Prefix

/-! Entries that were cut short. No part of an envelope is an envelope, in neither format, so a file
that lost its end reads as nothing. -/

namespace SymbolIndex

open Binary

theorem stable_schemaVersion : Stable SchemaVersion.ofBinary :=
  stable_readU32.bind fun _ => stable_readU32.bind fun _ => stable_pure _

theorem stable_envelopeHeader : Stable EnvelopeHeader.ofBinary :=
  stable_schemaVersion.bind fun _ => stable_readText.bind fun _ => stable_readI64.bind fun _ =>
    stable_pure _

namespace Envelope

variable {α : Type} [Payload α] {f : CacheFormat} {e : Envelope α} {bytes more : Bytes}

theorem stable_ofBinary (h : Stable (Payload.ofBinary : Reader α)) :
    Stable (ofBinary : Reader (Envelope α)) :=
  stable_envelopeHeader.bind fun _ => stable_readU64.bind fun _ => h.bind fun _ => stable_pure _

/-- The lengths in the binary form are written in eight bytes. Nothing in memory is longer. -/
def Measured (f : CacheFormat) (bytes : Bytes) : Prop := f = .binary → bytes.length < UInt64.size

theorem decode?_of_cut (hp : Payload.Faithful α) (hs : Stable (Payload.ofBinary : Reader α))
    (hlen : Measured f (e.encode f)) (hcut : e.encode f = bytes ++ more) (hmore : more ≠ []) :
    decode? f bytes = (none : Option (Envelope α)) := by
  cases f with
  | json =>
    rw [encode, Envelope.toJson, Json.ofFields] at hcut
    rw [decode?, Json.parse?_truncation ((restores hp).writable e) hcut hmore, Option.bind_none]
  | binary => exact decode?_truncation (reads hp) (stable_ofBinary hs) (hlen rfl) hcut hmore

theorem decode?_of_longer (hp : Payload.Faithful α) (hlen : (e.encode .binary).length < UInt64.size)
    (hmore : more ≠ []) : decode? .binary (e.encode .binary ++ more) = (none : Option (Envelope α)) := by
  rw [encode] at hlen
  rw [encode, decode?, decode?_extension (reads hp) hlen hmore]

end Envelope

namespace CacheStore

theorem load_of_undecodable {α : Type} [Payload α] {s : CacheStore} {d : Disk} {source : Path}
    {bytes : Bytes} (hread : readSlot d (s.entryPath source) = some bytes)
    (h : Envelope.decode? s.format bytes = (none : Option (Envelope α))) :
    s.load d source = (none : Option (CacheEntry α)) := by
  refine load_of_no_envelope hread ?_
  rw [envelope?, h]
  exact Option.bind_fun_none _

/-- No strict prefix of an envelope decodes, in binary no extension does either, and so an entry file
that was cut short at any byte loads as nothing, whatever else is on the disk. -/
theorem truncation_detected {f : CacheFormat} {e : Envelope Snapshot}
    (hlen : Envelope.Measured f (e.encode f)) :
    (∀ bytes more, e.encode f = bytes ++ more → more ≠ [] →
      Envelope.decode? f bytes = (none : Option (Envelope Snapshot))) ∧
    (f = .binary → ∀ more, more ≠ [] →
      Envelope.decode? f (e.encode f ++ more) = (none : Option (Envelope Snapshot))) ∧
    ∀ (s : CacheStore) (d d' : Disk) (source : Path) (entry : CachedSnapshot), s.format = f →
      s.envelope source entry = e → s.save d source entry = (d', .ok ()) →
      readSlot d' (s.entryPath source) = some (e.encode f) ∧
        ∀ (cut : Disk) (n : Nat), n < (e.encode f).length →
          readSlot cut (s.entryPath source) = some ((e.encode f).take n) →
          s.load cut source = (none : Option CachedSnapshot) := by
  have hcut : ∀ bytes more, e.encode f = bytes ++ more → more ≠ [] →
      Envelope.decode? f bytes = (none : Option (Envelope Snapshot)) :=
    fun bytes more => Envelope.decode?_of_cut Snapshot.faithful stable_snapshot hlen
  refine ⟨hcut, ?_, fun s d d' source entry hf he hsave => ⟨?_, fun cut n hn hread => ?_⟩⟩
  · rintro rfl more hmore
    exact Envelope.decode?_of_longer Snapshot.faithful (hlen rfl) hmore
  · rw [(readSlot_save hsave).2, he, hf]
  · refine load_of_undecodable hread (hf ▸ hcut _ _ (List.take_append_drop n _).symm ?_)
    rw [ne_eq, List.drop_eq_nil_iff]
    omega

/-- The entry file of a save, cut in the middle of its source path. -/
theorem truncation_detected_in_source :
    let s : CacheStore := ⟨⟨"cache"⟩, .binary, ⟨1, 0⟩⟩
    let p : Path := ⟨"a.cc"⟩
    let e : CachedSnapshot := ⟨1, "int a;", { path := p, modified := 1 }⟩
    let bytes := (s.envelope p e).encode .binary
    ∃ d cut, s.save {} p e = (d, .ok ()) ∧ readSlot d (s.entryPath p) = some bytes ∧
      readSlot cut (s.entryPath p) = some (bytes.take 18) ∧ 18 < bytes.length ∧
      s.load cut p = (none : Option CachedSnapshot) ∧
      Envelope.decode? .binary (bytes.take 18) = (none : Option (Envelope Snapshot)) ∧
      Envelope.decode? .binary (bytes ++ [0]) = (none : Option (Envelope Snapshot)) := by
  intro s p e bytes
  have hsaved : (s.save {} p e).2 = .ok () := by decide +kernel
  have hsave : s.save {} p e = ((s.save {} p e).1, .ok ()) := by rw [← hsaved]
  have hlong : 18 < bytes.length := by decide +kernel
  have hlen : Envelope.Measured .binary bytes := by
    intro _
    decide +kernel
  obtain ⟨hcut, hlonger, hload⟩ := truncation_detected hlen
  obtain ⟨hread, habsent⟩ := hload s {} _ p e rfl rfl hsave
  let cut := (s.save {} p e).1.put (s.entryPath p) (bytes.take 18) 0
  have hshort : readSlot cut (s.entryPath p) = some (bytes.take 18) := by decide +kernel
  have hrest : bytes.drop 18 ≠ [] := by
    rw [ne_eq, List.drop_eq_nil_iff]
    omega
  exact ⟨_, cut, hsave, hread, hshort, hlong, habsent cut 18 hlong hshort,
    hcut _ _ (List.take_append_drop 18 bytes).symm hrest, hlonger rfl [0] (by decide)⟩

end CacheStore

end SymbolIndex
