import Mathlib.Data.List.Basic
import SymbolIndex.Proofs.Cache.Envelope

/-! The header of an entry and the whole entry. Both are read from the same bytes, in binary from the
front and in JSON by the names of the fields, and whatever the bytes are, they do not disagree. Only a
document that lists its fields without names reads as an envelope and not as a header. -/

namespace SymbolIndex

theorem lookup_filter {β : Type} {names : List String} {name : String} (h : name ∈ names)
    (given : List (String × β)) :
    (given.filter fun e => names.contains e.1).lookup name = given.lookup name := by
  induction given with
  | nil => rfl
  | cons e rest ih =>
    obtain ⟨key, value⟩ := e
    by_cases hkey : name = key
    · subst hkey
      rw [List.filter_cons_of_pos (by simpa using h), List.lookup_cons_self, List.lookup_cons_self]
    · have hne : (name == key) = false := by simpa using hkey
      rw [List.lookup_cons, hne, ← ih, List.filter_cons]
      split
      next => rw [List.lookup_cons, hne]
      next => rfl

namespace Json

/-- Passing over more fields keeps what is given for the others. -/
theorem members?_object_subset {few many : List String} {fields : List (Bytes × Json)} {m : Members}
    (hsub : few ⊆ many) (h : (object fields).members? many = some m) :
    ∃ m', (object fields).members? few = some m' ∧
      ∀ name ∈ few, m'.given.lookup name = m.given.lookup name := by
  obtain ⟨named, hnamed, h⟩ := Option.bind_eq_some_iff.mp h
  dsimp only at h
  split at h
  next hnodup =>
    cases h
    have hsublist : (named.filter fun e => few.contains e.1).Sublist
        (named.filter fun e => many.contains e.1) :=
      List.monotone_filter_right named fun e he => by
        rw [List.contains_iff_mem] at he ⊢
        exact hsub he
    refine ⟨⟨false, named.filter fun e => few.contains e.1⟩, ?_, fun name hname => ?_⟩
    · rw [members?, hnamed]
      exact if_pos (hnodup.sublist (hsublist.map _))
    · rw [lookup_filter hname, lookup_filter (hsub hname)]
  next => cases h

end Json

namespace EnvelopeHeader

theorem ofMembers?_congr {m m' : Json.Members}
    (h : ∀ name ∈ names, m'.given.lookup name = m.given.lookup name) :
    ofMembers? m' = ofMembers? m := by
  simp only [names, List.forall_mem_cons] at h
  obtain ⟨hversion, hsource, hmodified, -⟩ := h
  simp only [ofMembers?, Json.Members.required, hversion, hsource, hmodified]

end EnvelopeHeader

namespace Envelope

variable {α : Type} [Payload α] {e : Envelope α}

theorem header_of_ofBinary {bytes rest : Bytes} (h : ofBinary bytes = some (e, rest)) :
    ∃ after, EnvelopeHeader.ofBinary bytes = some (e.header, after) := by
  obtain ⟨⟨header, after⟩, hheader, h⟩ := Option.bind_eq_some_iff.mp h
  obtain ⟨⟨hash, between⟩, -, h⟩ := Option.bind_eq_some_iff.mp h
  obtain ⟨⟨payload, last⟩, -, h⟩ := Option.bind_eq_some_iff.mp h
  cases h
  exact ⟨after, hheader⟩

theorem header_of_ofJson? {j : Json} (h : ofJson? j = some e) :
    EnvelopeHeader.ofJson? j = some e.header ∨
      EnvelopeHeader.ofJson? j = none ∧ ∃ items, j = .array items := by
  obtain ⟨m, hm, h⟩ := Option.bind_eq_some_iff.mp h
  obtain ⟨header, hheader, h⟩ := Option.bind_eq_some_iff.mp h
  obtain ⟨hash, -, h⟩ := Option.bind_eq_some_iff.mp h
  obtain ⟨payload, hpayload, h⟩ := Option.bind_eq_some_iff.mp h
  cases h
  cases j with
  | null => cases hm
  | bool b => cases hm
  | number literal => cases hm
  | string body => cases hm
  | object fields =>
    obtain ⟨m', hm', hsame⟩ := Json.members?_object_subset (List.subset_append_left _ _) hm
    left
    rw [EnvelopeHeader.ofJson?, hm', Option.bind_some, EnvelopeHeader.ofMembers?_congr hsame, hheader]
  | array items =>
    refine .inr ⟨?_, items, rfl⟩
    -- The payload is the last of five, and a header has three.
    rw [EnvelopeHeader.ofJson?, Json.members?, if_neg]
    · rfl
    · intro hshort
      have hzip : m = ⟨true, (EnvelopeHeader.names ++ ["text_hash", "payload"]).zip items⟩ := by
        rw [Json.members?] at hm
        split at hm
        next => exact (Option.some.inj hm).symm
        next => cases hm
      rw [hzip] at hpayload
      rcases items with _ | ⟨a, _ | ⟨b, _ | ⟨c, _ | ⟨d, items⟩⟩⟩⟩
      · cases hpayload
      · cases hpayload
      · cases hpayload
      · cases hpayload
      · simp only [EnvelopeHeader.names, List.length_cons, List.length_nil] at hshort
        omega

/-- Where the whole is read, the header is read alike, or not at all from fields without names. -/
theorem header_of_decode? {f : CacheFormat} {bytes : Bytes} (h : decode? f bytes = some e) :
    EnvelopeHeader.decode? f bytes = some e.header ∨
      EnvelopeHeader.decode? f bytes = none ∧ f = .json ∧
        ∃ items, Json.parse? bytes = some (.array items) := by
  cases f with
  | json =>
    obtain ⟨j, hj, he⟩ := Option.bind_eq_some_iff.mp h
    rw [EnvelopeHeader.decode?, hj, Option.bind_some]
    refine (header_of_ofJson? he).imp_right ?_
    rintro ⟨hnone, items, rfl⟩
    exact ⟨hnone, rfl, items, rfl⟩
  | binary =>
    left
    rw [decode?, Binary.decode?] at h
    split at h
    next found hread =>
      split at h
      next hlimit =>
        cases h
        obtain ⟨after, hheader⟩ := header_of_ofBinary hread
        rw [EnvelopeHeader.decode?, Binary.decodeFront?, hheader]
        exact if_pos (by omega)
      next => cases h
    next => cases h

theorem header_eq {f : CacheFormat} {bytes : Bytes} {header : EnvelopeHeader}
    (hheader : EnvelopeHeader.decode? f bytes = some header) (he : decode? f bytes = some e) :
    header = e.header := by
  rcases header_of_decode? he with hsame | ⟨hnone, -, -⟩
  · exact Option.some.inj (hheader.symm.trans hsame)
  · rw [hnone] at hheader
    cases hheader

end Envelope

namespace CacheStore

variable {α : Type} {s : CacheStore} {d : Disk} {source : Path}

theorem modified_of_entryOf? {e : Envelope α} {text : Bytes} {entry : CacheEntry α}
    (h : entryOf? e text = some entry) : entry.modified = e.header.modified := by
  rw [entryOf?] at h
  split at h
  next => cases h
  next =>
    split at h
    next =>
      cases h
      rfl
    next => cases h

variable [Payload α]

theorem header?_of_envelope? {bytes : Bytes} {e : Envelope α} (h : s.envelope? source bytes = some e) :
    s.header? source bytes = some e.header := by
  obtain ⟨header, hheader, he⟩ := Option.bind_eq_some_iff.mp h
  rwa [Envelope.header_eq (Option.filter_eq_some_iff.mp hheader).1 he] at hheader

/-- On all bytes and all disks, the header and the envelope agree where both can be read, what a load
takes is of the store's version and for its source, and the time in the header is that of the entry
that a load gives. -/
theorem header_agrees (s : CacheStore) (d : Disk) (source : Path) :
    (∀ (f : CacheFormat) (bytes : Bytes) (header : EnvelopeHeader) (e : Envelope α),
      EnvelopeHeader.decode? f bytes = some header → Envelope.decode? f bytes = some e →
      header = e.header) ∧
    (∀ (bytes : Bytes) (e : Envelope α), s.envelope? source bytes = some e →
      e.header.version.major = s.version.major ∧ e.header.source = source.text) ∧
    ∀ entry : CacheEntry α, s.load d source = some entry →
      s.cachedTime? d source = some entry.modified ∧
        ∀ t, s.hasFreshCopy d source t = true ↔ t = entry.modified := by
  refine ⟨fun _ _ _ _ => Envelope.header_eq, fun bytes e he => ?_, fun entry hload => ?_⟩
  · have hkept := (Option.filter_eq_some_iff.mp (header?_of_envelope? he)).2
    rwa [decide_eq_true_eq] at hkept
  · rw [load] at hload
    obtain ⟨bytes, hbytes, h⟩ := Option.bind_eq_some_iff.mp hload
    obtain ⟨e, he, h⟩ := Option.bind_eq_some_iff.mp h
    obtain ⟨text, -, hentry⟩ := Option.bind_eq_some_iff.mp h
    have htime : s.cachedTime? d source = some entry.modified := by
      rw [cachedTime?, hbytes, Option.bind_some, header?_of_envelope? he, Option.map_some,
        modified_of_entryOf? hentry]
    refine ⟨htime, fun t => ?_⟩
    rw [hasFreshCopy, htime, decide_eq_true_eq, Option.some.injEq, eq_comm]

/-- An entry written by hand, with its fields in another order, one that nobody asked for, and the
version as a list. -/
theorem header_agrees_by_hand :
    let s : CacheStore := ⟨⟨"cache"⟩, .json, ⟨1, 0⟩⟩
    let p : Path := ⟨"a.cc"⟩
    let hash := toString (textHash "int a;").toNat
    let bytes := Bytes.ofText ("\x7b\"payload\": [\"x\"], \"note\": null, \"text_hash\": " ++ hash ++
      ", \"last_modified\": 7, \"source_path\": \"a.cc\", \"version\": [1, 3]\x7d")
    let d := (Disk.put {} (s.entryPath p) bytes 0).put (s.textPath p) (Bytes.ofText "int a;") 0
    ∃ header e entry, EnvelopeHeader.decode? .json bytes = some header ∧
      (Envelope.decode? .json bytes : Option (Envelope (List String))) = some e ∧
      header = e.header ∧ s.envelope? p bytes = some e ∧ e.header.source = p.text ∧
      s.load d p = some (⟨7, "int a;", entry⟩ : CacheEntry (List String)) ∧
      s.cachedTime? d p = some 7 ∧ s.hasFreshCopy d p 7 = true := by
  intro s p hash bytes d
  let header : EnvelopeHeader := ⟨⟨1, 3⟩, "a.cc", 7⟩
  let e : Envelope (List String) := ⟨header, textHash "int a;", ["x"]⟩
  have hheader : EnvelopeHeader.decode? .json bytes = some header := by decide +kernel
  have he : Envelope.decode? .json bytes = some e := by decide +kernel
  have hfound : s.envelope? p bytes = some e := by decide +kernel
  have hload : s.load d p = some (⟨7, "int a;", ["x"]⟩ : CacheEntry (List String)) := by
    decide +kernel
  have hagrees := header_agrees (α := List String) s d p
  have htimes := hagrees.2.2 _ hload
  exact ⟨header, e, ["x"], hheader, he, hagrees.1 .json bytes header e hheader he, hfound,
    (hagrees.2.1 bytes e hfound).2, hload, htimes.1, (htimes.2 7).mpr rfl⟩

end CacheStore

end SymbolIndex
