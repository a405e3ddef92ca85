import SymbolIndex.Proofs.Cache.Slots

/-! Loading what was saved. A save that succeeds leaves both files readable, wherever the cache is and
whatever was on the disk, so what a load gives is a matter of the envelope alone. -/

namespace SymbolIndex

namespace CacheStore

section Save

variable {α : Type} [Payload α] {s : CacheStore} {d d' : Disk} {source : Path} {e : CacheEntry α}

/-- The text of a source without a name would stand where the directory of the cache is. -/
theorem absolute_textPath_empty (s : CacheStore) (d : Disk) :
    d.absolute (s.textPath ⟨""⟩) = d.absolute s.root := by
  have hbare : Lexical.isAbsolute '/' ([] : List Char) = false := rfl
  rw [textPath_eq, show slotName ⟨""⟩ = [] from rfl]
  simp only [Disk.absolute, Path.join, Path.components, String.toList_ofList]
  rw [Lexical.join_join hbare, Lexical.components_join_bare hbare rfl]
  exact List.append_nil _

theorem text_ne_of_save (h : s.save d source e = (d', .ok ())) : source.text ≠ "" := by
  intro hempty
  obtain ⟨d₁, ht, he⟩ := save_ok h
  obtain rfl : source = ⟨""⟩ := congrArg Path.mk hempty
  have hfile : d₁.content? (Disk.placeOf (d.absolute s.root)) = some (Bytes.ofText e.text) := by
    rw [← absolute_textPath_empty]
    exact (Disk.content?_write ht _).trans (if_pos rfl)
  rw [saveEnvelope, entryPath_eq] at he
  obtain ⟨_, ⟨_, t, hdir⟩, _, _, hrest⟩ :=
    Disk.write_spec (Disk.absolute_join d₁ s.root (s.plainName_entryName _)) he
  have habs := Disk.absolute_of_cwd (Disk.cwd_replace ht) s.root
  obtain ⟨t', hfile⟩ := Disk.content?_eq_some.mp hfile
  rw [habs] at hdir hrest
  have hkept := (hrest (Disk.placeOf (d.absolute s.root)) (by simp)).1 _ hfile
  rw [hdir] at hkept
  cases hkept

/-- The second file does not get in the way of the first one. -/
theorem readSlot_save (h : s.save d source e = (d', .ok ())) :
    readSlot d' (s.textPath source) = some (Bytes.ofText e.text) ∧
      readSlot d' (s.entryPath source) = some ((s.envelope source e).encode s.format) := by
  have hname := plainName_slotName (text_ne_of_save h)
  have hentry := s.plainName_entryName source
  obtain ⟨d₁, ht, he⟩ := save_ok h
  rw [saveText, textPath_eq] at ht
  rw [saveEnvelope, entryPath_eq] at he
  obtain ⟨hcwd₁, _, _, htext, _⟩ := Disk.write_spec (Disk.absolute_join d s.root hname) ht
  obtain ⟨hcwd₂, hseen, _, henvelope, hrest⟩ :=
    Disk.write_spec (Disk.absolute_join d₁ s.root hentry) he
  have habs₁ := Disk.absolute_of_cwd hcwd₁ s.root
  have habs₂ := Disk.absolute_of_cwd hcwd₂ s.root
  rw [textPath_eq, entryPath_eq, Disk.readSlot_iff hname, Disk.readSlot_iff hentry, habs₂]
  refine ⟨⟨hseen, d.clock, ?_⟩, hseen, d₁.clock, henvelope⟩
  rw [← habs₁] at htext
  refine (hrest _ ?_).1 _ htext
  simpa using s.slotName_ne_entryName source source

end Save

variable {s : CacheStore} {d d' : Disk} {source : Path} {e : CachedSnapshot}

/-- After a save, stores of the same major version load exactly what was saved, and all others load
nothing. -/
theorem load_of_save (hfits : Envelope.Fits s.format ((s.envelope source e).encode s.format))
    (h : s.save d source e = (d', .ok ())) (version : SchemaVersion) :
    load { s with version := version } d' source =
      if version.major = s.version.major then some e else none := by
  obtain ⟨htext, hentry⟩ := readSlot_save h
  have hpaths : entryPath { s with version := version } source = s.entryPath source ∧
      textPath { s with version := version } source = s.textPath source := ⟨rfl, rfl⟩
  rw [load, hpaths.1, hpaths.2, hentry, htext]
  simp only [Option.bind_eq_bind, Option.bind_some]
  rw [envelope?_encode Snapshot.faithful hfits]
  simp only [and_true]
  split
  next => exact entryOf?_envelope s source e
  next => rfl

theorem load_of_save_two_versions :
    let s : CacheStore := ⟨⟨"cache"⟩, .binary, ⟨1, 2⟩⟩
    let e : CachedSnapshot := ⟨-5, "int a;", {
      path := ⟨"a.cc"⟩, modified := -5, args := [], dependencies := ∅, symbols := ⟨∅, ∅, ∅⟩ }⟩
    ∃ d, s.save {} ⟨"a.cc"⟩ e = (d, .ok ()) ∧ load { s with version := ⟨1, 7⟩ } d ⟨"a.cc"⟩ = some e ∧
      load { s with version := ⟨2, 2⟩ } d ⟨"a.cc"⟩ = (none : Option CachedSnapshot) := by
  intro s e
  have hresult : (s.save {} ⟨"a.cc"⟩ e).2 = .ok () := by decide +kernel
  have hsave : s.save {} ⟨"a.cc"⟩ e = ((s.save {} ⟨"a.cc"⟩ e).1, .ok ()) := by rw [← hresult]
  have hfits : Envelope.Fits s.format ((s.envelope ⟨"a.cc"⟩ e).encode s.format) := by
    intro _
    decide +kernel
  exact ⟨_, hsave, (load_of_save hfits hsave ⟨1, 7⟩).trans (if_pos rfl),
    (load_of_save hfits hsave ⟨2, 2⟩).trans (if_neg (by decide))⟩

end CacheStore

end SymbolIndex
