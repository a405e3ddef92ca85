import SymbolIndex.Proofs.Cache.Interleaving

/-! Slots do not interfere. The files of two slots are in different places, so saving and removing one
source keeps what the cache answers about another. A save makes the directories above its files, and
with them a cache can come into reach whose path leads through a missing directory and back; where the
files of the cache could be reached before, a save changes no answer at all. -/

namespace SymbolIndex

namespace CacheStore

variable {s : CacheStore} {d d' : Disk} {p q file other : Path} {bytes content : Bytes}

section Files

/-- The two files of a source. -/
def Owns (s : CacheStore) (p file : Path) : Prop := file = s.textPath p ∨ file = s.entryPath p

theorem placeOf_ne_of_apart (hslot : slotName q ≠ slotName p) (hq : s.Owns q other)
    (hp : s.Owns p file) :
    Disk.placeOf (d.absolute other) ≠ Disk.placeOf (d.absolute file) := by
  rcases hq with rfl | rfl <;> rcases hp with rfl | rfl
  · exact fun he => hslot (slotName_eq_of_textPath he)
  · exact s.placeOf_textPath_ne d q p
  · exact (s.placeOf_textPath_ne d p q).symm
  · intro he
    rw [placeOf_entryPath, placeOf_entryPath, List.append_cancel_left_eq, List.cons.injEq] at he
    exact hslot (s.entryName_inj.mp he.1)

theorem readSlot_eq_some : readSlot d p = some bytes ↔ d.read p = .ok bytes := by
  rw [readSlot]
  cases d.read p <;> simp [Except.toOption]

/-- The text of a source without a name is looked for in a directory. -/
theorem readSlot_textPath_empty (s : CacheStore) (d : Disk) : readSlot d (s.textPath ⟨""⟩) = none := by
  have hdir : Disk.namesDirectory (s.textPath ⟨""⟩) = true := by
    rw [textPath_eq, Disk.namesDirectory]
    simp only [Path.join, String.toList_ofList]
    rw [Lexical.getLast?_split_join (show '/' ∉ slotName ⟨""⟩ from List.not_mem_nil)]
    rfl
  refine Option.eq_none_iff_forall_ne_some.mpr fun bytes hread => ?_
  obtain ⟨t, hfind⟩ := Disk.read_eq_ok.mp (readSlot_eq_some.mp hread)
  rw [Disk.namesDirectory_of_find hfind] at hdir
  cases hdir

/-- A file of a slot stands in the directory of the cache, under a name of its own. -/
theorem exists_name_of_owns (h : s.Owns q other) :
    (∃ name, Disk.PlainName name ∧ other = s.root.join ⟨.ofList name⟩) ∨ other = s.textPath ⟨""⟩ := by
  rcases h with rfl | rfl
  · by_cases hq : q.text = ""
    · obtain rfl : q = ⟨""⟩ := congrArg Path.mk hq
      exact .inr rfl
    · exact .inl ⟨_, plainName_slotName hq, s.textPath_eq q⟩
  · exact .inl ⟨_, s.plainName_entryName q, s.entryPath_eq q⟩

/-- What a file of a slot holds can be read. -/
theorem readSlot_of_content? (hv : d.Visible s.root) (h : s.Owns q other)
    (hc : d.content? (Disk.placeOf (d.absolute other)) = some bytes) (hroot : other ≠ s.textPath ⟨""⟩) :
    readSlot d other = some bytes := by
  obtain ⟨name, hn, rfl⟩ := (exists_name_of_owns h).resolve_right hroot
  rw [Disk.absolute_join d s.root hn, Disk.placeOf_concat] at hc
  obtain ⟨t, ht⟩ := Disk.content?_eq_some.mp hc
  exact (Disk.readSlot_iff hn).mpr ⟨hv name bytes t ht, t, ht⟩

end Files

section Put

variable (hp : s.Owns p file) (h : d.replace file content = .ok d')

include hp h

theorem visible_put (hv : d.Visible s.root) : d'.Visible s.root := by
  have hcwd := Disk.cwd_replace h
  have hkept : d.Seen (d.absolute s.root) → d'.Seen (d'.absolute s.root) := by
    rw [Disk.absolute_of_cwd hcwd]
    exact Disk.Seen.mono (Disk.isDirectory_write h)
  intro name bytes t hn
  have hc := Disk.content?_eq_some.mpr ⟨t, hn⟩
  rw [Disk.content?_write h, Disk.absolute_of_cwd hcwd] at hc
  split at hc
  next hplace =>
    rcases exists_name_of_owns hp with ⟨own, hown, rfl⟩ | rfl
    · obtain ⟨-, hseen, -⟩ := Disk.write_spec (Disk.absolute_join d s.root hown) h
      rwa [Disk.absolute_of_cwd hcwd]
    · rw [absolute_textPath_empty] at hplace
      simp at hplace
  next =>
    obtain ⟨t, ht⟩ := Disk.content?_eq_some.mp hc
    exact hkept (hv name bytes t ht)

theorem readSlot_put_mono (hslot : slotName q ≠ slotName p) (hq : s.Owns q other)
    (hr : readSlot d other = some bytes) : readSlot d' other = some bytes :=
  readSlot_eq_some.mpr
    (Disk.read_write_of_ne h (placeOf_ne_of_apart hslot hq hp) (readSlot_eq_some.mp hr))

theorem readSlot_put (hv : d.Visible s.root) (hslot : slotName q ≠ slotName p)
    (hq : s.Owns q other) : readSlot d' other = readSlot d other := by
  by_cases hroot : other = s.textPath ⟨""⟩
  · rw [hroot, readSlot_textPath_empty, readSlot_textPath_empty]
  · refine Option.ext fun bytes => ⟨fun hr => ?_, readSlot_put_mono hp h hslot hq⟩
    have hc := content?_of_readSlot hr
    rw [Disk.content?_write h, Disk.absolute_of_cwd (Disk.cwd_replace h),
      if_neg (placeOf_ne_of_apart hslot hq hp)] at hc
    exact readSlot_of_content? hv hq hc hroot

end Put

theorem readSlot_drop (hp : s.Owns p file) (h : removeFile d file = .ok d')
    (hslot : slotName q ≠ slotName p) (hq : s.Owns q other) : readSlot d' other = readSlot d other := by
  rw [removeFile] at h
  split at h
  next =>
    cases h
    rfl
  next =>
    refine Option.ext fun bytes => ?_
    rw [readSlot_eq_some, readSlot_eq_some]
    exact Disk.read_remove_of_ne h (placeOf_ne_of_apart hslot hq hp)

section Operations

variable {α : Type} [Payload α]

/-- What every write of a save keeps, the save keeps, wherever it stops. -/
theorem save_keeps {P : Disk → Prop} (e : CacheEntry α) (hd : P d)
    (hput : ∀ d₁ d₂ file content, P d₁ → s.Owns p file → d₁.replace file content = .ok d₂ → P d₂) :
    P (s.save d p e).1 := by
  unfold save
  split
  next => exact hd
  next d₁ ht =>
    rw [saveText] at ht
    have h₁ := hput _ _ _ _ hd (.inl rfl) ht
    split
    next => exact h₁
    next d₂ he =>
      rw [saveEnvelope] at he
      exact hput _ _ _ _ h₁ (.inr rfl) he

omit [Payload α] in
/-- What every step of a removal keeps, the removal keeps. -/
theorem remove_keeps {P : Disk → Prop} (hd : P d)
    (hdrop : ∀ d₁ d₂ file, P d₁ → s.Owns p file → removeFile d₁ file = .ok d₂ → P d₂) :
    P (s.remove d p).1 := by
  unfold remove
  split
  next => exact hd
  next d₁ he =>
    have h₁ := hdrop _ _ _ hd (.inr rfl) he
    split
    next => exact h₁
    next d₂ ht => exact hdrop _ _ _ h₁ (.inl rfl) ht

/-- The files of a source read the same on both disks. -/
def SameFiles (s : CacheStore) (q : Path) (d d' : Disk) : Prop :=
  ∀ file, s.Owns q file → readSlot d' file = readSlot d file

theorem sameFiles_remove (hslot : slotName q ≠ slotName p) : s.SameFiles q d (s.remove d p).1 :=
  remove_keeps (fun _ _ => rfl) fun _ _ _ h₁ hp hdrop _ hq =>
    (readSlot_drop hp hdrop hslot hq).trans (h₁ _ hq)

theorem sameFiles_save (e : CacheEntry α) (hv : d.Visible s.root) (hslot : slotName q ≠ slotName p) :
    s.SameFiles q d (s.save d p e).1 := by
  refine (save_keeps (P := fun d₁ => d₁.Visible s.root ∧ s.SameFiles q d d₁) e
    ⟨hv, fun _ _ => rfl⟩ ?_).2
  rintro d₁ d₂ file content ⟨hv₁, h₁⟩ hp hput
  exact ⟨visible_put hp hput hv₁, fun _ hq => (readSlot_put hp hput hv₁ hslot hq).trans (h₁ _ hq)⟩

theorem readSlot_save_mono (e : CacheEntry α) (hslot : slotName q ≠ slotName p) (hq : s.Owns q other)
    (hr : readSlot d other = some bytes) : readSlot (s.save d p e).1 other = some bytes :=
  save_keeps (P := fun d₁ => readSlot d₁ other = some bytes) e hr
    fun _ _ _ _ h₁ hp hput => readSlot_put_mono hp hput hslot hq h₁

end Operations

section Answers

/-- All that is asked about a source is answered alike. -/
structure SameAnswers (s : CacheStore) (q : Path) (d d' : Disk) : Prop where
  load {α : Type} [Payload α] : (s.load d' q : Option (CacheEntry α)) = s.load d q
  loadText : s.loadText d' q = s.loadText d q
  cachedTime? : s.cachedTime? d' q = s.cachedTime? d q
  hasFreshCopy (t : Timestamp) : s.hasFreshCopy d' q t = s.hasFreshCopy d q t

/-- What was answered about a source is answered again. -/
structure KeepsAnswers (s : CacheStore) (q : Path) (d d' : Disk) : Prop where
  load {α : Type} [Payload α] (e : CacheEntry α) : s.load d q = some e → s.load d' q = some e
  loadText (text : String) : s.loadText d q = some text → s.loadText d' q = some text
  cachedTime? (t : Timestamp) : s.cachedTime? d q = some t → s.cachedTime? d' q = some t
  hasFreshCopy (t : Timestamp) : s.hasFreshCopy d q t = true → s.hasFreshCopy d' q t = true

theorem SameFiles.sameAnswers (h : s.SameFiles q d d') : s.SameAnswers q d d' := by
  have htext := h _ (.inl rfl)
  have hentry := h _ (.inr rfl)
  have htime : s.cachedTime? d' q = s.cachedTime? d q := by rw [cachedTime?, hentry, cachedTime?]
  refine ⟨?_, ?_, htime, fun t => ?_⟩
  · intro α _
    rw [load, load, htext, hentry]
  · rw [loadText, loadText, htext]
  · rw [hasFreshCopy, hasFreshCopy, htime]

/-- What can be loaded, can be loaded as long as the two files of the slot can be read. -/
theorem load_mono {α : Type} [Payload α] {e : CacheEntry α}
    (htext : ∀ bytes, readSlot d (s.textPath q) = some bytes →
      readSlot d' (s.textPath q) = some bytes)
    (hentry : ∀ bytes, readSlot d (s.entryPath q) = some bytes →
      readSlot d' (s.entryPath q) = some bytes) (h : s.load d q = some e) :
    s.load d' q = some e := by
  rw [load] at h ⊢
  obtain ⟨bytes, hb, h⟩ := Option.bind_eq_some_iff.mp h
  obtain ⟨found, hf, h⟩ := Option.bind_eq_some_iff.mp h
  obtain ⟨text, ht, h⟩ := Option.bind_eq_some_iff.mp h
  rw [hentry bytes hb, Option.bind_eq_bind, Option.bind_some, hf, Option.bind_eq_bind,
    Option.bind_some, htext text ht]
  exact h

theorem keepsAnswers (h : ∀ file, s.Owns q file → ∀ bytes, readSlot d file = some bytes →
    readSlot d' file = some bytes) : s.KeepsAnswers q d d' := by
  have htext := h _ (.inl rfl)
  have hentry := h _ (.inr rfl)
  have htime : ∀ t, s.cachedTime? d q = some t → s.cachedTime? d' q = some t := by
    intro t ht
    rw [cachedTime?] at ht ⊢
    obtain ⟨header, hheader, hmodified⟩ := Option.map_eq_some_iff.mp ht
    obtain ⟨bytes, hb, hkept⟩ := Option.bind_eq_some_iff.mp hheader
    rw [hentry bytes hb, Option.bind_some, hkept, Option.map_some, hmodified]
  refine ⟨?_, fun text ht => ?_, htime, fun t ht => ?_⟩
  · intro α _ e
    exact load_mono htext hentry
  · rw [loadText] at ht ⊢
    obtain ⟨bytes, hb, hdecoded⟩ := Option.bind_eq_some_iff.mp ht
    rw [htext bytes hb, Option.bind_some, hdecoded]
  · rw [hasFreshCopy, decide_eq_true_eq] at ht ⊢
    exact htime t ht

theorem keepsAnswers_save {α : Type} [Payload α] (e : CacheEntry α)
    (hslot : slotName q ≠ slotName p) : s.KeepsAnswers q d (s.save d p e).1 :=
  keepsAnswers fun _ hq _ => readSlot_save_mono e hslot hq

end Answers

theorem slotName_ne (hne : p ≠ q)
    (h : ¬ SlotName.Collide (Bytes.ofText p.text) (Bytes.ofText q.text)) : slotName q ≠ slotName p := by
  intro he
  refine (SlotName.eq_or_collide he.symm).elim (fun hbytes => hne ?_) h
  have htext := congrArg Bytes.text? hbytes
  rw [Bytes.text?_ofText, Bytes.text?_ofText, Option.some.injEq] at htext
  exact congrArg Path.mk htext

/-- An entry that was saved for one source is not read for another, also where their names collide. -/
theorem load_of_foreign {α : Type} [Payload α] (hp : Payload.Faithful α) {e : CacheEntry α}
    (hne : p ≠ q) (hread : readSlot d (s.entryPath q) = some ((s.envelope p e).encode s.format))
    (version : SchemaVersion) :
    load { s with version := version } d q = (none : Option (CacheEntry α)) :=
  load_of_no_envelope hread (envelope?_foreign hp hne.symm version)

/-- Names tell paths apart but for a collision of hashes, and texts from entries; what is done to one
source leaves the answers about another as they are, unless a save brings files into reach that could
not be reached before; and no entry is read for another source than it was saved for. -/
theorem slots_separate :
    (∀ path, SlotName.Tidy path) ∧
    (∀ a b, SlotName.ofBytes a = SlotName.ofBytes b → a = b ∨ SlotName.Collide a b) ∧
    ∀ (s : CacheStore) (d : Disk) (p q : Path),
      Disk.placeOf (d.absolute (s.textPath p)) ≠ Disk.placeOf (d.absolute (s.entryPath q)) ∧
      (p ≠ q → ¬ SlotName.Collide (Bytes.ofText p.text) (Bytes.ofText q.text) →
        s.SameAnswers q d (s.remove d p).1 ∧
        ∀ {α : Type} [Payload α] (e : CacheEntry α), s.KeepsAnswers q d (s.save d p e).1 ∧
          (d.Visible s.root → s.SameAnswers q d (s.save d p e).1)) ∧
      (p ≠ q → ∀ {α : Type} [Payload α], Payload.Faithful α → ∀ (e : CacheEntry α),
        readSlot d (s.entryPath q) = some ((s.envelope p e).encode s.format) → ∀ version,
        load { s with version := version } d q = (none : Option (CacheEntry α))) := by
  refine ⟨SlotName.tidy, fun _ _ => SlotName.eq_or_collide, fun s d p q =>
    ⟨s.placeOf_textPath_ne d p q, fun hne hcollide => ?_, fun hne α _ hp e =>
      load_of_foreign hp hne⟩⟩
  have hslot := slotName_ne hne hcollide
  exact ⟨(sameFiles_remove hslot).sameAnswers, fun e =>
    ⟨keepsAnswers_save e hslot, fun hv => (sameFiles_save e hv hslot).sameAnswers⟩⟩

/-- Another source is saved to the cache of an answering store, or an entry of it put by hand where the
answering source looks for its own. -/
theorem slots_separate_two_files :
    let s : CacheStore := ⟨⟨"cache"⟩, .json, ⟨1, 0⟩⟩
    let p : Path := ⟨"/w/a.cc"⟩
    let q : Path := ⟨"/w/b.cc"⟩
    let e (p : Path) : CachedSnapshot := ⟨1, "int a;", { path := p, modified := 1 }⟩
    let d := (s.save {} q (e q)).1
    let mixed := d.put (s.entryPath q) ((s.envelope p (e p)).encode .json) 0
    s.load d q = some (e q) ∧ s.load (s.save d p (e p)).1 q = some (e q) ∧
      s.load (s.remove (s.save d p (e p)).1 p).1 q = some (e q) ∧
      s.load mixed q = (none : Option CachedSnapshot) := by
  intro s p q e d mixed
  have hne : p ≠ q := by decide
  have hcollide : ¬ SlotName.Collide (Bytes.ofText p.text) (Bytes.ofText q.text) :=
    fun h => absurd h.left (by decide +kernel)
  have hload : s.load d q = some (e q) := by decide +kernel
  have hvisible : d.Visible s.root :=
    fun _ _ _ _ => ⟨by decide +kernel, ⟨0, by decide +kernel⟩⟩
  have hmixed : readSlot mixed (s.entryPath q) = some ((s.envelope p (e p)).encode .json) := by
    decide +kernel
  have hsaved := ((slots_separate.2.2 s d p q).2.1 hne hcollide).2 (e p)
  have hremoved := ((slots_separate.2.2 s (s.save d p (e p)).1 p q).2.1 hne hcollide).1
  have hforeign := (slots_separate.2.2 s mixed p q).2.2 hne Snapshot.faithful (e p) hmixed
  exact ⟨hload, (hsaved.2 hvisible).load.trans hload,
    hremoved.load.trans ((hsaved.2 hvisible).load.trans hload), hforeign s.version⟩

/-- The path of a cache leads through a directory that is missing, so nothing in it is found until a
save of another source makes that directory. -/
theorem save_brings_to_light :
    let s : CacheStore := ⟨⟨"/w/x/../cache"⟩, .json, ⟨1, 0⟩⟩
    let p : Path := ⟨"/w/a.cc"⟩
    let q : Path := ⟨"/w/b.cc"⟩
    let e (p : Path) : CachedSnapshot := ⟨1, "int a;", { path := p, modified := 1 }⟩
    let d := (save ⟨⟨"/w/cache"⟩, .json, ⟨1, 0⟩⟩ {} q (e q)).1
    p ≠ q ∧ ¬ SlotName.Long (Bytes.ofText p.text) ∧ ¬ SlotName.Long (Bytes.ofText q.text) ∧
      s.load d q = (none : Option CachedSnapshot) ∧ s.loadText d q = none ∧
      s.cachedTime? d q = none ∧ s.hasFreshCopy d q 1 = false ∧
      s.load (s.save d p (e p)).1 q = some (e q) ∧
      s.loadText (s.save d p (e p)).1 q = some "int a;" ∧
      s.cachedTime? (s.save d p (e p)).1 q = some 1 ∧
      s.hasFreshCopy (s.save d p (e p)).1 q 1 = true := by
  decide +kernel

end CacheStore

end SymbolIndex
