import SymbolIndex.Proofs.Cache.RoundTrip

/-! A load among saves and removes that are under way. A load reads the envelope and then the text,
while a save replaces the text and then the envelope, so the two files that a load sees may come from
two saves. The hash in the envelope tells them apart. -/

namespace SymbolIndex

namespace CacheStore

inductive SlotStep
  | putText (source : Path) (e : CachedSnapshot)
  | putEnvelope (source : Path) (e : CachedSnapshot)
  | dropEnvelope (source : Path)
  | dropText (source : Path)

variable {s : CacheStore} {d : Disk} {source : Path}

def attempt (s : CacheStore) (d : Disk) : SlotStep → Except DiskError Disk
  | .putText source e => s.saveText d source e
  | .putEnvelope source e => s.saveEnvelope d source e
  | .dropEnvelope source => removeFile d (s.entryPath source)
  | .dropText source => removeFile d (s.textPath source)

def perform (s : CacheStore) (d : Disk) (step : SlotStep) : Disk :=
  (s.attempt d step).toOption.getD d

/-- Steps of any number of saves and removes, in the order in which they happen. -/
def run (s : CacheStore) (d : Disk) (steps : List SlotStep) : Disk := steps.foldl s.perform d

@[simp] theorem run_nil (s : CacheStore) (d : Disk) : s.run d [] = d := rfl

@[simp] theorem run_cons (s : CacheStore) (d : Disk) (step : SlotStep) (rest : List SlotStep) :
    s.run d (step :: rest) = s.run (s.perform d step) rest := rfl

theorem run_append (s : CacheStore) (d : Disk) (a b : List SlotStep) :
    s.run d (a ++ b) = s.run (s.run d a) b := List.foldl_append

theorem perform_of_ok {step : SlotStep} {d' : Disk} (h : s.attempt d step = .ok d') :
    s.perform d step = d' := by
  rw [perform, h]
  rfl

/-- A save, however it ends, makes its first steps. -/
theorem exists_run_eq_save (s : CacheStore) (d : Disk) (source : Path) (e : CachedSnapshot) :
    ∃ steps, steps <+: [.putText source e, .putEnvelope source e] ∧
      (s.save d source e).1 = s.run d steps := by
  unfold save
  cases ht : s.saveText d source e with
  | error cause => exact ⟨[], List.nil_prefix, rfl⟩
  | ok d₁ =>
    have hfirst : s.perform d (.putText source e) = d₁ := perform_of_ok ht
    dsimp only
    cases he : s.saveEnvelope d₁ source e with
    | error cause => exact ⟨[.putText source e], by simp, by rw [run_cons, run_nil, hfirst]⟩
    | ok d₂ =>
      have hsecond : s.perform d₁ (.putEnvelope source e) = d₂ := perform_of_ok he
      exact ⟨_, List.prefix_rfl, by rw [run_cons, hfirst, run_cons, hsecond, run_nil]⟩

theorem exists_run_eq_remove (s : CacheStore) (d : Disk) (source : Path) :
    ∃ steps, steps <+: [.dropEnvelope source, .dropText source] ∧
      (s.remove d source).1 = s.run d steps := by
  unfold remove
  cases he : removeFile d (s.entryPath source) with
  | error cause => exact ⟨[], List.nil_prefix, rfl⟩
  | ok d₁ =>
    have hfirst : s.perform d (.dropEnvelope source) = d₁ := perform_of_ok he
    dsimp only
    cases ht : removeFile d₁ (s.textPath source) with
    | error cause => exact ⟨[.dropEnvelope source], by simp, by rw [run_cons, run_nil, hfirst]⟩
    | ok d₂ =>
      have hsecond : s.perform d₁ (.dropText source) = d₂ := perform_of_ok ht
      exact ⟨_, List.prefix_rfl, by rw [run_cons, hfirst, run_cons, hsecond, run_nil]⟩

/-- The file that a step replaces, and what it holds then. -/
def written? (s : CacheStore) : SlotStep → Option (Path × Bytes)
  | .putText source e => some (s.textPath source, Bytes.ofText e.text)
  | .putEnvelope source e => some (s.entryPath source, (s.envelope source e).encode s.format)
  | .dropEnvelope _ => none
  | .dropText _ => none

theorem content?_removeFile {d' : Disk} {p : Path} (h : removeFile d p = .ok d') {q : Place}
    {bytes : Bytes} (hq : d'.content? q = some bytes) : d.content? q = some bytes := by
  rw [removeFile] at h
  split at h
  next =>
    cases h
    exact hq
  next =>
    rw [Disk.content?_remove h] at hq
    split at hq
    next => cases hq
    next => exact hq

theorem cwd_perform (s : CacheStore) (d : Disk) (step : SlotStep) :
    (s.perform d step).cwd = d.cwd := by
  rw [perform]
  cases h : s.attempt d step with
  | error cause => rfl
  | ok d' =>
    cases step with rw [attempt] at h
    | putText source e => exact Disk.cwd_replace (by rwa [saveText] at h)
    | putEnvelope source e => exact Disk.cwd_replace (by rwa [saveEnvelope] at h)
    | dropEnvelope source => exact cwd_removeFile h
    | dropText source => exact cwd_removeFile h

theorem content?_perform {step : SlotStep} {q : Place} {bytes : Bytes}
    (hq : (s.perform d step).content? q = some bytes) : d.content? q = some bytes ∨
      ∃ p, s.written? step = some (p, bytes) ∧ Disk.placeOf (d.absolute p) = q := by
  have hput : ∀ {p content d'}, d.replace p content = .ok d' → d'.content? q = some bytes →
      d.content? q = some bytes ∨ content = bytes ∧ Disk.placeOf (d.absolute p) = q := by
    intro p content d' h hq
    rw [Disk.content?_write h] at hq
    split at hq
    next he => exact .inr ⟨Option.some.inj hq, he.symm⟩
    next => exact .inl hq
  rw [perform] at hq
  cases h : s.attempt d step with
  | error cause =>
    rw [h] at hq
    exact .inl hq
  | ok d' =>
    rw [h] at hq
    cases step with rw [attempt] at h
    | putText source e =>
      rw [saveText] at h
      refine (hput h hq).imp_right ?_
      rintro ⟨rfl, hp⟩
      exact ⟨_, rfl, hp⟩
    | putEnvelope source e =>
      rw [saveEnvelope] at h
      refine (hput h hq).imp_right ?_
      rintro ⟨rfl, hp⟩
      exact ⟨_, rfl, hp⟩
    | dropEnvelope source => exact .inl (content?_removeFile h hq)
    | dropText source => exact .inl (content?_removeFile h hq)

theorem content?_run {steps : List SlotStep} {q : Place} {bytes : Bytes}
    (hq : (s.run d steps).content? q = some bytes) : d.content? q = some bytes ∨
      ∃ step ∈ steps, ∃ p, s.written? step = some (p, bytes) ∧
        Disk.placeOf (d.absolute p) = q := by
  induction steps generalizing d with
  | nil => exact .inl hq
  | cons step rest ih =>
    have habs := Disk.absolute_of_cwd (s.cwd_perform d step)
    rcases ih hq with hfirst | ⟨later, hmem, p, hw, hp⟩
    · rcases content?_perform hfirst with hd | ⟨p, hw, hp⟩
      · exact .inl hd
      · exact .inr ⟨step, List.mem_cons_self, p, hw, hp⟩
    · exact .inr ⟨later, List.mem_cons_of_mem _ hmem, p, hw, habs p ▸ hp⟩

section Places

theorem placeOf_entryPath (s : CacheStore) (d : Disk) (source : Path) :
    Disk.placeOf (d.absolute (s.entryPath source)) =
      Disk.placeOf (d.absolute s.root) ++ [s.entryName source] := by
  rw [entryPath_eq, Disk.absolute_join d s.root (s.plainName_entryName source), Disk.placeOf_concat]

theorem placeOf_textPath (s : CacheStore) (d : Disk) (source : Path) :
    Disk.placeOf (d.absolute (s.textPath source)) =
      Disk.placeOf (d.absolute s.root) ++ (if slotName source = [] then [] else [slotName source]) := by
  by_cases h : source.text = ""
  · obtain rfl : source = ⟨""⟩ := congrArg Path.mk h
    rw [absolute_textPath_empty, if_pos (by rfl), List.append_nil]
  · rw [textPath_eq, Disk.absolute_join d s.root (plainName_slotName h), Disk.placeOf_concat,
      if_neg (slotName_ne_nil h)]

theorem placeOf_textPath_ne (s : CacheStore) (d : Disk) (a b : Path) :
    Disk.placeOf (d.absolute (s.textPath a)) ≠ Disk.placeOf (d.absolute (s.entryPath b)) := by
  rw [placeOf_textPath, placeOf_entryPath]
  split
  next => simp
  next => simpa using s.slotName_ne_entryName a b

theorem slotName_eq_of_textPath {a b : Path}
    (h : Disk.placeOf (d.absolute (s.textPath a)) = Disk.placeOf (d.absolute (s.textPath b))) :
    slotName a = slotName b := by
  rw [placeOf_textPath, placeOf_textPath, List.append_cancel_left_eq] at h
  split at h <;> split at h <;> simp_all

theorem written?_entry {step : SlotStep} {p : Path} {bytes : Bytes}
    (hw : s.written? step = some (p, bytes))
    (hp : Disk.placeOf (d.absolute p) = Disk.placeOf (d.absolute (s.entryPath source))) :
    ∃ other e, step = .putEnvelope other e ∧ bytes = (s.envelope other e).encode s.format := by
  cases step with simp only [written?, Option.some.injEq, Prod.mk.injEq, reduceCtorEq] at hw
  | putText other e =>
    obtain ⟨rfl, rfl⟩ := hw
    exact absurd hp (s.placeOf_textPath_ne d other source)
  | putEnvelope other e => exact ⟨other, e, rfl, hw.2.symm⟩

theorem written?_text {step : SlotStep} {p : Path} {bytes : Bytes}
    (hw : s.written? step = some (p, bytes))
    (hp : Disk.placeOf (d.absolute p) = Disk.placeOf (d.absolute (s.textPath source))) :
    ∃ other e, step = .putText other e ∧ bytes = Bytes.ofText e.text ∧
      slotName other = slotName source := by
  cases step with simp only [written?, Option.some.injEq, Prod.mk.injEq, reduceCtorEq] at hw
  | putText other e =>
    obtain ⟨rfl, rfl⟩ := hw
    exact ⟨other, e, rfl, rfl, slotName_eq_of_textPath hp⟩
  | putEnvelope other e =>
    obtain ⟨rfl, rfl⟩ := hw
    exact absurd hp.symm (s.placeOf_textPath_ne d source other)

end Places

def loadBetween (s : CacheStore) (first second : Disk) (source : Path) : Option CachedSnapshot := do
  let e ← s.envelope? source (← readSlot first (s.entryPath source))
  entryOf? e (← readSlot second (s.textPath source))

theorem load_eq_loadBetween (s : CacheStore) (d : Disk) (source : Path) :
    s.load d source = s.loadBetween d d source := rfl

/-- The text of the save that a step belongs to, if that save is for the slot. -/
def savedText? (slot : List Char) : SlotStep → Option String
  | .putText source e => if slotName source = slot then some e.text else none
  | .putEnvelope source e => if slotName source = slot then some e.text else none
  | .dropEnvelope _ => none
  | .dropText _ => none

/-- The text that is in a slot at first, and those that are saved to it. -/
def textsOf (s : CacheStore) (d : Disk) (source : Path) (steps : List SlotStep) : List String :=
  ((d.content? (Disk.placeOf (d.absolute (s.textPath source)))).bind Bytes.text?).toList ++
    steps.filterMap (savedText? (slotName source))

theorem cwd_run (s : CacheStore) (d : Disk) (steps : List SlotStep) : (s.run d steps).cwd = d.cwd := by
  induction steps generalizing d with
  | nil => rfl
  | cons step rest ih => rw [run_cons, ih, cwd_perform]

theorem absolute_run (s : CacheStore) (d : Disk) (steps : List SlotStep) (p : Path) :
    (s.run d steps).absolute p = d.absolute p :=
  Disk.absolute_of_cwd (s.cwd_run d steps) p

theorem content?_of_readSlot {p : Path} {bytes : Bytes} (h : readSlot d p = some bytes) :
    d.content? (Disk.placeOf (d.absolute p)) = some bytes := by
  rw [readSlot] at h
  cases hr : d.read p with
  | error cause =>
    rw [hr] at h
    cases h
  | ok content =>
    rw [hr] at h
    exact Disk.content?_of_read (hr.trans (congrArg _ (Option.some.inj h)))

/-- No step but the saves for a source put an envelope where it is looked for. -/
theorem exists_putEnvelope {steps : List SlotStep} {bytes : Bytes} {found : Envelope Snapshot}
    (hstart : ∀ old, d.content? (Disk.placeOf (d.absolute (s.entryPath source))) = some old →
      s.envelope? source old = (none : Option (Envelope Snapshot)))
    (hread : readSlot (s.run d steps) (s.entryPath source) = some bytes)
    (hfound : s.envelope? source bytes = some found) :
    ∃ e, .putEnvelope source e ∈ steps ∧ bytes = (s.envelope source e).encode s.format ∧
      found = s.envelope source e := by
  have hplace := content?_of_readSlot hread
  rw [absolute_run] at hplace
  rcases content?_run hplace with hold | ⟨step, hmem, p, hw, hp⟩
  · rw [hstart bytes hold] at hfound
    cases hfound
  · obtain ⟨other, e, rfl, rfl⟩ := written?_entry hw hp
    obtain ⟨rfl, rfl⟩ := envelope?_eq_some Snapshot.faithful hfound
    exact ⟨e, hmem, rfl, rfl⟩

theorem mem_textsOf {steps : List SlotStep} {bytes : Bytes} {text : String}
    (hread : readSlot (s.run d steps) (s.textPath source) = some bytes)
    (htext : Bytes.text? bytes = some text) : text ∈ s.textsOf d source steps := by
  have hplace := content?_of_readSlot hread
  rw [absolute_run] at hplace
  rw [textsOf, List.mem_append, Option.mem_toList]
  rcases content?_run hplace with hold | ⟨step, hmem, p, hw, hp⟩
  · left
    rw [hold, Option.bind_some, htext]
  · right
    obtain ⟨other, e, rfl, rfl, hslot⟩ := written?_text hw hp
    rw [Bytes.text?_ofText] at htext
    exact List.mem_filterMap.mpr ⟨_, hmem, by rw [savedText?, if_pos hslot, htext]⟩

/-- Whatever happens before a load and between its two reads, it gives the entry of one save whole, and
the envelope of that save was in the slot when it was read. -/
theorem loadBetween_eq_saved {before between : List SlotStep}
    (hstart : ∀ old, d.content? (Disk.placeOf (d.absolute (s.entryPath source))) = some old →
      s.envelope? source old = (none : Option (Envelope Snapshot)))
    (hhash : ∀ a ∈ s.textsOf d source (before ++ between),
      ∀ b ∈ s.textsOf d source (before ++ between), textHash a = textHash b → a = b) :
    s.loadBetween (s.run d before) (s.run (s.run d before) between) source = none ∨
      ∃ e, .putEnvelope source e ∈ before ∧
        readSlot (s.run d before) (s.entryPath source) =
          some ((s.envelope source e).encode s.format) ∧
        s.loadBetween (s.run d before) (s.run (s.run d before) between) source = some e := by
  rw [loadBetween]
  cases hentry : readSlot (s.run d before) (s.entryPath source) with
  | none => exact .inl rfl
  | some bytes =>
    simp only [Option.bind_eq_bind, Option.bind_some]
    cases hfound : (s.envelope? source bytes : Option (Envelope Snapshot)) with
    | none => exact .inl rfl
    | some found =>
      obtain ⟨e, hmem, rfl, rfl⟩ := exists_putEnvelope hstart hentry hfound
      cases htext : readSlot (s.run (s.run d before) between) (s.textPath source) with
      | none => exact .inl rfl
      | some content =>
        rw [Option.bind_some, Option.bind_some, entryOf?]
        cases hdecoded : Bytes.text? content with
        | none => exact .inl rfl
        | some text =>
          dsimp only
          split
          next hsame =>
            -- Both texts are among those that the hash is to tell apart.
            rw [← run_append] at htext
            have hsaved : e.text ∈ s.textsOf d source (before ++ between) := by
              refine List.mem_append_right _ (List.mem_filterMap.mpr
                ⟨_, List.mem_append_left _ hmem, ?_⟩)
              rw [savedText?, if_pos rfl]
            obtain rfl := hhash text (mem_textsOf htext hdecoded) e.text hsaved hsame
            exact .inr ⟨e, hmem, rfl, rfl⟩
          next => exact .inl rfl

/-- The second of two saves is half finished when the envelope is read and finished when the text
is. -/
theorem loadBetween_two_saves :
    let s : CacheStore := ⟨⟨"cache"⟩, .json, ⟨1, 0⟩⟩
    let p : Path := ⟨"a.cc"⟩
    let old : CachedSnapshot := ⟨1, "int a;", { path := p, modified := 1 }⟩
    let new : CachedSnapshot := ⟨2, "int b;", { path := p, modified := 2 }⟩
    let before := [.putText p old, .putEnvelope p old, .putText p new]
    let between := [.putEnvelope p new]
    readSlot (s.run {} before) (s.entryPath p) = some ((s.envelope p old).encode s.format) ∧
      (s.loadBetween (s.run {} before) (s.run (s.run {} before) between) p = none ∨
        s.loadBetween (s.run {} before) (s.run (s.run {} before) between) p = some old) := by
  intro s p old new before between
  have hempty : ({} : Disk).content? (Disk.placeOf (Disk.absolute {} (s.entryPath p))) = none := by
    decide +kernel
  have hstart : ∀ content, ({} : Disk).content? (Disk.placeOf (Disk.absolute {} (s.entryPath p))) =
      some content → s.envelope? p content = (none : Option (Envelope Snapshot)) := by
    intro content hc
    rw [hempty] at hc
    cases hc
  have hhash : ∀ a ∈ s.textsOf {} p (before ++ between), ∀ b ∈ s.textsOf {} p (before ++ between),
      textHash a = textHash b → a = b := by
    decide +kernel
  have hread : readSlot (s.run {} before) (s.entryPath p) =
      some ((s.envelope p old).encode s.format) := by
    decide +kernel
  refine ⟨hread, (loadBetween_eq_saved hstart hhash).imp_right ?_⟩
  rintro ⟨e, hmem, -, hload⟩
  obtain rfl : e = old := by simpa [before] using hmem
  exact hload

end CacheStore

end SymbolIndex
