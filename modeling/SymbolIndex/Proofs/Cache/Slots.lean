import SymbolIndex.Proofs.Cache.Envelope
import SymbolIndex.Proofs.Cache.SlotName
import SymbolIndex.Proofs.Cache.Store
import SymbolIndex.Proofs.Path

/-! The files of the cache on disk. A save changes the two files of its own source and leaves all
that was on the disk before the cache; a load finds what was saved for its source. -/

namespace SymbolIndex

open Lexical (Component)

namespace Disk

/-- No file or directory is in a directory. -/
def Vacant (d : Disk) (dir : Path) : Prop :=
  ∀ q ∈ d.nodes.keys, q.dropLast ≠ placeOf (d.absolute dir)

theorem Vacant.node? {d : Disk} {dir : Path} (h : d.Vacant dir) (name : List Char) :
    d.node? (placeOf (d.absolute dir) ++ [name]) = none := by
  rw [Disk.node?, if_neg (by simp)]
  refine Option.eq_none_iff_forall_ne_some.mpr fun node hn => ?_
  obtain ⟨q, hk, hq⟩ := OrderedMap.exists_mem_of_find? hn
  have he : q = placeOf (d.absolute dir) ++ [name] := (Std.LawfulEqOrd.eq_of_compare hk).symm
  refine h q (List.mem_map.mpr ⟨_, hq, rfl⟩) ?_
  rw [he, List.dropLast_concat]

/-- The files in a directory can be reached. -/
def Visible (d : Disk) (dir : Path) : Prop :=
  ∀ name content t, d.node? (placeOf (d.absolute dir) ++ [name]) = some (.file content t) →
    d.Seen (d.absolute dir)

theorem Vacant.visible {d : Disk} {dir : Path} (h : d.Vacant dir) : d.Visible dir := by
  intro name content t hn
  rw [h.node?] at hn
  cases hn

/-- A file name that stands for itself. -/
structure PlainName (name : List Char) : Prop where
  separator : '/' ∉ name
  nonempty : name ≠ []
  dot : name ≠ ['.']
  dots : name ≠ ['.', '.']

section Slot

variable {d d' : Disk} {dir : Path} {name : List Char} {content : Bytes}

theorem absolute_join (d : Disk) (dir : Path) (hn : PlainName name) :
    d.absolute (dir.join ⟨.ofList name⟩) = d.absolute dir ++ [.normal name] := by
  simp only [absolute, Path.join, Path.components, String.toList_ofList]
  exact Lexical.components_join_plain hn.separator hn.nonempty hn.dot hn.dots

theorem namesDirectory_join (hn : PlainName name) :
    namesDirectory (dir.join ⟨.ofList name⟩) = false := by
  simp only [namesDirectory, Path.join, String.toList_ofList,
    Lexical.getLast?_split_join hn.separator]
  simp [hn.nonempty, hn.dot]

theorem text_join_ne (hn : PlainName name) : (dir.join ⟨.ofList name⟩).text ≠ "" := by
  intro h
  have hlast : (Lexical.split '/' (Lexical.join '/' dir.text.toList name)).getLast? = some name :=
    Lexical.getLast?_split_join hn.separator
  have hnil : Lexical.join '/' dir.text.toList name = [] := by
    have hl := congrArg String.toList h
    simpa [Path.join] using hl
  rw [hnil] at hlast
  exact hn.nonempty (by simpa [Lexical.split] using hlast.symm)

theorem follow_concat {cs : List (Component Char)} {place : Place} :
    d.follow (cs ++ [.normal name]) = .ok place ↔ d.Seen cs ∧ place = placeOf cs ++ [name] := by
  rw [follow, List.foldlM_append, Seen, follow]
  cases hf : cs.foldlM d.step [] with
  | error e => simp [bind, Except.bind]
  | ok above =>
    have ha : above = placeOf cs := foldlM_step_eq hf
    subst ha
    have hstep := @step_iff d (placeOf cs) place (.normal name)
    simp [landing, Path.name] at hstep
    simp [bind, Except.bind, List.foldlM_cons, and_comm, ← hstep]
    cases d.step (placeOf cs) (.normal name) <;> rfl

theorem readSlot_iff (hn : PlainName name) :
    CacheStore.readSlot d (dir.join ⟨.ofList name⟩) = some content ↔
      d.Seen (d.absolute dir) ∧
        ∃ t, d.node? (placeOf (d.absolute dir) ++ [name]) = some (.file content t) := by
  have hfollow := @follow_concat d name (d.absolute dir)
  rw [CacheStore.readSlot, read, find, if_neg (text_join_ne hn), absolute_join d dir hn]
  cases hf : d.follow (d.absolute dir ++ [.normal name]) with
  | error e =>
    have hunseen : ¬ d.Seen (d.absolute dir) := by
      intro hs
      rw [hfollow.mpr ⟨hs, rfl⟩] at hf
      cases hf
    simp [hunseen, bind, Except.bind, Except.toOption]
  | ok place =>
    obtain ⟨hseen, rfl⟩ := hfollow.mp hf
    rw [and_iff_right hseen]
    cases hnode : d.node? (placeOf (d.absolute dir) ++ [name]) with
    | none =>
      simp [hnode, bind, Except.bind, throw, throwThe, MonadExceptOf.throw, Except.toOption]
    | some node =>
      cases node <;> simp [hnode, namesDirectory_join hn, bind, Except.bind, pure, Except.pure,
        throw, throwThe, MonadExceptOf.throw, Except.toOption]

theorem Visible.replace (hv : d.Visible dir) (hn : PlainName name)
    (h : d.replace (dir.join ⟨.ofList name⟩) content = .ok d') :
    d'.cwd = d.cwd ∧ d'.Visible dir ∧ ∀ other, PlainName other →
      CacheStore.readSlot d' (dir.join ⟨.ofList other⟩) =
        if other = name then some content else CacheStore.readSlot d (dir.join ⟨.ofList other⟩) := by
  obtain ⟨hcwd, hseen, _, hfile, hrest⟩ := write_spec (absolute_join d dir hn) h
  have habs : d'.absolute dir = d.absolute dir := by rw [absolute, absolute, hcwd]
  refine ⟨hcwd, fun _ _ _ _ => habs ▸ hseen, fun other ho => Option.ext fun bytes => ?_⟩
  rw [readSlot_iff ho, habs, and_iff_right hseen]
  split
  next he =>
    rw [he, hfile]
    simp
  next hne =>
    obtain ⟨hold, hnew⟩ := hrest (placeOf (d.absolute dir) ++ [other]) fun he =>
      hne (by simpa using he)
    rw [readSlot_iff ho]
    constructor
    · rintro ⟨t, ht⟩
      exact ⟨hv other bytes t (hnew bytes t ht), t, hnew bytes t ht⟩
    · rintro ⟨_, t, ht⟩
      exact ⟨t, hold _ ht⟩

/-- A file in a directory that was empty is not in the way of what was there before. -/
theorem Extends.replace {d₀ : Disk} (h₀ : d₀.Vacant dir) (hext : d₀.Extends d) (hn : PlainName name)
    (h : d.replace (dir.join ⟨.ofList name⟩) content = .ok d') : d₀.Extends d' := by
  obtain ⟨hcwd, _, _, _, hrest⟩ := write_spec (absolute_join d dir hn) h
  refine ⟨hcwd.trans hext.cwd, fun q node hq => (hrest q ?_).1 node (hext.keeps q node hq)⟩
  rintro rfl
  have habs : d.absolute dir = d₀.absolute dir := by rw [absolute, absolute, hext.cwd]
  rw [habs, h₀.node?] at hq
  cases hq

end Slot

end Disk

namespace CacheStore

def slotName (source : Path) : List Char := SlotName.ofBytes (Bytes.ofText source.text)

def entryName (s : CacheStore) (source : Path) : List Char :=
  slotName source ++ '.' :: s.format.fileExtension.toList

theorem textPath_eq (s : CacheStore) (source : Path) :
    s.textPath source = s.root.join ⟨.ofList (slotName source)⟩ := rfl

theorem entryPath_eq (s : CacheStore) (source : Path) :
    s.entryPath source = s.root.join ⟨.ofList (s.entryName source)⟩ := by
  have hname : SlotName.ofText source.text ++ "." ++ s.format.fileExtension =
      .ofList (s.entryName source) := by
    refine String.toList_inj.mp ?_
    simp [SlotName.ofText, entryName, slotName]
  rw [entryPath, hname]

theorem slotName_ne_nil {source : Path} (h : source.text ≠ "") : slotName source ≠ [] := by
  refine SlotName.ofBytes_ne_nil fun hnil => h ?_
  have htext : Bytes.text? (Bytes.ofText source.text) = Bytes.text? (Bytes.ofText "") := by
    rw [hnil]
    rfl
  rwa [Bytes.text?_ofText, Bytes.text?_ofText, Option.some.injEq] at htext

theorem plainName_slotName {source : Path} (h : source.text ≠ "") :
    Disk.PlainName (slotName source) := by
  obtain ⟨hs, hd⟩ := SlotName.clear_ofBytes (Bytes.ofText source.text)
  refine ⟨hs, slotName_ne_nil h, fun he => ?_, fun he => ?_⟩ <;>
    exact hd (by rw [← slotName, he]; simp)

theorem plainName_entryName (s : CacheStore) (source : Path) :
    Disk.PlainName (s.entryName source) := by
  obtain ⟨hs, _⟩ := SlotName.clear_ofBytes (Bytes.ofText source.text)
  have hext : '/' ∉ s.format.fileExtension.toList ∧ 2 ≤ s.format.fileExtension.toList.length := by
    cases s.format <;> decide
  have hlen : 3 ≤ (s.entryName source).length := by
    rw [entryName, List.length_append, List.length_cons]
    omega
  refine ⟨?_, ?_, ?_, ?_⟩
  · simp only [entryName, slotName, List.mem_append, List.mem_cons, not_or]
    exact ⟨hs, by decide, hext.1⟩
  all_goals
    intro he
    rw [he] at hlen
    simp at hlen

theorem slotName_ne_entryName (s : CacheStore) (a b : Path) : slotName a ≠ s.entryName b := by
  intro h
  obtain ⟨_, hd⟩ := SlotName.clear_ofBytes (Bytes.ofText a.text)
  refine hd ?_
  rw [← slotName, h, entryName]
  simp

theorem entryName_inj (s : CacheStore) {a b : Path} :
    s.entryName a = s.entryName b ↔ slotName a = slotName b := by
  rw [entryName, entryName, List.append_cancel_right_eq]

section Save

variable {α : Type} [Payload α] {s : CacheStore} {d d' : Disk} {source : Path} {e : CacheEntry α}

theorem save_ok (h : s.save d source e = (d', .ok ())) :
    ∃ d₁, s.saveText d source e = .ok d₁ ∧ s.saveEnvelope d₁ source e = .ok d' := by
  unfold save at h
  cases ht : s.saveText d source e with
  | error cause => simp [ht] at h
  | ok d₁ =>
    refine ⟨d₁, rfl, ?_⟩
    cases he : s.saveEnvelope d₁ source e with
    | error cause => simp [ht, he] at h
    | ok d₂ => simpa [ht, he] using h

theorem visible_save (hv : d.Visible s.root) (hs : source.text ≠ "")
    (h : s.save d source e = (d', .ok ())) :
    d'.Visible s.root ∧ ∀ other, other.text ≠ "" →
      readSlot d' (s.textPath other) = (if slotName other = slotName source
        then some (Bytes.ofText e.text) else readSlot d (s.textPath other)) ∧
      readSlot d' (s.entryPath other) = (if slotName other = slotName source
        then some ((s.envelope source e).encode s.format) else readSlot d (s.entryPath other)) := by
  obtain ⟨d₁, ht, he⟩ := save_ok h
  rw [saveText, textPath_eq] at ht
  rw [saveEnvelope, entryPath_eq] at he
  obtain ⟨_, hv₁, hread₁⟩ := hv.replace (plainName_slotName hs) ht
  obtain ⟨_, hv₂, hread₂⟩ := hv₁.replace (s.plainName_entryName source) he
  refine ⟨hv₂, fun other ho => ⟨?_, ?_⟩⟩
  · have h₂ := hread₂ _ (plainName_slotName ho)
    rw [if_neg (s.slotName_ne_entryName other source)] at h₂
    rw [textPath_eq, h₂, hread₁ _ (plainName_slotName ho)]
  · have h₁ := hread₁ _ (s.plainName_entryName other)
    rw [if_neg (s.slotName_ne_entryName source other).symm] at h₁
    rw [entryPath_eq, hread₂ _ (s.plainName_entryName other), h₁]
    simp only [entryName_inj]

theorem extends_save {d₀ : Disk} (h₀ : d₀.Vacant s.root) (hext : d₀.Extends d)
    (hs : source.text ≠ "") (h : s.save d source e = (d', .ok ())) : d₀.Extends d' := by
  obtain ⟨d₁, ht, he⟩ := save_ok h
  rw [saveText, textPath_eq] at ht
  rw [saveEnvelope, entryPath_eq] at he
  have hext₁ := Disk.Extends.replace h₀ hext (plainName_slotName hs) ht
  exact Disk.Extends.replace h₀ hext₁ (s.plainName_entryName source) he

/-- A load after a save. Two sources that share a slot push each other out. -/
theorem load_save (hp : Payload.Faithful α) (hv : d.Visible s.root) (hs : source.text ≠ "")
    (hfits : Envelope.Fits s.format ((s.envelope source e).encode s.format))
    (h : s.save d source e = (d', .ok ())) {other : Path} (ho : other.text ≠ "") :
    s.load d' other = if slotName other = slotName source
      then (if other.text = source.text then some e else none) else s.load d other := by
  obtain ⟨htext, hentry⟩ := (visible_save hv hs h).2 other ho
  rw [load, load, htext, hentry]
  split
  next =>
    simp only [Option.bind_eq_bind, Option.bind_some]
    have henvelope := envelope?_encode hp hfits s.version other
    simp only [true_and] at henvelope
    rw [henvelope]
    split
    next => rw [Option.bind_some, entryOf?_envelope]
    next => rfl
  next => rfl

end Save

end CacheStore

end SymbolIndex
