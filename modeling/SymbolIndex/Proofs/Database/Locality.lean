import SymbolIndex.Proofs.Database.Reachable
import SymbolIndex.Proofs.Database.Repetition

/-! A delta is about one file. Whatever it says, and whatever the database holds, the other files keep
their numbers, records and includes, and what they contribute to any symbol. So a symbol that another
file contributes to stays, and the definition that it is known by gives way only to one of the delta's
own file. And the edges of the include graph stay those of the records (`Reachable.linked`). -/

namespace SymbolIndex

open Std

namespace Definition

variable {d d' : Definition} {own file : FileId} {info : SymbolInfo}

/-- The definition that a file contributes to a symbol. -/
def defines? (d : Definition) (file : FileId) : Option SymbolInfo :=
  (d.contributions.find? file).bind fun v => v.info.filter SymbolInfo.isDefinition

/-- A symbol is known by the definition of the first file that has one. -/
theorem definition?_eq_some : d.definition? = some (file, info) ↔
    d.defines? file = some info ∧ ∀ f < file, d.defines? f = none := by
  have hfind : ∀ e ∈ d.contributions.entries,
      d.defines? e.1 = e.2.info.filter SymbolInfo.isDefinition := by
    intro e he
    rw [defines?, OrderedMap.find?_eq_some_of_mem he, Option.bind_some]
  have hentry : ∀ {f info}, d.defines? f = some info → ∃ v, (f, v) ∈ d.contributions.entries := by
    intro f info hf
    obtain ⟨v, hv, -⟩ := Option.bind_eq_some_iff.mp hf
    exact ⟨v, OrderedMap.mem_entries_iff.mpr hv⟩
  rw [definition?, List.findSome?_eq_some_iff]
  constructor
  · rintro ⟨before, e, rest, hsplit, he, hbefore⟩
    have hmem : ∀ e' ∈ before ++ e :: rest, e' ∈ d.contributions.entries := fun _ he' =>
      hsplit ▸ he'
    obtain ⟨_, hinfo, heq⟩ := Option.map_eq_some_iff.mp he
    obtain ⟨rfl, rfl⟩ := Prod.mk.inj heq
    refine ⟨(hfind e (hmem e (by simp))).trans hinfo, fun f hlt => ?_⟩
    cases hf : d.defines? f with
    | none => rfl
    | some other =>
      -- The entry of a lower file stands before this one, where there is no definition.
      obtain ⟨v, hv⟩ := hentry hf
      have hasc := d.contributions.ascending
      rw [hsplit] at hv hasc
      rcases List.mem_append.mp hv with hv | hv
      · have hnone := hbefore _ hv
        rw [← hfind (f, v) (hmem _ (by simp [hv])), hf] at hnone
        cases hnone
      · rcases List.mem_cons.mp hv with rfl | hv
        · exact absurd hlt (Nat.lt_irrefl f)
        · have hgt := (List.pairwise_cons.mp (List.pairwise_append.mp hasc).2.1).1 _ hv
          exact absurd (Nat.compare_eq_lt.mp hgt) (Nat.lt_asymm hlt)
  · rintro ⟨hinfo, hlower⟩
    obtain ⟨v, hv⟩ := hentry hinfo
    obtain ⟨before, rest, hsplit⟩ := List.append_of_mem hv
    refine ⟨before, _, rest, hsplit, ?_, fun e he => ?_⟩
    · rw [← hfind _ hv, hinfo]
      rfl
    · have hasc := d.contributions.ascending
      rw [hsplit] at hasc
      have hlt := (List.pairwise_append.mp hasc).2.2 e he _ List.mem_cons_self
      have hnone := hlower e.1 (Nat.compare_eq_lt.mp hlt)
      rw [hfind e (by simp [hsplit, he])] at hnone
      rw [hnone]
      rfl

/-- When one file changes what it contributes, the leading definition of another one stays or is
preceded by that file's. -/
theorem definition?_of_agree
    (hagree : ∀ f, f ≠ own → d'.contributions.find? f = d.contributions.find? f)
    (hfile : file ≠ own) (h : d.definition? = some (file, info)) :
    d'.definition? = some (file, info) ∨
      own < file ∧ ∃ info', d'.definition? = some (own, info') := by
  obtain ⟨hinfo, hlower⟩ := definition?_eq_some.mp h
  have hdefines : ∀ f, f ≠ own → d'.defines? f = d.defines? f := fun f hf => by
    rw [defines?, defines?, hagree f hf]
  by_cases hown : own < file ∧ (d'.defines? own).isSome = true
  · obtain ⟨hlt, hsome⟩ := hown
    obtain ⟨info', hinfo'⟩ := Option.isSome_iff_exists.mp hsome
    refine .inr ⟨hlt, info', definition?_eq_some.mpr ⟨hinfo', fun f hf => ?_⟩⟩
    rw [hdefines f (Nat.ne_of_lt hf)]
    exact hlower f (Nat.lt_trans hf hlt)
  · refine .inl (definition?_eq_some.mpr ⟨(hdefines file hfile).trans hinfo, fun f hf => ?_⟩)
    by_cases hf' : f = own
    · rw [hf'] at hf ⊢
      exact Option.not_isSome_iff_eq_none.mp fun hs => hown ⟨hf, hs⟩
    · rw [hdefines f hf']
      exact hlower f hf

end Definition

namespace Database

variable {db : Database} {d : FileDelta} {out : Database × ApplyStats}

/-- What stays as it was when the file at `p`, which has the number `own`, changes. -/
structure SparesOthers (before : Database) (p : Path) (own : FileId) (after : Database) : Prop where
  number : after.fileId? p = some own
  numbers : ∀ q, p.same q = false →
    after.fileId? q = before.fileId? q ∧ before.fileId? q ≠ some own
  paths : ∀ file q, before.pathOf? file = some q → after.pathOf? file = some q
  records : ∀ q, p.same q = false → after.file? q = before.file? q
  includes : ∀ q, p.same q = false → after.includes.includesOf q = before.includes.includesOf q
  contributions : ∀ c id file, file ≠ own →
    after.contribution? c id file = before.contribution? c id file
  definitions : ∀ c id d file v, before.definitionIn? c id = some d → file ≠ own →
    d.contributions.find? file = some v →
    ∃ d', after.definitionIn? c id = some d' ∧ d'.id = d.id ∧ d'.category = d.category ∧
      d'.contributions.find? file = some v
  leading : ∀ c id d file info, before.definitionIn? c id = some d → file ≠ own →
    d.definition? = some (file, info) →
    ∃ d', after.definitionIn? c id = some d' ∧
      (d'.definition? = some (file, info) ∨
        own < file ∧ ∃ info', d'.definition? = some (own, info'))

theorem same_of_fileId?_eq {p q : Path} {file : FileId} (hp : db.fileId? p = some file)
    (hq : db.fileId? q = some file) : p.same q = true := by
  obtain ⟨r, hr, hpr⟩ := same_of_fileId? hp
  obtain ⟨r', hr', hqr⟩ := same_of_fileId? hq
  rw [hr] at hr'
  cases hr'
  rw [Path.same_comm] at hqr
  exact Path.same_trans hpr hqr

/-- A symbol that another file contributes to is held on, with all that others contribute. -/
theorem exists_definition_of_agree {before after : Database} {own file : FileId} {c : Category}
    {id : SymbolId} {d : Definition} {v : SymbolView}
    (hagree : ∀ file, file ≠ own → after.contribution? c id file = before.contribution? c id file)
    (hd : before.definitionIn? c id = some d) (hfile : file ≠ own)
    (hv : d.contributions.find? file = some v) :
    ∃ d', after.definitionIn? c id = some d' ∧
      ∀ f, f ≠ own → d'.contributions.find? f = d.contributions.find? f := by
  have hkept := hagree file hfile
  rw [contribution?_of_definitionIn? hd, hv] at hkept
  obtain ⟨d', hd', -⟩ := Option.bind_eq_some_iff.mp hkept
  refine ⟨d', hd', fun f hf => ?_⟩
  rw [← contribution?_of_definitionIn? hd, ← contribution?_of_definitionIn? hd', hagree f hf]

/-- The edges of the include graph are those of the snapshots on record. -/
def Linked (db : Database) : Prop :=
  ∀ p q, db.includes.hasEdge p q = (db.snapshot? p).any fun s => s.dependencies.contains q

section Apply

variable {state : Database × ApplyStats} (h : applyFile state d = .ok out)

include h

theorem fileId?_applyFile (q : Path) : out.1.fileId? q =
    if d.path.same q then some (state.1.number d.path) else state.1.fileId? q := by
  have hpaths : out.1.paths = (state.1.intern d.path).1.paths := by
    rw [applyFile_eq h, settle_frame, ← applyChanges_eq_edits]
    exact (sameFiles_applyChanges ..).1
  rw [fileId?, hpaths]
  exact fileId?_intern state.1 d.path q

theorem contribution?_applyFile {file : FileId} (hfile : file ≠ state.1.number d.path)
    (c : Category) (id : SymbolId) :
    out.1.contribution? c id file = state.1.contribution? c id file := by
  have hinterned : (state.1.intern d.path).1.contribution? = state.1.contribution? :=
    contribution?_congr (by rw [intern_fst])
  have hchanged : out.1.contribution? = (applyChanges (state.1.number d.path) d.changes
      ((state.1.intern d.path).1, state.2)).1.contribution? :=
    contribution?_congr (by rw [applyFile_eq h, settle_frame, ← applyChanges_eq_edits])
  rw [hchanged, contribution?_applyChanges, if_neg hfile, hinterned]

theorem find?_files_applyFile {file : FileId} (hfile : file ≠ state.1.number d.path) :
    out.1.files.find? file = state.1.files.find? file := by
  rw [(batched_applyFile h).files, List.foldl_cons, List.foldl_nil,
    number_of_fileId? ((fileId?_applyFile h d.path).trans (if_pos (Path.same_self _))),
    if_neg hfile.symm]

theorem fileId?_applyFile_of_ne {q : Path} (hq : d.path.same q = false) :
    out.1.fileId? q = state.1.fileId? q ∧ state.1.fileId? q ≠ some (state.1.number d.path) := by
  have hnumber : out.1.fileId? d.path = some (state.1.number d.path) := by
    rw [fileId?_applyFile h, if_pos (Path.same_self _)]
  have hkept : out.1.fileId? q = state.1.fileId? q := by
    rw [fileId?_applyFile h, if_neg (Bool.eq_false_iff.mp hq)]
  refine ⟨hkept, fun he => ?_⟩
  rw [same_of_fileId?_eq hnumber (hkept.trans he)] at hq
  cases hq

theorem file?_applyFile {q : Path} (hq : d.path.same q = false) :
    out.1.file? q = state.1.file? q := by
  obtain ⟨hkept, hne⟩ := fileId?_applyFile_of_ne h hq
  rw [file?, file?, hkept]
  cases hf : state.1.fileId? q with
  | none => rfl
  | some file => exact find?_files_applyFile h fun he => hne (by rw [hf, he])

theorem snapshot?_applyFile (q : Path) :
    out.1.snapshot? q = if d.path.same q then d.snapshot else state.1.snapshot? q := by
  split
  next hq =>
    have hnumber := fileId?_applyFile h d.path
    rw [if_pos (Path.same_self _)] at hnumber
    rw [← snapshot?_congr _ hq, snapshot?_eq_bind, hnumber, Option.bind_some, snapshotAt?,
      (batched_applyFile h).files, List.foldl_cons, List.foldl_nil,
      if_pos (number_of_fileId? hnumber)]
    cases hs : d.snapshot <;> simp [FileDelta.record, hs]
  next hq => rw [snapshot?, file?_applyFile h (Bool.eq_false_iff.mpr hq), snapshot?]

theorem includesOf_applyFile {q : Path} (hq : d.path.same q = false) :
    out.1.includes.includesOf q = state.1.includes.includesOf q := by
  let changed := applyChanges (state.1.number d.path) d.changes
    ((state.1.intern d.path).1, state.2)
  have hincludes : changed.1.includes = state.1.includes := by
    rw [(sameFiles_applyChanges ..).2.2, intern_fst]
  rw [applyFile_eq h, settle_frame, ← applyChanges_eq_edits, IncludeGraph.includesOf_eq,
    IncludeGraph.includesOf_eq]
  dsimp only
  rw [hincludes]
  split
  next => rw [IncludeGraph.includesAt_setIncludes_of_ne _ _ hq]
  next => rw [IncludeGraph.includesAt_remove, if_neg (Bool.eq_false_iff.mp hq)]

theorem linked_applyFile (hl : state.1.Linked) : out.1.Linked := by
  intro p q
  rw [(batched_applyFile h).edges, List.foldl_cons, List.foldl_nil, snapshot?_applyFile h]
  split
  next => rfl
  next => exact hl p q

theorem SparesOthers.of_applyFile (hs : state.1.Sound) :
    state.1.SparesOthers d.path (state.1.number d.path) out.1 := by
  let own := state.1.number d.path
  have hbatch := batched_applyFile h
  have hnumber : out.1.fileId? d.path = some own := by
    rw [fileId?_applyFile h, if_pos (Path.same_self _)]
  have hagree : ∀ c id file, file ≠ own →
      out.1.contribution? c id file = state.1.contribution? c id file :=
    fun c id _ hfile => contribution?_applyFile h hfile c id
  refine ⟨hnumber, fun q hq => fileId?_applyFile_of_ne h hq, fun file q hq => ?_,
    fun q hq => file?_applyFile h hq, fun q hq => includesOf_applyFile h hq, hagree,
    fun c id d₀ file v hd hfile hv => ?_, fun c id d₀ file info hd hfile hdefinition => ?_⟩
  · obtain ⟨rest, hrest⟩ := hbatch.paths
    obtain ⟨hlt, -⟩ := List.getElem?_eq_some_iff.mp hq
    rw [pathOf?, ← hrest, List.getElem?_append_left hlt]
    exact hq
  · obtain ⟨d', hd', hfind⟩ := exists_definition_of_agree (hagree c id) hd hfile hv
    obtain ⟨hid, hc⟩ := hs.named c id d₀ hd
    obtain ⟨hid', hc'⟩ := (hbatch.sound hs).named c id d' hd'
    exact ⟨d', hd', hid'.trans hid.symm, hc'.trans hc.symm, (hfind file hfile).trans hv⟩
  · obtain ⟨v, hv, -⟩ := Option.bind_eq_some_iff.mp (Definition.definition?_eq_some.mp hdefinition).1
    obtain ⟨d', hd', hfind⟩ := exists_definition_of_agree (hagree c id) hd hfile hv
    exact ⟨d', hd', Definition.definition?_of_agree hfind hfile hdefinition⟩

end Apply

/-- However a database was reached, its edges are those of the snapshots on record. -/
theorem Reachable.linked (h : db.Reachable) : db.Linked := by
  have run : ∀ (delta : Delta) {state out : Database × ApplyStats}, state.1.Linked →
      delta.foldlM applyFile state = .ok out → out.1.Linked := by
    intro delta
    induction delta with
    | nil =>
      intro state out hl hrun
      cases hrun
      exact hl
    | cons d rest ih =>
      intro state out hl hrun
      obtain ⟨mid, hmid, hrest⟩ := exists_of_foldlM_cons hrun
      exact ih (linked_applyFile hmid hl) hrest
  induction h with
  | empty => exact fun _ _ => rfl
  | apply _ happly ih => exact run _ ih happly

/-- A delta that is accepted spares every other file, whatever is in it. -/
theorem Reachable.apply_spares_others (h : db.Reachable) (happly : db.apply [d] = .ok out) :
    db.SparesOthers d.path (db.number d.path) out.1 := by
  obtain ⟨mid, hmid, hrest⟩ := exists_of_foldlM_cons happly
  cases hrest
  exact SparesOthers.of_applyFile hmid h.sound

/-- Two files share a header and a symbol, which the second defines. -/
def sharingBatch : Delta :=
  let user : ViewUpdate := { id := ⟨300⟩, uses := ⟨[⟨.onLine 4 1 2, ⟨32⟩⟩], []⟩ }
  let definer : ViewUpdate :=
    { id := ⟨300⟩, info := some { name := "f", spell := some (.onLine 1 5 6) } }
  let file (p : Path) : Snapshot :=
    { path := p, modified := 0, dependencies := .ofList [(⟨"/w/a.h"⟩, none)] }
  [⟨⟨"/w/a.cc"⟩, some (file ⟨"/w/a.cc"⟩), ⟨{}, ⟨[], [user]⟩, {}⟩⟩,
    ⟨⟨"/w/b.cc"⟩, some (file ⟨"/w/b.cc"⟩), ⟨{}, ⟨[], [definer, { id := ⟨301⟩ }]⟩, {}⟩⟩]

/-- The first file goes, under another spelling, and takes back more than it ever contributed. -/
def overreachingRemoval : FileDelta :=
  ⟨⟨"/w//a.cc"⟩, none, .same ⟨[⟨300⟩, ⟨301⟩, ⟨300⟩, ⟨999⟩], []⟩⟩

theorem spares_others_overreaching :
    ∃ db out, empty.apply sharingBatch = .ok db ∧ db.1.apply [overreachingRemoval] = .ok out ∧
      db.1.SparesOthers overreachingRemoval.path 0 out.1 ∧ db.1.fileId? ⟨"/w/b.cc"⟩ = some 1 ∧
      (db.1.contribution? .func ⟨300⟩ 0).isSome = true ∧
      out.1.contribution? .func ⟨300⟩ 0 = none ∧
      (out.1.contribution? .func ⟨300⟩ 1).isSome = true ∧
      (out.1.definitionIn? .func ⟨301⟩).isSome = true ∧
      out.1.includes.includesOf ⟨"/w/b.cc"⟩ = [⟨"/w/a.h"⟩] := by
  obtain ⟨db, hdb⟩ : ∃ db, empty.apply sharingBatch = .ok db := ⟨_, rfl⟩
  obtain ⟨out, hout⟩ : ∃ out, db.1.apply [overreachingRemoval] = .ok out := by
    cases hdb
    exact ⟨_, rfl⟩
  have hreach : db.1.Reachable := .apply .empty hdb
  have hnumber : db.1.number overreachingRemoval.path = 0 := by cases hdb; rfl
  have hspares := hreach.apply_spares_others hout
  rw [hnumber] at hspares
  refine ⟨db, out, hdb, hout, hspares, ?_⟩
  cases hdb
  cases hout
  decide +kernel

end Database

end SymbolIndex
