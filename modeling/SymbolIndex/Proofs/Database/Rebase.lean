import SymbolIndex.Proofs.Database.Locality

/-! Deltas that come late. A delta was computed from the snapshot that a file had at some point of a
history; `rebase` brings it up to what the file has by now, so it does what the same delta computed
now would do. A removal that comes after the file is gone takes nothing away. -/

namespace SymbolIndex

open Std

/-- The same delta computed from another snapshot; a removal needs one. -/
def FileDelta.recompute (d : FileDelta) (current : Option Snapshot) : FileDelta :=
  match d.snapshot, current with
  | some s, _ => .between current s
  | none, some current => .removal current
  | none, none => d

theorem FileDelta.leadsFrom_none (previous : Snapshot) : (removal previous).LeadsFrom none := by
  intro c id
  rw [removal, PerCategory.get_build]
  exact ite_self none

theorem FileDelta.exists_of_mem_edits_removal {previous : Snapshot} {file : FileId} {e : Edit}
    (h : e ∈ (removal previous).changes.edits file) : ∃ c id, e = .takeBack file c id := by
  obtain ⟨c, _, he⟩ := List.mem_flatMap.mp h
  rw [removal, PerCategory.get_build] at he
  rcases List.mem_append.mp he with he | he
  · obtain ⟨id, _, rfl⟩ := List.mem_map.mp he
    exact ⟨c, id, rfl⟩
  · cases he

/-- A test of identity on snapshots that may be missing. -/
def unchangedBy (identical : Snapshot → Snapshot → Bool) : Option Snapshot → Option Snapshot → Bool
  | none, none => true
  | some current, some s => identical current s
  | _, _ => false

theorem eq_of_unchangedBy {identical : Snapshot → Snapshot → Bool}
    (h : ∀ a b, identical a b = true → a = b) {current basedOn : Option Snapshot}
    (hu : unchangedBy identical current basedOn = true) : current = basedOn := by
  cases current with
  | none => cases basedOn with
    | none => rfl
    | some s => cases hu
  | some current => cases basedOn with
    | none => cases hu
    | some s => exact congrArg some (h current s hu)

namespace Database

/-- Rebasing by a test of identity, which may tell equal snapshots apart. -/
def rebaseBy (identical : Snapshot → Snapshot → Bool) (db : Database) (d : FileDelta)
    (basedOn : Option Snapshot) : FileDelta :=
  if unchangedBy identical (db.snapshot? d.path) basedOn then d
  else d.recompute (db.snapshot? d.path)

theorem rebase_eq_recompute (db : Database) {d : FileDelta} {basedOn : Option Snapshot}
    (h : d.recompute basedOn = d) :
    db.rebase d basedOn = d.recompute (db.snapshot? d.path) := by
  rw [rebase]
  by_cases hu : db.snapshot? d.path = basedOn
  · exact (if_pos hu).trans (by rw [hu, h])
  · exact if_neg hu

theorem rebaseBy_eq_rebase (db : Database) {identical : Snapshot → Snapshot → Bool}
    (hidentical : ∀ a b, identical a b = true → a = b) {d : FileDelta} {basedOn : Option Snapshot}
    (h : d.recompute basedOn = d) : db.rebaseBy identical d basedOn = db.rebase d basedOn := by
  rw [db.rebase_eq_recompute h, rebaseBy]
  split
  next hu => rw [eq_of_unchangedBy hidentical hu, h]
  next => rfl

/-- However old a delta is, it is applied as a delta against what is on record. -/
theorem rebase_between (db : Database) (basedOn : Option Snapshot) (s : Snapshot) :
    db.rebase (.between basedOn s) basedOn = .between (db.snapshot? s.path) s :=
  db.rebase_eq_recompute rfl

theorem rebase_removal (db : Database) (previous : Snapshot) :
    db.rebase (.removal previous) (some previous) =
      .removal ((db.snapshot? previous.path).getD previous) := by
  rw [db.rebase_eq_recompute rfl, show (FileDelta.removal previous).path = previous.path from rfl]
  cases db.snapshot? previous.path <;> rfl

theorem Merged.contributionOf? {before after : Database} {d : FileDelta} (h : before.Merged d after)
    (hb : before.Consistent) (c : Category) (id : SymbolId) (p : Path) :
    after.contributionOf? c id p =
      if d.path.same p then (d.snapshot.bind fun s => s.find? c id).map SymbolView.tidy
      else before.contributionOf? c id p := by
  rw [h.consistent.contributionOf?, h.snapshot?]
  split
  next => rfl
  next => rw [hb.contributionOf?]

theorem linked_of_after {ops : List DatabaseOp} {db : Database} (h : after ops = .ok db) :
    db.Linked :=
  (reachable_of_after h).linked

theorem prefix_foldl_meet (ops : List DatabaseOp) (known : List Path) :
    known <+: ops.foldl DatabaseOp.meet known := by
  induction ops generalizing known with
  | nil => exact List.prefix_refl known
  | cons op rest ih =>
    refine List.IsPrefix.trans ?_ (ih _)
    cases op with
    | index s =>
      rw [DatabaseOp.meet]
      split
      next => exact List.prefix_refl known
      next => exact List.prefix_append known _
    | remove p => exact List.prefix_refl known

/-- A path that was on record at some point keeps its number for good. -/
theorem Reflects.fileId?_later {before now : Database} {earlier later : List DatabaseOp}
    (h : before.Reflects earlier) (h' : now.Reflects (earlier ++ later)) {p : Path} {s : Snapshot}
    (hs : before.snapshot? p = some s) : (now.fileId? p).isSome = true := by
  have hprefix : before.paths <+: now.paths := by
    rw [h.paths, h'.paths, met, met, List.foldl_append]
    exact prefix_foldl_meet later _
  rw [snapshot?_eq_bind] at hs
  obtain ⟨file, hf, _⟩ := Option.bind_eq_some_iff.mp hs
  exact Option.isSome_iff_exists.mpr ⟨file, fileId?_of_prefix hprefix hf⟩

/-- A removal of a file that is known and not on record is accepted and changes nothing but the
nodes of the include graph. -/
theorem Consistent.apply_removal_of_gone {db : Database} (h : db.Consistent) (hl : db.Linked)
    {previous : Snapshot} (hnumbered : (db.fileId? previous.path).isSome = true)
    (hgone : db.snapshot? previous.path = none) :
    ∃ out, db.apply [.removal previous] = .ok out ∧ db.Merged (.removal previous) out.1 ∧
      out.1.SameContents db ∧ out.1.dispatch = db.dispatch := by
  have hleads : (FileDelta.removal previous).LeadsFrom
      (db.snapshot? (FileDelta.removal previous).path) := by
    rw [show db.snapshot? (FileDelta.removal previous).path = none from hgone]
    exact FileDelta.leadsFrom_none previous
  obtain ⟨out, hout, hm⟩ := h.apply hleads fun s hs => by cases hs
  have hbatch := batched_apply hout
  have hpaths : out.1.paths = db.paths :=
    hbatch.again fun d hd => List.mem_singleton.mp hd ▸ hnumbered
  have hnumber := number_congr hpaths
  have hat : db.snapshotAt? (db.number (FileDelta.removal previous).path) = none :=
    (h.snapshotAt?_intern previous.path).trans hgone
  have hsymbols : symbolsOf out = symbolsOf (db, {}) := by
    rw [hbatch.symbols, hnumber, editsOf, List.flatMap_singleton]
    refine List.foldlRecOn (motive := (· = symbolsOf (db, {}))) _ _ rfl fun state hstate e he => ?_
    obtain ⟨c, id, rfl⟩ := FileDelta.exists_of_mem_edits_removal he
    rw [hstate]
    have hsound : (symbolsOf (db, {})).1.Sound := sound_symbols.mpr h.sound
    refine hsound.retract_absent ?_
    refine (h.views c id _).trans ?_
    rw [hat]
    rfl
  refine ⟨out, hout, hm, ⟨?_, hpaths, ?_, fun p q => ?_⟩, ?_⟩
  · exact congrArg (fun state => state.1.definitions) hsymbols
  · refine OrderedMap.ext_find? fun file => ?_
    rw [hbatch.files, hnumber, List.foldl_cons, List.foldl_nil]
    split
    next hf =>
      rw [snapshotAt?, Option.map_eq_none_iff] at hat
      rw [← hf]
      exact hat.symm
    next => rfl
  · rw [hbatch.edges, List.foldl_cons, List.foldl_nil]
    split
    next hp =>
      rw [hl, ← snapshot?_congr db hp]
      change false = (db.snapshot? previous.path).any _
      rw [hgone]
      rfl
    next => rfl
  · exact congrArg (fun state => state.1.dispatch) hsymbols

/-- A delta that was computed at some point of a history, and is rebased at a later point, is
accepted there and does what the delta between the snapshot on record and the delta's own does, or
the removal of the snapshot on record; with nothing on record, a removal changes no contribution,
record or edge. It makes no difference if the test for a changed snapshot is one of identity. -/
theorem rebase_exact (earlier later : List DatabaseOp) :
    ∃ before now, after earlier = .ok before ∧ after (earlier ++ later) = .ok now ∧
      (∀ s, ∃ out,
        now.apply [now.rebase (.between (before.snapshot? s.path) s) (before.snapshot? s.path)] =
          .ok out ∧
        now.apply [.between (now.snapshot? s.path) s] = .ok out ∧
        (∀ c id p, out.1.contributionOf? c id p =
          if s.path.same p then (s.find? c id).map SymbolView.tidy
          else now.contributionOf? c id p) ∧
        ∀ p, out.1.snapshot? p = if s.path.same p then some s else now.snapshot? p) ∧
      (∀ p previous, before.snapshot? p = some previous → ∃ out,
        now.apply [now.rebase (.removal previous) (before.snapshot? p)] = .ok out ∧
        (∀ current, now.snapshot? p = some current → now.apply [.removal current] = .ok out) ∧
        (now.snapshot? p = none → out.1.SameContents now ∧ out.1.dispatch = now.dispatch) ∧
        (∀ c id q, out.1.contributionOf? c id q =
          if p.same q then none else now.contributionOf? c id q) ∧
        ∀ q, out.1.snapshot? q = if p.same q then none else now.snapshot? q) ∧
      ∀ identical : Snapshot → Snapshot → Bool, (∀ a b, identical a b = true → a = b) →
        (∀ basedOn s, now.rebaseBy identical (.between basedOn s) basedOn =
          now.rebase (.between basedOn s) basedOn) ∧
        ∀ previous, now.rebaseBy identical (.removal previous) (some previous) =
          now.rebase (.removal previous) (some previous) := by
  obtain ⟨before, hbefore, h⟩ := after_ok earlier
  obtain ⟨now, hnow, h'⟩ := after_ok (earlier ++ later)
  refine ⟨before, now, hbefore, hnow, fun s => ?_, fun p previous hp => ?_,
    fun identical hidentical => ⟨fun basedOn s => now.rebaseBy_eq_rebase hidentical rfl,
      fun previous => now.rebaseBy_eq_rebase hidentical rfl⟩⟩
  · obtain ⟨out, hout, hm⟩ := h'.consistent.index s
    refine ⟨out, ?_, hout, hm.contributionOf? h'.consistent, hm.snapshot?⟩
    rw [rebase_between]
    exact hout
  · have hpath := h.consistent.snapshot?_path hp
    have hheld := snapshot?_congr now hpath
    rw [hp, rebase_removal, ← hheld]
    cases hcurrent : now.snapshot? p with
    | none =>
      have hnumbered := h.fileId?_later h' hp
      rw [fileId?_congr now hpath] at hnumbered
      obtain ⟨out, hout, hm, hsame⟩ := h'.consistent.apply_removal_of_gone
        (linked_of_after hnow) hnumbered (hheld.symm.trans hcurrent)
      refine ⟨out, hout, fun current hc => (by cases hc), fun _ => hsame, fun c id q => ?_,
        fun q => ?_⟩
      · rw [hm.contributionOf? h'.consistent, Path.same_congr hpath]
        rfl
      · rw [hm.snapshot?, Path.same_congr hpath]
        rfl
    | some current =>
      obtain ⟨out, hout, hm, _⟩ := h'.consistent.removeFile hcurrent
      have hpath := h'.consistent.snapshot?_path hcurrent
      rw [Database.removeFile, hcurrent] at hout
      have hout := Option.some.inj hout
      refine ⟨out, hout, fun c hc => ?_, fun hnone => (by cases hnone), fun c id q => ?_, fun q => ?_⟩
      · cases hc
        exact hout
      · rw [hm.contributionOf? h'.consistent, Path.same_congr hpath]
        rfl
      · rw [hm.snapshot?, Path.same_congr hpath]
        rfl

end Database

end SymbolIndex
