import SymbolIndex.Proofs.Database.Consistent

/-! Convergence of a database over a history of operations. After any history the database is what
the latest snapshot of every path says, whatever the earlier snapshots were. -/

namespace SymbolIndex

open Std

/-- What is asked of a database: to take in a snapshot or to forget a file. -/
inductive DatabaseOp
  | index (s : Snapshot)
  | remove (p : Path)

namespace DatabaseOp

def path : DatabaseOp → Path
  | index s => s.path
  | remove p => p

def snapshot : DatabaseOp → Option Snapshot
  | index s => some s
  | remove _ => none

/-- The snapshot on record for a path afterwards, given the one before. -/
def track (p : Path) (held : Option Snapshot) (op : DatabaseOp) : Option Snapshot :=
  if op.path.same p then op.snapshot else held

@[simp] theorem track_index (p : Path) (held : Option Snapshot) (s : Snapshot) :
    track p held (index s) = if s.path.same p then some s else held := rfl

@[simp] theorem track_remove (p q : Path) (held : Option Snapshot) :
    track p held (remove q) = if q.same p then none else held := rfl

/-- The paths met so far; only an indexed file is met. -/
def meet (known : List Path) : DatabaseOp → List Path
  | index s => if known.any s.path.same then known else known ++ [s.path]
  | remove _ => known

end DatabaseOp

/-- The snapshot a path was indexed with last, unless it was removed since. -/
def latest? (ops : List DatabaseOp) (p : Path) : Option Snapshot :=
  ops.foldl (DatabaseOp.track p) none

/-- The paths in the order in which they were indexed first. -/
def met (ops : List DatabaseOp) : List Path := ops.foldl DatabaseOp.meet []

namespace Database

def perform (db : Database) : DatabaseOp → Except LeftBehind Database
  | .index s => (db.index s).map (·.1)
  | .remove p =>
    match db.removeFile p with
    | some result => result.map (·.1)
    | none => .ok db

def after (ops : List DatabaseOp) : Except LeftBehind Database := ops.foldlM perform empty

theorem Consistent.apply {db : Database} {d : FileDelta} (h : db.Consistent)
    (hd : d.LeadsFrom (db.snapshot? d.path))
    (hp : ∀ s, d.snapshot = some s → d.path.same s.path = true) :
    ∃ out, db.apply [d] = .ok out ∧ db.Merged d out.1 := by
  have hstart : ((db, {}) : Database × ApplyStats).1.Consistent := h
  obtain ⟨out, ho, hm⟩ := hstart.applyFile hd hp
  refine ⟨out, ?_, hm⟩
  rw [Database.apply, List.foldlM_cons, ho]
  rfl

theorem Consistent.index {db : Database} (h : db.Consistent) (s : Snapshot) :
    ∃ out, db.index s = .ok out ∧
      db.Merged (FileDelta.between (db.snapshot? s.path) s) out.1 := by
  refine h.apply (FileDelta.leadsFrom_between _ _) fun s' hs => ?_
  rw [← Option.some.inj hs]
  exact Path.same_self _

/-- A removal is always of a path that is numbered already. -/
theorem Consistent.applyFile_removal {state : Database × ApplyStats} (h : state.1.Consistent)
    {p : Path} {s : Snapshot} (hs : state.1.snapshot? p = some s) :
    ∃ out, Database.applyFile state (.removal s) = .ok out ∧
      state.1.Merged (FileDelta.removal s) out.1 ∧ out.1.paths = state.1.paths := by
  have hp := h.snapshot?_path hs
  have hd : (FileDelta.removal s).LeadsFrom (state.1.snapshot? (FileDelta.removal s).path) := by
    rw [show state.1.snapshot? (FileDelta.removal s).path = some s from
      (snapshot?_congr state.1 hp).symm.trans hs]
    exact FileDelta.leadsFrom_removal s
  obtain ⟨out, ho, hm⟩ := h.applyFile hd fun s' hs' => by cases hs'
  refine ⟨out, ho, hm, ?_⟩
  rw [snapshot?_eq_bind] at hs
  obtain ⟨file, hf, _⟩ := Option.bind_eq_some_iff.mp hs
  obtain ⟨q, hq, hpq⟩ := same_of_fileId? hf
  have hany : state.1.paths.any (FileDelta.removal s).path.same = true :=
    List.any_eq_true.mpr ⟨q, List.mem_of_getElem? hq, by
      rw [show (FileDelta.removal s).path = s.path from rfl, ← Path.same_congr hp]
      exact hpq⟩
  rw [hm.paths, if_pos hany]

theorem Consistent.removeFile {db : Database} (h : db.Consistent) {p : Path} {s : Snapshot}
    (hs : db.snapshot? p = some s) :
    ∃ out, db.removeFile p = some (.ok out) ∧ db.Merged (FileDelta.removal s) out.1 ∧
      out.1.paths = db.paths := by
  have hstart : ((db, {}) : Database × ApplyStats).1.Consistent := h
  obtain ⟨out, ho, hm, hpaths⟩ := hstart.applyFile_removal hs
  refine ⟨out, ?_, hm, hpaths⟩
  rw [Database.removeFile, hs, Option.map_some, Database.apply, List.foldlM_cons, ho]
  rfl

theorem Consistent.perform {db : Database} (h : db.Consistent) (op : DatabaseOp) :
    ∃ db', db.perform op = .ok db' ∧ db'.Consistent ∧ db'.paths = op.meet db.paths ∧
      ∀ p, db'.snapshot? p = op.track p (db.snapshot? p) := by
  cases op with
  | index s =>
    obtain ⟨out, ho, hm⟩ := h.index s
    exact ⟨out.1, by rw [Database.perform, ho]; rfl, hm.consistent, hm.paths, hm.snapshot?⟩
  | remove p =>
    cases hs : db.snapshot? p with
    | none =>
      refine ⟨db, by rw [Database.perform, Database.removeFile, hs]; rfl, h, rfl, fun q => ?_⟩
      rw [DatabaseOp.track]
      split
      next hpq => exact (snapshot?_congr db hpq).symm.trans hs
      next => rfl
    | some s =>
      obtain ⟨out, ho, hm, hpaths⟩ := h.removeFile hs
      refine ⟨out.1, by rw [Database.perform, ho]; rfl, hm.consistent, hpaths, fun q => ?_⟩
      rw [hm.snapshot?, DatabaseOp.track]
      rw [show (FileDelta.removal s).path.same = p.same from
        (Path.same_congr (h.snapshot?_path hs)).symm]
      rfl

theorem Consistent.performAll {db : Database} (h : db.Consistent) (ops : List DatabaseOp) :
    ∃ db', ops.foldlM Database.perform db = .ok db' ∧ db'.Consistent ∧
      db'.paths = ops.foldl DatabaseOp.meet db.paths ∧
      ∀ p, db'.snapshot? p = ops.foldl (DatabaseOp.track p) (db.snapshot? p) := by
  induction ops generalizing db with
  | nil => exact ⟨db, rfl, h, rfl, fun _ => rfl⟩
  | cons op rest ih =>
    obtain ⟨db₁, h₁, hc₁, hp₁, hs₁⟩ := h.perform op
    obtain ⟨db₂, h₂, hc₂, hp₂, hs₂⟩ := ih hc₁
    refine ⟨db₂, ?_, hc₂, ?_, fun p => ?_⟩
    · rw [List.foldlM_cons, h₁]
      exact h₂
    · rw [hp₂, hp₁, List.foldl_cons]
    · rw [hs₂, hs₁, List.foldl_cons]

/-- A consistent database that has the latest snapshots of a history on record. -/
structure Reflects (db : Database) (ops : List DatabaseOp) : Prop where
  consistent : db.Consistent
  paths : db.paths = met ops
  snapshot? : ∀ p, db.snapshot? p = latest? ops p

theorem after_ok (ops : List DatabaseOp) : ∃ db, after ops = .ok db ∧ db.Reflects ops := by
  obtain ⟨db, hdb, h, hp, hs⟩ := consistent_empty.performAll ops
  exact ⟨db, hdb, h, hp, hs⟩

def contributionOf? (db : Database) (c : Category) (id : SymbolId) (p : Path) :
    Option SymbolView :=
  (db.fileId? p).bind (db.contribution? c id)

theorem Consistent.contributionOf? {db : Database} (h : db.Consistent) (c : Category)
    (id : SymbolId) (p : Path) :
    db.contributionOf? c id p =
      ((db.snapshot? p).bind fun s => s.find? c id).map SymbolView.tidy := by
  rw [Database.contributionOf?, snapshot?_eq_bind]
  cases db.fileId? p with
  | none => rfl
  | some file => exact h.views c id file

/-- Every contribution of a consistent database is that of a file on record. -/
theorem Consistent.contributor {db : Database} (h : db.Consistent) {c : Category} {id : SymbolId}
    {d : Definition} {file : FileId} {v : SymbolView} (hd : db.definitionIn? c id = some d)
    (hv : d.contributions.find? file = some v) :
    ∃ p s, db.fileId? p = some file ∧ db.snapshot? p = some s ∧
      (s.find? c id).map SymbolView.tidy = some v := by
  rw [← contribution?_of_definitionIn? hd, h.views] at hv
  obtain ⟨view, hview, hv⟩ := Option.map_eq_some_iff.mp hv
  obtain ⟨s, hs, hview⟩ := Option.bind_eq_some_iff.mp hview
  obtain ⟨p, hp, hps⟩ := h.recorded file s hs
  have hf := h.distinct.fileId?_eq hp (Path.same_self p)
  refine ⟨p, s, hf, ?_, by rw [hview, Option.map_some, hv]⟩
  rw [snapshot?_eq_bind, hf]
  exact hs

/-- No history fails. Afterwards a path contributes to a symbol what its latest snapshot says about
the symbol, a symbol is kept only for what some file on record contributes to it, and the snapshots
on record are the latest ones. -/
theorem after_converges (ops : List DatabaseOp) :
    ∃ db, after ops = .ok db ∧
      (∀ c id p, db.contributionOf? c id p =
        ((latest? ops p).bind fun s => s.find? c id).map SymbolView.tidy) ∧
      (∀ c id d, db.definitionIn? c id = some d →
        d.contributions.isEmpty = false ∧
        ∀ file v, d.contributions.find? file = some v →
          ∃ p, db.fileId? p = some file ∧ db.contributionOf? c id p = some v) ∧
      ∀ p, db.snapshot? p = latest? ops p := by
  obtain ⟨db, hdb, h, _, hs⟩ := after_ok ops
  refine ⟨db, hdb, fun c id p => ?_, fun c id d hd => ⟨?_, fun file v hv => ?_⟩, hs⟩
  · rw [h.contributionOf?, hs]
  · exact h.sound.backed c id d hd
  · obtain ⟨p, s, hf, hps, hv⟩ := h.contributor hd hv
    exact ⟨p, hf, by rw [h.contributionOf?, hps, Option.bind_some, hv]⟩

end Database

end SymbolIndex
