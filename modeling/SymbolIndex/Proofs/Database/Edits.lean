import SymbolIndex.Proofs.Database.Consistent
import SymbolIndex.Proofs.IncludeGraph

/-! A batch of deltas as one list of edits. Numbering a path and settling a record leave the symbols
of a database alone, so a batch acts on the symbols by its edits, one after the other, and on a
record or an edge by the last delta for its file (`Batched`). -/

namespace SymbolIndex

open Std

namespace FileDelta

def record (d : FileDelta) : Option FileRecord := d.snapshot.map (⟨d.path, ·⟩)

def includes (d : FileDelta) (p : Path) : Bool :=
  d.snapshot.any fun s => s.dependencies.contains p

end FileDelta

theorem OrderedMap.any_same_keys {ν : Type} (m : OrderedMap Path ν) (p : Path) :
    m.keys.any (·.same p) = m.contains p := by
  rw [OrderedMap.contains_eq_any]
  exact congrArg (List.any _) (funext fun k => Path.same_comm k p)

/-- The edits of a batch, for a numbering of its paths. -/
def editsOf (number : Path → FileId) (delta : Delta) : List Edit :=
  delta.flatMap fun d => d.changes.edits (number d.path)

namespace Database

/-- The number that a path has, or gets when it is met. -/
def number (db : Database) (p : Path) : FileId := (db.intern p).2

/-- The symbols of a database, apart from its files. -/
def symbols (db : Database) : Database :=
  { definitions := db.definitions, dispatch := db.dispatch }

/-- The symbols, with the counters that are about them. -/
def symbolsOf (state : Database × ApplyStats) : Database × ApplyStats :=
  (state.1.symbols, { state.2 with filesUpdated := 0, filesRemoved := 0 })

theorem symbolsOf_edit (state : Database × ApplyStats) (e : Edit) :
    symbolsOf (edit state e) = edit (symbolsOf state) e := by
  obtain ⟨db, stats⟩ := state
  cases e with
  | takeBack file c id =>
    have hd : db.symbols.definitionIn? c id = db.definitionIn? c id := rfl
    simp only [edit, retract, symbolsOf, hd]
    cases db.definitionIn? c id with
    | none => rfl
    | some d =>
      dsimp only
      split <;> rfl
  | enter file c u => rfl

theorem symbolsOf_foldl_edit (edits : List Edit) (state : Database × ApplyStats) :
    symbolsOf (edits.foldl edit state) = edits.foldl edit (symbolsOf state) :=
  (List.foldl_hom symbolsOf fun state e => (symbolsOf_edit state e).symm).symm

theorem symbolsOf_settle (d : FileDelta) (file : FileId) (state : Database × ApplyStats) :
    symbolsOf (settle d file state) = symbolsOf state := by
  rw [settle]
  cases d.snapshot <;> rfl

theorem find?_files_settle (d : FileDelta) (file f : FileId) (state : Database × ApplyStats) :
    (settle d file state).1.files.find? f =
      if file = f then d.record else state.1.files.find? f := by
  rw [settle, FileDelta.record]
  cases d.snapshot with
  | some s =>
    simp only [OrderedMap.find?_insert, LawfulEqOrd.compare_eq_iff_eq, eq_comm (a := f)]
    rfl
  | none =>
    simp only [OrderedMap.find?_erase, LawfulEqOrd.compare_eq_iff_eq]
    rfl

theorem hasEdge_settled (g : IncludeGraph) (d : FileDelta) (p q : Path) :
    (match d.snapshot with
      | some s => g.setIncludes d.path s.dependencies.keys
      | none => g.remove d.path).hasEdge p q =
      if d.path.same p then d.includes q else g.hasEdge p q := by
  rw [FileDelta.includes]
  cases d.snapshot with
  | some s =>
    refine (IncludeGraph.hasEdge_setIncludes _ _ _ p q).trans ?_
    rw [OrderedMap.any_same_keys]
    rfl
  | none =>
    refine (IncludeGraph.hasEdge_remove _ _ p q).trans ?_
    cases d.path.same p <;> rfl

theorem hasEdge_settle (d : FileDelta) (file : FileId) (state : Database × ApplyStats)
    (p q : Path) :
    (settle d file state).1.includes.hasEdge p q =
      if d.path.same p then d.includes q else state.1.includes.hasEdge p q := by
  rw [settle_frame]
  exact hasEdge_settled ..

theorem eq_of_accepted {ε α : Type} {accepted : Bool} {a out : α} {e : ε}
    (h : (if accepted then Except.ok a else .error e) = .ok out) : out = a := by
  cases accepted with
  | false => cases h
  | true => exact (Except.ok.inj h).symm

theorem applyFile_eq {state out : Database × ApplyStats} {d : FileDelta}
    (h : applyFile state d = .ok out) :
    out = settle d (state.1.number d.path)
      ((d.changes.edits (state.1.number d.path)).foldl edit ((state.1.intern d.path).1, state.2)) := by
  rw [← applyChanges_eq_edits]
  exact eq_of_accepted h

theorem exists_of_foldlM_cons {d : FileDelta} {rest : Delta} {state out : Database × ApplyStats}
    (h : (d :: rest).foldlM applyFile state = .ok out) :
    ∃ mid, applyFile state d = .ok mid ∧ rest.foldlM applyFile mid = .ok out := by
  rw [List.foldlM_cons] at h
  cases hd : applyFile state d with
  | error e =>
    rw [hd] at h
    cases h
  | ok mid =>
    rw [hd] at h
    exact ⟨mid, rfl, h⟩

theorem fileId?_of_prefix {a b : Database} (h : a.paths <+: b.paths) {p : Path} {file : FileId}
    (hp : a.fileId? p = some file) : b.fileId? p = some file := by
  obtain ⟨rest, hrest⟩ := h
  rw [fileId?] at hp
  rw [fileId?, ← hrest, List.findIdx?_append, hp]
  rfl

theorem number_of_fileId? {db : Database} {p : Path} {file : FileId}
    (h : db.fileId? p = some file) : db.number p = file := by
  rw [number, intern, h]

theorem number_congr {a b : Database} (h : a.paths = b.paths) : a.number = b.number := by
  funext p
  rw [number, number, intern, intern, fileId?, fileId?, h]
  cases b.paths.findIdx? p.same <;> rfl

structure SameContents (a b : Database) : Prop where
  definitions : a.definitions = b.definitions
  paths : a.paths = b.paths
  files : a.files = b.files
  edges : ∀ p q, a.includes.hasEdge p q = b.includes.hasEdge p q

/-- What a batch does to a database. Paths keep their numbers, symbols are changed by the edits, and
a file's record and edges are those of the last delta for the file. -/
structure Batched (before : Database × ApplyStats) (delta : Delta) (after : Database × ApplyStats) :
    Prop where
  paths : before.1.paths <+: after.1.paths
  again : (∀ d ∈ delta, (before.1.fileId? d.path).isSome = true) → after.1.paths = before.1.paths
  known : ∀ d ∈ delta, after.1.fileId? d.path = some (after.1.number d.path)
  symbols : symbolsOf after = (editsOf after.1.number delta).foldl edit (symbolsOf before)
  files : ∀ file, after.1.files.find? file =
    delta.foldl (fun held d => if after.1.number d.path = file then d.record else held)
      (before.1.files.find? file)
  edges : ∀ p q, after.1.includes.hasEdge p q =
    delta.foldl (fun held d => if d.path.same p then d.includes q else held)
      (before.1.includes.hasEdge p q)

theorem batched_applyFile {state out : Database × ApplyStats} {d : FileDelta}
    (h : applyFile state d = .ok out) : Batched state [d] out := by
  have hout := applyFile_eq h
  let file := state.1.number d.path
  let edited := (d.changes.edits file).foldl edit ((state.1.intern d.path).1, state.2)
  have hframe : edited.1.SameFiles (state.1.intern d.path).1 := by
    simp only [edited, ← applyChanges_eq_edits]
    exact sameFiles_applyChanges ..
  have hpaths : out.1.paths = (state.1.intern d.path).1.paths := by
    rw [hout, settle_frame]
    exact hframe.1
  have hid : out.1.fileId? d.path = some file := by
    have := fileId?_intern state.1 d.path d.path
    rw [if_pos (Path.same_self _)] at this
    rw [fileId?, hpaths]
    exact this
  have hnumber : out.1.number d.path = file := number_of_fileId? hid
  refine ⟨?_, fun hk => ?_, ?_, ?_, fun f => ?_, fun p q => ?_⟩
  · rw [hpaths, intern_fst]
    dsimp only
    split
    next => exact List.prefix_refl _
    next => exact List.prefix_append ..
  · obtain ⟨f, hf⟩ := Option.isSome_iff_exists.mp (hk d (by simp))
    rw [hpaths, intern, hf]
  · intro e he
    rw [List.mem_singleton.mp he, hid, hnumber]
  · rw [editsOf, List.flatMap_singleton, hnumber, hout, symbolsOf_settle, symbolsOf_foldl_edit]
    refine congrArg (fun s => List.foldl edit s _) ?_
    rw [intern_fst]
    rfl
  · rw [List.foldl_cons, List.foldl_nil, hnumber, hout, find?_files_settle]
    refine congrArg (fun held => if file = f then d.record else held) ?_
    rw [hframe.2.1, intern_fst]
  · rw [List.foldl_cons, List.foldl_nil, hout, hasEdge_settle]
    refine congrArg (fun held => if d.path.same p then d.includes q else held) ?_
    rw [hframe.2.2, intern_fst]

theorem batched_foldlM {delta : Delta} {state out : Database × ApplyStats}
    (h : delta.foldlM applyFile state = .ok out) : Batched state delta out := by
  induction delta generalizing state with
  | nil =>
    cases h
    exact ⟨List.prefix_refl _, fun _ => rfl, fun d hd => (nomatch hd), rfl, fun _ => rfl,
      fun _ _ => rfl⟩
  | cons d rest ih =>
    obtain ⟨mid, hd, hrest⟩ := exists_of_foldlM_cons h
    have hfirst := batched_applyFile hd
    have hlater := ih hrest
    have hid := fileId?_of_prefix hlater.paths (hfirst.known d (by simp))
    have hnumber : mid.1.number d.path = out.1.number d.path := (number_of_fileId? hid).symm
    refine ⟨hfirst.paths.trans hlater.paths, fun hk => ?_, ?_, ?_, fun f => ?_, fun p q => ?_⟩
    · have hmid : mid.1.paths = state.1.paths :=
        hfirst.again fun e he => List.mem_singleton.mp he ▸ hk d (by simp)
      rw [← hmid]
      refine hlater.again fun e he => ?_
      rw [fileId?, hmid]
      exact hk e (List.mem_cons_of_mem _ he)
    · intro e he
      rcases List.mem_cons.mp he with rfl | he
      · rw [hid, hnumber]
      · exact hlater.known e he
    · rw [hlater.symbols, hfirst.symbols, editsOf, List.flatMap_singleton, hnumber, editsOf, editsOf,
        List.flatMap_cons, List.foldl_append]
    · rw [hlater.files, hfirst.files, List.foldl_cons, List.foldl_nil, List.foldl_cons, hnumber]
    · rw [hlater.edges, hfirst.edges]
      rfl

theorem batched_apply {db : Database} {delta : Delta} {out : Database × ApplyStats}
    (h : db.apply delta = .ok out) : Batched (db, {}) delta out := batched_foldlM h

end Database

end SymbolIndex
