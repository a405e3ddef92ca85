import SymbolIndex.Proofs.Database.Rebase
import SymbolIndex.Proofs.Database.Repetition

/-! Batches of deltas that follow a history. Each delta is computed against what is on record when
its turn comes, so a batch is accepted and leads to the same records as the operations one by one.
With no path in it twice, it is accepted a second time. -/

namespace SymbolIndex

open Std

/-- The deltas of an operation on a file, given the snapshot on record. -/
def DatabaseOp.delta (held : Option Snapshot) : DatabaseOp → Delta
  | index s => [.between held s]
  | remove _ => held.toList.map .removal

/-- The deltas of operations after a history, each against what is on record by then. -/
def deltasOf (earlier : List DatabaseOp) : List DatabaseOp → Delta
  | [] => []
  | op :: rest => op.delta (latest? earlier op.path) ++ deltasOf (earlier ++ [op]) rest

theorem latest?_append (ops ops' : List DatabaseOp) (p : Path) :
    latest? (ops ++ ops') p = ops'.foldl (DatabaseOp.track p) (latest? ops p) :=
  List.foldl_append

namespace Database

theorem Reflects.apply_delta {state : Database × ApplyStats} {earlier : List DatabaseOp}
    (h : state.1.Reflects earlier) (op : DatabaseOp) :
    ∃ out, (op.delta (latest? earlier op.path)).foldlM applyFile state = .ok out ∧
      out.1.Reflects (earlier ++ [op]) := by
  have hmet : ∀ {db : Database}, db.paths = op.meet state.1.paths → db.paths = met (earlier ++ [op]) := by
    intro db hdb
    rw [hdb, h.paths, met, met, List.foldl_append]
    rfl
  rw [← h.snapshot?]
  cases op with
  | index s =>
    obtain ⟨out, hout, hm⟩ := h.consistent.applyFile
      (d := .between (state.1.snapshot? s.path) s) (FileDelta.leadsFrom_between _ s)
      fun s' hs => Option.some.inj hs ▸ Path.same_self _
    refine ⟨out, ?_, hm.consistent, hmet hm.paths, fun p => ?_⟩
    · rw [DatabaseOp.delta, List.foldlM_cons]
      exact congrArg (· >>= _) hout
    · rw [hm.snapshot?, latest?_append, ← h.snapshot? p]
      rfl
  | remove p =>
    change ∃ out, (DatabaseOp.delta (state.1.snapshot? p) (.remove p)).foldlM applyFile state = .ok out ∧ _
    cases hs : state.1.snapshot? p with
    | none =>
      refine ⟨state, rfl, h.consistent, hmet rfl, fun q => ?_⟩
      rw [latest?_append, ← h.snapshot? q, List.foldl_cons, List.foldl_nil, DatabaseOp.track]
      split
      next hpq => exact (snapshot?_congr state.1 hpq).symm.trans hs
      next => rfl
    | some s =>
      obtain ⟨out, hout, hm, hpaths⟩ := h.consistent.applyFile_removal hs
      refine ⟨out, ?_, hm.consistent, hmet hpaths, fun q => ?_⟩
      · rw [DatabaseOp.delta, Option.toList_some, List.map_singleton, List.foldlM_cons, hout]
        rfl
      · rw [hm.snapshot?, latest?_append, ← h.snapshot? q]
        rw [show (FileDelta.removal s).path.same = p.same from
          (Path.same_congr (h.consistent.snapshot?_path hs)).symm]
        rfl

theorem Reflects.apply_deltasOf {state : Database × ApplyStats} {earlier : List DatabaseOp}
    (h : state.1.Reflects earlier) (ops : List DatabaseOp) :
    ∃ out, (deltasOf earlier ops).foldlM applyFile state = .ok out ∧
      out.1.Reflects (earlier ++ ops) := by
  induction ops generalizing earlier state with
  | nil => exact ⟨state, rfl, by rw [List.append_nil]; exact h⟩
  | cons op rest ih =>
    obtain ⟨mid, hmid, hm⟩ := h.apply_delta op
    obtain ⟨out, hout, ho⟩ := ih hm
    refine ⟨out, ?_, by rw [List.append_assoc] at ho; exact ho⟩
    rw [deltasOf, List.foldlM_append, hmid]
    exact hout

end Database

section Again

theorem ViewUpdate.applyTo_again (u : ViewUpdate) (v : SymbolView) :
    u.applyTo (u.applyTo v) = u.applyTo v := by
  have h := @Edit.foldl_act_act .type u.id 0 [.enter 0 .type u] (some v)
  simpa [Edit.act] using h

theorem CategoryDelta.viewAfter_between_again (previous current : OrderedMap SymbolId SymbolView)
    (id : SymbolId) :
    (between previous current).viewAfter id ((current.find? id).map SymbolView.tidy) =
      (current.find? id).map SymbolView.tidy := by
  rw [viewAfter, updates_between]
  cases hv : current.find? id with
  | none => exact ite_self none
  | some v =>
    have hkept : id ∉ (between previous current).removed := fun h => by
      rw [find?_of_mem_removed h] at hv
      cases hv
    let u := ViewUpdate.between id ((previous.find? id).getD .empty) v
    have hentered : u.applyTo ((previous.find? id).getD .empty).tidy = v.tidy :=
      ViewUpdate.applyTo_between ..
    rw [if_neg hkept]
    change some (u.applyTo v.tidy) = some v.tidy
    rw [← hentered, ViewUpdate.applyTo_again]

theorem FileDelta.leadsFrom_between_again (previous : Option Snapshot) (s : Snapshot) :
    (between previous s).LeadsFrom (some s) := by
  intro c id
  rw [between, PerCategory.get_build]
  exact CategoryDelta.viewAfter_between_again _ _ id

/-- A delta that does no more than confirm what is on record for its file. -/
structure FileDelta.SettledIn (d : FileDelta) (db : Database) : Prop where
  recorded : db.snapshot? d.path = d.snapshot
  leads : d.LeadsFrom d.snapshot
  own : ∀ s, d.snapshot = some s → d.path.same s.path = true
  kept : ∀ c id, id ∈ (d.changes.get c).removed → (d.snapshot.bind fun s => s.find? c id) = none

theorem foldl_track_of_apart {p : Path} {ops : List DatabaseOp} (held : Option Snapshot)
    (h : ∀ op ∈ ops, op.path.same p = false) : ops.foldl (DatabaseOp.track p) held = held := by
  induction ops with
  | nil => rfl
  | cons op rest ih =>
    obtain ⟨hop, hrest⟩ := List.forall_mem_cons.mp h
    rw [List.foldl_cons, DatabaseOp.track, hop]
    exact ih hrest

theorem latest?_path {ops : List DatabaseOp} {p : Path} {s : Snapshot}
    (h : latest? ops p = some s) : p.same s.path = true := by
  obtain ⟨db, _, hdb⟩ := Database.after_ok ops
  rw [← hdb.snapshot?] at h
  exact hdb.consistent.snapshot?_path h

namespace Database

/-- No file is operated on twice. -/
def Apart (ops : List DatabaseOp) : Prop :=
  ops.Pairwise fun op op' => op.path.same op'.path = false

theorem Reflects.settledIn {db : Database} {earlier ops : List DatabaseOp}
    (h : db.Reflects (earlier ++ ops)) (hapart : Apart ops) {d : FileDelta}
    (hd : d ∈ deltasOf earlier ops) : d.SettledIn db := by
  induction ops generalizing earlier with
  | nil => cases hd
  | cons op rest ih =>
    obtain ⟨hfirst, hrest⟩ := List.pairwise_cons.mp hapart
    rcases List.mem_append.mp hd with hd | hd
    · have hrecorded : ∀ p, op.path.same p = true → db.snapshot? p = op.snapshot := by
        intro p hp
        have hother : ∀ op' ∈ rest, op'.path.same p = false := fun op' hop' => by
          rw [Path.same_comm, ← Path.same_congr hp]
          exact hfirst op' hop'
        rw [h.snapshot?, latest?_append, List.foldl_cons, DatabaseOp.track, if_pos hp,
          foldl_track_of_apart _ hother]
      cases op with
      | index s =>
        rw [DatabaseOp.delta, List.mem_singleton] at hd
        rw [hd]
        refine ⟨hrecorded s.path (Path.same_self _), FileDelta.leadsFrom_between_again _ s,
          fun s' hs => Option.some.inj hs ▸ Path.same_self _, fun c id hid => ?_⟩
        rw [FileDelta.between, PerCategory.get_build] at hid
        exact CategoryDelta.find?_of_mem_removed hid
      | remove p =>
        obtain ⟨s, hs, rfl⟩ := List.mem_map.mp hd
        refine ⟨hrecorded s.path (latest?_path (Option.mem_toList.mp hs)),
          FileDelta.leadsFrom_none s, fun _ hs' => (by cases hs'), fun _ _ _ => rfl⟩
    · exact ih (by rw [List.append_assoc]; exact h) hrest hd

theorem Consistent.apply_settled {state : Database × ApplyStats} (h : state.1.Consistent)
    {delta : Delta} (hd : ∀ d ∈ delta, d.SettledIn state.1) :
    ∃ out, delta.foldlM Database.applyFile state = .ok out := by
  induction delta generalizing state with
  | nil => exact ⟨state, rfl⟩
  | cons d rest ih =>
    obtain ⟨hfirst, hrest⟩ := List.forall_mem_cons.mp hd
    obtain ⟨mid, hmid, hm⟩ := h.applyFile (hfirst.recorded ▸ hfirst.leads) hfirst.own
    have hsame : ∀ p, mid.1.snapshot? p = state.1.snapshot? p := by
      intro p
      rw [hm.snapshot?]
      split
      next hp => rw [← snapshot?_congr state.1 hp, hfirst.recorded]
      next => rfl
    obtain ⟨out, hout⟩ := ih hm.consistent fun e he =>
      { hrest e he with recorded := (hsame e.path).trans (hrest e he).recorded }
    refine ⟨out, ?_⟩
    rw [List.foldlM_cons, hmid]
    exact hout

end Database

end Again

end SymbolIndex
