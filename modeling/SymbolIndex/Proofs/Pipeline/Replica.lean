import SymbolIndex.Proofs.Cache.Slots
import SymbolIndex.Proofs.Remap
import SymbolIndex.Pipeline

/-! What indexing comes to. For every file there is a snapshot on record and an entry in the cache. A
file whose entry describes it is replayed with its direct includes; for any other the records of the
engine are taken over. -/

namespace SymbolIndex

/-- A snapshot's own file and its direct includes. -/
def Snapshot.mentions (s : Snapshot) (q : Path) : Bool :=
  q.same s.path || s.dependencies.contains q

def assign {α : Type} (f : Path → Option α) (p : Path) (v : α) : Path → Option α :=
  fun q => if q.same p then some v else f q

@[ext] structure Replica where
  held : Path → Option Snapshot
  kept : Path → Option CachedSnapshot

namespace Replica

/-- Put a snapshot on record, and an entry into the cache if there is one. -/
def put (m : Replica) (c : Snapshot × Option CachedSnapshot) : Replica where
  held := assign m.held c.1.path c.1
  kept := c.2.elim m.kept (assign m.kept c.1.path)

/-- Put on record what the cache holds for a file and its direct includes, as far as nothing is on
record for them. -/
def replay (m : Replica) (e : CachedSnapshot) : Replica where
  held q := if e.payload.mentions q then m.held q <|> (m.kept q).map (·.payload) else m.held q
  kept := m.kept

def due (m : Replica) (q : Path) : List (Snapshot × Option CachedSnapshot) :=
  if (m.held q).isNone then ((m.kept q).map fun e => (e.payload, none)).toList else []

theorem mem_due {m : Replica} {q : Path} {c : Snapshot × Option CachedSnapshot} :
    c ∈ m.due q ↔ m.held q = none ∧ ∃ e, m.kept q = some e ∧ c = (e.payload, none) := by
  rw [due]
  cases m.held q <;> cases m.kept q <;> simp

end Replica

/-- The entry that a record makes for its file. -/
def Record.entry (r : Record) (cwd : Path) (args : List String) : CachedSnapshot :=
  let s := (r.remap (some cwd) fun _ => none).1
  let s := if s.args = [] then { s with args } else s
  ⟨s.modified, r.text, s⟩

theorem Record.entry_frame (r : Record) (cwd : Path) (args : List String) :
    (r.entry cwd args).payload.path = r.path.normalize (some cwd) ∧
      (r.entry cwd args).payload.modified = r.modified ∧
      (r.entry cwd args).payload.dependencies =
        .ofList (r.dependencies.map fun d => (d.path.normalize (some cwd), d.modified)) := by
  obtain ⟨symbols, hs⟩ := r.relabeled_remap (some cwd) fun _ => none
  rw [entry, hs]
  dsimp only
  split <;> exact ⟨rfl, rfl, rfl⟩

/-- What does not change while a project is indexed: the files, and what the engine says of each. -/
structure Setting where
  disk : Disk
  project : Project
  store : CacheStore
  answer : Path → Extraction

namespace Setting

def entry (w : Setting) (file : Path) (r : Record) : CachedSnapshot :=
  r.entry w.disk.cwd (w.project.argsFor file)

def records (w : Setting) (file : Path) : List Record :=
  match w.answer file with
  | .records records => records
  | .failed _ | .crashed _ => []

/-- The entry of a file, if it describes the file as it is. -/
def fresh? (w : Setting) (m : Replica) (file : Path) : Option CachedSnapshot :=
  (m.kept file).filter (Freshness.describes w.disk file (w.project.argsFor file))

def serve (w : Setting) (m : Replica) (file : Path) : Replica :=
  (w.fresh? m file).elim
    (((w.records file).map fun r => ((w.entry file r).payload, some (w.entry file r))).foldl
      Replica.put m)
    m.replay

def Recorded (w : Setting) (p : Path) : Prop :=
  ∃ file, ∃ r ∈ w.records file, r.path.normalize (some w.disk.cwd) = p

/-- Records give the times on disk, their entries can be read back, no two of their files share a
slot, and nothing is in the cache directory but the cache. -/
structure Truthful (w : Setting) : Prop where
  cwd : w.disk.cwd.isAbsolute = true
  vacant : w.disk.Vacant w.store.root
  modified : ∀ file, ∀ r ∈ w.records file,
    w.disk.modified? (r.path.normalize (some w.disk.cwd)) = some r.modified
  includes : ∀ file, ∀ r ∈ w.records file, ∀ d ∈ r.dependencies,
    w.disk.modified? (d.path.normalize (some w.disk.cwd)) = d.modified
  fits : ∀ file, ∀ r ∈ w.records file, Envelope.Fits w.store.format
    ((w.store.envelope (r.path.normalize (some w.disk.cwd)) (w.entry file r)).encode
      w.store.format)
  apart : ∀ a b, w.Recorded a → w.Recorded b →
    CacheStore.slotName a = CacheStore.slotName b → a = b

/-- An entry that a record made. -/
structure Genuine (w : Setting) (e : CachedSnapshot) : Prop where
  recorded : w.Recorded e.payload.path
  canonical : w.disk.cwd.Canonical e.payload.path
  time : e.modified = e.payload.modified
  modified : w.disk.modified? e.payload.path = some e.payload.modified
  includes : ∀ d ∈ e.payload.dependencies.entries,
    w.disk.cwd.Canonical d.1 ∧ w.disk.modified? d.1 = d.2
  fits : Envelope.Fits w.store.format
    ((w.store.envelope e.payload.path e).encode w.store.format)

variable {w : Setting}

theorem entry_frame (w : Setting) (file : Path) (r : Record) :
    (w.entry file r).payload.path = r.path.normalize (some w.disk.cwd) ∧
      (w.entry file r).payload.modified = r.modified ∧
      (w.entry file r).payload.dependencies = .ofList (r.dependencies.map fun d =>
        (d.path.normalize (some w.disk.cwd), d.modified)) :=
  r.entry_frame _ _

theorem Truthful.genuine (h : w.Truthful) {file : Path} {r : Record} (hr : r ∈ w.records file) :
    w.Genuine (w.entry file r) := by
  obtain ⟨hpath, hmodified, hincludes⟩ := w.entry_frame file r
  refine ⟨?_, ?_, rfl, ?_, ?_, ?_⟩
  · rw [hpath]
    exact ⟨file, r, hr, rfl⟩
  · rw [hpath]
    exact Path.canonical_normalize h.cwd _
  · rw [hpath, hmodified]
    exact h.modified file r hr
  · rw [hincludes]
    refine OrderedMap.forall_mem_ofList (fun k v k' v' hk hp hp' => ?_) fun e he => ?_
    · have heq : k = k' := hp.1.eq_of_same h.cwd hp'.1 (Path.compare_eq_iff.mp hk)
      exact heq ▸ hp
    · obtain ⟨d, hd, rfl⟩ := List.mem_map.mp he
      exact ⟨Path.canonical_normalize h.cwd _, h.includes file r hr d hd⟩
  · rw [hpath]
    exact h.fits file r hr

/-- Files that are added to the disk do not change what an entry describes. -/
theorem Genuine.describes {e : CachedSnapshot} (he : w.Genuine e) {d : Disk}
    (hd : w.disk.Extends d) {file : Path} (hf : (w.disk.modified? file).isSome = true)
    (args : List String) :
    Freshness.describes d file args e = Freshness.describes w.disk file args e := by
  have hunchanged : ∀ q recorded, w.disk.modified? q = recorded →
      Freshness.unchanged d q recorded = Freshness.unchanged w.disk q recorded := by
    intro q recorded hq
    rw [Freshness.unchanged, Freshness.unchanged]
    cases hm : w.disk.modified? q with
    | some t => rw [hd.modified? hm]
    | none =>
      rw [← hq, hm]
      cases d.modified? q <;> simp
  obtain ⟨t, ht⟩ := Option.isSome_iff_exists.mp hf
  have hincludes : e.payload.dependencies.entries.all
        (fun dep => Freshness.unchanged d dep.1 dep.2) =
      e.payload.dependencies.entries.all fun dep => Freshness.unchanged w.disk dep.1 dep.2 := by
    rw [Bool.eq_iff_iff, List.all_eq_true, List.all_eq_true]
    refine forall_congr' fun dep => forall_congr' fun hdep => ?_
    rw [hunchanged dep.1 dep.2 (he.includes dep hdep).2]
  rw [Freshness.describes, Freshness.describes, hincludes]
  congr 2
  rw [Freshness.unchanged, Freshness.unchanged, hd.modified? ht, ht]

/-- Every entry is genuine, and every snapshot on record gives its file's time on disk. -/
structure Honest (w : Setting) (m : Replica) : Prop where
  kept : ∀ q e, m.kept q = some e → q.same e.payload.path = true ∧ w.Genuine e
  held : ∀ q s, m.held q = some s → q.same s.path = true ∧ w.disk.cwd.Canonical s.path ∧
    w.disk.modified? s.path = some s.modified
  spelled : ∀ {p q : Path}, p.same q = true → m.held p = m.held q ∧ m.kept p = m.kept q

theorem honest_empty (w : Setting) : w.Honest ⟨fun _ => none, fun _ => none⟩ :=
  ⟨fun _ _ h => (nomatch h), fun _ _ h => (nomatch h), fun _ => ⟨rfl, rfl⟩⟩

theorem Honest.forget {m : Replica} (h : w.Honest m) : w.Honest ⟨fun _ => none, m.kept⟩ where
  kept := h.kept
  held q s hs := by cases hs
  spelled hpq := ⟨rfl, (h.spelled hpq).2⟩

theorem Honest.modified?_isSome {m : Replica} (h : w.Honest m) (hd : w.disk.cwd.isAbsolute = true)
    {file : Path} (hf : w.disk.cwd.Canonical file) (hk : (m.kept file).isSome = true) :
    (w.disk.modified? file).isSome = true := by
  obtain ⟨e, he⟩ := Option.isSome_iff_exists.mp hk
  obtain ⟨hpath, hgenuine⟩ := h.kept file e he
  have heq : file = e.payload.path := hf.eq_of_same hd hgenuine.canonical hpath
  rw [heq, hgenuine.modified]
  rfl

/-- A change that comes from a genuine entry, whether or not it is to be saved. -/
def Backed (w : Setting) (c : Snapshot × Option CachedSnapshot) : Prop :=
  ∃ e, w.Genuine e ∧ c.1 = e.payload ∧ (c.2 = none ∨ c.2 = some e)

theorem assign_congr {α : Type} {f : Path → Option α} {p q : Path} (hf : f p = f q) (r : Path)
    (v : α) (h : p.same q = true) : assign f r v p = assign f r v q := by
  rw [assign, assign, Path.same_congr h, hf]

theorem Honest.put {m : Replica} (h : w.Honest m) {c : Snapshot × Option CachedSnapshot}
    (hc : w.Backed c) : w.Honest (m.put c) := by
  obtain ⟨s, saved⟩ := c
  obtain ⟨e, he, rfl, hsaved⟩ := hc
  have hheld : ∀ q s, assign m.held e.payload.path e.payload q = some s →
      q.same s.path = true ∧ w.disk.cwd.Canonical s.path ∧
        w.disk.modified? s.path = some s.modified := by
    intro q s hq
    rw [assign] at hq
    split at hq
    next hsame =>
      cases hq
      exact ⟨hsame, he.canonical, he.modified⟩
    next => exact h.held q s hq
  rcases hsaved with hsaved | hsaved <;> dsimp only at hsaved <;> subst hsaved
  · refine ⟨h.kept, hheld, fun hpq => ⟨assign_congr (h.spelled hpq).1 _ _ hpq, (h.spelled hpq).2⟩⟩
  · refine ⟨fun q e' hq => ?_, hheld, fun hpq => ⟨assign_congr (h.spelled hpq).1 _ _ hpq,
      assign_congr (h.spelled hpq).2 _ _ hpq⟩⟩
    change assign m.kept e.payload.path e q = some e' at hq
    rw [assign] at hq
    split at hq
    next hsame =>
      cases hq
      exact ⟨hsame, he⟩
    next => exact h.kept q e' hq

theorem Honest.backed_due {m : Replica} (h : w.Honest m) {q : Path}
    {c : Snapshot × Option CachedSnapshot} (hc : c ∈ m.due q) : w.Backed c := by
  obtain ⟨_, e, he, rfl⟩ := Replica.mem_due.mp hc
  exact ⟨e, (h.kept q e he).2, rfl, .inl rfl⟩

theorem held_foldl_put {m : Replica} (h : w.Honest m)
    {l : List (Snapshot × Option CachedSnapshot)}
    (hl : ∀ c ∈ l, c.2 = none ∧ ∃ e, m.kept c.1.path = some e ∧ e.payload = c.1) :
    (l.foldl Replica.put m).kept = m.kept ∧ ∀ q, (l.foldl Replica.put m).held q =
      if l.any (q.same ·.1.path) then (m.kept q).map (·.payload) else m.held q := by
  induction l generalizing m with
  | nil => exact ⟨rfl, fun q => rfl⟩
  | cons c rest ih =>
    obtain ⟨⟨hnone, e, he, hpayload⟩, hrest⟩ := List.forall_mem_cons.mp hl
    have hkept : (m.put c).kept = m.kept := by rw [Replica.put, hnone]; rfl
    have hbacked : w.Backed c := ⟨e, (h.kept _ _ he).2, hpayload.symm, .inl hnone⟩
    obtain ⟨hk, hheld⟩ := ih (h.put hbacked) (by rw [hkept]; exact hrest)
    refine ⟨hk.trans hkept, fun q => ?_⟩
    rw [List.foldl_cons, hheld, List.any_cons, hkept]
    cases hany : rest.any (q.same ·.1.path) with
    | true => rw [Bool.or_true, if_pos rfl, if_pos rfl]
    | false =>
      rw [Bool.or_false, if_neg Bool.false_ne_true]
      change (if q.same c.1.path = true then some c.1 else m.held q) = _
      by_cases hs : q.same c.1.path = true
      · rw [if_pos hs, if_pos hs, (h.spelled hs).2, he, Option.map_some, hpayload]
      · rw [if_neg hs, if_neg hs]

theorem Honest.foldl_due {m : Replica} (h : w.Honest m) (paths : List Path) :
    ((paths.flatMap m.due).foldl Replica.put m).kept = m.kept ∧
      ∀ q, ((paths.flatMap m.due).foldl Replica.put m).held q =
        if paths.any (q.same ·) then m.held q <|> (m.kept q).map (·.payload) else m.held q := by
  have hdue : ∀ c ∈ paths.flatMap m.due,
      c.2 = none ∧ ∃ e, m.kept c.1.path = some e ∧ e.payload = c.1 := by
    intro c hc
    obtain ⟨p, _, hc⟩ := List.mem_flatMap.mp hc
    obtain ⟨_, e, he, rfl⟩ := Replica.mem_due.mp hc
    refine ⟨rfl, e, ?_, rfl⟩
    rw [← (h.spelled (h.kept p e he).1).2, he]
  obtain ⟨hkept, hheld⟩ := held_foldl_put h hdue
  refine ⟨hkept, fun q => ?_⟩
  rw [hheld]
  by_cases hp : paths.any (q.same ·) = true
  · rw [if_pos hp]
    obtain ⟨p, hmem, hs⟩ := List.any_eq_true.mp hp
    split
    next hany =>
      obtain ⟨c, hc, hqc⟩ := List.any_eq_true.mp hany
      obtain ⟨p', _, hc⟩ := List.mem_flatMap.mp hc
      obtain ⟨hnone, e, he, rfl⟩ := Replica.mem_due.mp hc
      have hqp : q.same p' = true := Path.same_trans hqc
        (by rw [Path.same_comm]; exact (h.kept p' e he).1)
      rw [(h.spelled hqp).1, hnone]
      rfl
    next hany =>
      cases hh : m.held q with
      | some s => rfl
      | none =>
        cases hk : m.kept q with
        | none => rfl
        | some e =>
          refine absurd (List.any_eq_true.mpr ⟨(e.payload, none), ?_, (h.kept q e hk).1⟩) hany
          refine List.mem_flatMap.mpr ⟨p, hmem, Replica.mem_due.mpr ⟨?_, e, ?_, rfl⟩⟩
          · rw [← (h.spelled hs).1, hh]
          · rw [← (h.spelled hs).2, hk]
  · rw [if_neg hp, if_neg]
    intro hany
    obtain ⟨c, hc, hqc⟩ := List.any_eq_true.mp hany
    obtain ⟨p, hmem, hc⟩ := List.mem_flatMap.mp hc
    obtain ⟨_, e, he, rfl⟩ := Replica.mem_due.mp hc
    refine hp (List.any_eq_true.mpr ⟨p, hmem, Path.same_trans hqc ?_⟩)
    rw [Path.same_comm]
    exact (h.kept p e he).1

theorem Honest.replay_eq {m : Replica} (h : w.Honest m) (e : CachedSnapshot) :
    m.replay e = ((e.payload.path :: e.payload.dependencies.keys).flatMap m.due).foldl
      Replica.put m := by
  obtain ⟨hkept, hheld⟩ := h.foldl_due (e.payload.path :: e.payload.dependencies.keys)
  have hany : ∀ q, (e.payload.path :: e.payload.dependencies.keys).any (q.same ·) =
      e.payload.mentions q := by
    intro q
    rw [List.any_cons, Snapshot.mentions, OrderedMap.contains_eq_any]
    rfl
  refine Replica.ext (funext fun q => ?_) hkept.symm
  rw [hheld, hany]
  rfl

end Setting

end SymbolIndex
