import SymbolIndex.Proofs.Cache.Snapshots
import SymbolIndex.Proofs.Database.Convergence
import SymbolIndex.Proofs.Ownership
import SymbolIndex.Proofs.Pipeline.Replica
import SymbolIndex.Proofs.Pipeline.Requests

/-! A pipeline that follows a replica. While a job is carried out its changes are those that serving
the file makes to the replica; once they are merged, the pipeline follows the replica again. -/

namespace SymbolIndex

/-- An engine whose answers depend on nothing but the file. -/
def Steady {σ : Type} [Engine σ] (answer : Path → Extraction) (s : σ) : Prop :=
  ∃ good : σ → Prop, good s ∧ ∀ s, good s → ∀ d path args unsaved,
    (Engine.extract s d path args unsaved).2 = answer path ∧
      good (Engine.extract s d path args unsaved).1

theorem Steady.extract {σ : Type} [Engine σ] {answer : Path → Extraction} {s : σ}
    (h : Steady answer s) (d : Disk) (path : Path) (args : List String) (unsaved : Buffers) :
    (Engine.extract s d path args unsaved).2 = answer path ∧
      Steady answer (Engine.extract s d path args unsaved).1 := by
  obtain ⟨good, hs, hgood⟩ := h
  obtain ⟨ha, hs'⟩ := hgood s hs d path args unsaved
  exact ⟨ha, good, hs', hgood⟩

namespace Pipeline

variable {σ : Type} [Engine σ]

/-- A pipeline without claims and editor contents that has on record and in the cache what the replica
has. -/
structure Follows (w : Setting) (p : Pipeline σ) (m : Replica) : Prop where
  project : p.project = w.project
  cacheRead : p.settings.cacheRead = true
  cacheWrite : p.settings.cacheWrite = true
  engine : Steady w.answer p.engine
  unsaved : ∀ q, p.unsaved.contains q = false
  unclaimed : ∀ q, p.ownership.contains q = false
  store : p.snapshots.store = w.store
  disk : w.disk.Extends p.disk
  cache : p.snapshots.Holds p.disk m.kept
  consistent : p.db.Consistent
  recorded : ∀ q, p.db.snapshot? q = m.held q
  times : ∀ q, p.timestamps.find? q = (m.held q).map (·.modified)
  honest : w.Honest m

def changes (p : Pipeline σ) (l : List (Snapshot × Option CachedSnapshot)) : List FileChange :=
  l.map fun c => p.change c.1 c.2 (some c.1.modified)

/-- A job in progress that has these changes so far. -/
structure Serving (w : Setting) (p : Pipeline σ) (m : Replica) (g : Progress σ)
    (l : List (Snapshot × Option CachedSnapshot)) : Prop where
  rest : ∃ snapshots ownership, g.pipeline =
    { p with snapshots := snapshots, ownership := ownership }
  store : g.pipeline.snapshots.store = w.store
  cache : g.pipeline.snapshots.Holds p.disk m.kept
  covers : g.claims.Covers g.pipeline.ownership
  files : g.files = p.changes l

variable {w : Setting} {p : Pipeline σ} {m : Replica} {g : Progress σ}
  {l : List (Snapshot × Option CachedSnapshot)}

omit [Engine σ] in
theorem Serving.claim (h : Serving w p m g l) (path : Path) :
    (g.claim path).2 = true ∧ Serving w p m (g.claim path).1 l := by
  obtain ⟨hheld, hcovers⟩ := h.covers.claim path
  obtain ⟨snapshots, _, hg⟩ := h.rest
  let ownership := (Claims.claim g.pipeline.ownership g.claims path).1
  exact ⟨hheld, ⟨snapshots, ownership,
    congrArg (fun q : Pipeline σ => { q with ownership := ownership }) hg⟩, h.store, h.cache,
    hcovers, h.files⟩

omit [Engine σ] in
theorem Serving.add (h : Serving w p m g l) (c : Snapshot × Option CachedSnapshot) :
    Serving w p m (g.add (g.pipeline.change c.1 c.2 (some c.1.modified))) (l ++ [c]) := by
  refine ⟨h.rest, h.store, h.cache, h.covers, ?_⟩
  obtain ⟨_, _, hg⟩ := h.rest
  rw [Progress.add, h.files, hg, changes, changes, List.map_append]
  rfl

theorem Follows.isCurrent (h : Follows w p m) (ht : w.Truthful) (hg : Serving w p m g l)
    {path : Path} {e : CachedSnapshot} (he : m.kept path = some e) :
    g.isCurrent path e.modified = (m.held path).isSome := by
  obtain ⟨_, _, hg⟩ := hg.rest
  rw [Progress.isCurrent, hg]
  dsimp only
  rw [h.times]
  cases hs : m.held path with
  | none => simp
  | some s =>
    obtain ⟨hpath, hgenuine⟩ := h.honest.kept path e he
    obtain ⟨hsame, hcanonical, hmodified⟩ := h.honest.held path s hs
    have heq : s.path = e.payload.path := hcanonical.eq_of_same ht.cwd hgenuine.canonical
      (Path.same_trans (by rw [Path.same_comm]; exact hsame) hpath)
    rw [heq, hgenuine.modified] at hmodified
    rw [hgenuine.time, Option.some.inj hmodified]
    simp

theorem Follows.replayMain (h : Follows w p m) (ht : w.Truthful) (hg : Serving w p m g l)
    {e : CachedSnapshot} (he : m.kept e.payload.path = some e) :
    Serving w p m (g.replayMain e) (l ++ m.due e.payload.path) := by
  rw [Progress.replayMain, h.isCurrent ht hg he, Replica.due, he]
  cases hh : m.held e.payload.path with
  | some s => simpa using hg
  | none =>
    obtain ⟨hheld, hclaim⟩ := hg.claim e.payload.path
    generalize g.claim e.payload.path = claimed at hheld hclaim
    obtain ⟨g', held⟩ := claimed
    dsimp only at hheld hclaim
    subst hheld
    have hadd := hclaim.add (e.payload, none)
    rw [← (h.honest.kept _ _ he).2.time] at hadd
    exact hadd

theorem Follows.replayInclude (h : Follows w p m) (ht : w.Truthful) (hg : Serving w p m g l)
    {path : Path} (hp : w.disk.cwd.Canonical path) :
    Serving w p m (g.replayInclude path) (l ++ m.due path) := by
  obtain ⟨hheld, hclaim⟩ := hg.claim path
  rw [Progress.replayInclude]
  generalize g.claim path = claimed at hheld hclaim
  obtain ⟨g', held⟩ := claimed
  dsimp only at hheld hclaim
  subst hheld
  dsimp only
  obtain ⟨_, _, hrest⟩ := hclaim.rest
  have hdisk : g'.pipeline.disk = p.disk := by rw [hrest]
  obtain ⟨hcache, hstore, hentry⟩ := hclaim.cache.takeOrLoad (h.disk.cwd.symm ▸ hp)
  rw [← hdisk] at hcache hstore hentry
  have hnext : Serving w p m { g' with pipeline := { g'.pipeline with
      snapshots := (g'.pipeline.snapshots.takeOrLoad g'.pipeline.disk path).1 } } l := by
    refine ⟨?_, hstore.trans hclaim.store, hdisk ▸ hcache, hclaim.covers, hclaim.files⟩
    rw [hrest]
    exact ⟨_, _, rfl⟩
  generalize g'.pipeline.snapshots.takeOrLoad g'.pipeline.disk path = taken at hentry hnext
  obtain ⟨snapshots, entry⟩ := taken
  dsimp only at hentry hnext ⊢
  subst hentry
  cases hk : m.kept path with
  | none =>
    rw [Replica.due, hk]
    simpa using hnext
  | some e =>
    obtain ⟨hpath, hgenuine⟩ := h.honest.kept path e hk
    have heq : path = e.payload.path := hp.eq_of_same ht.cwd hgenuine.canonical hpath
    have htime : g'.pipeline.disk.modified? path = some e.modified := by
      rw [hdisk, heq, hgenuine.time]
      exact h.disk.modified? hgenuine.modified
    have hcurrent := h.isCurrent ht hnext hk
    dsimp only
    rw [hcurrent, htime, Replica.due, hk]
    cases hh : m.held path with
    | some s => simpa using hnext
    | none =>
      have hadd := hnext.add (e.payload, none)
      rw [← hgenuine.time] at hadd
      simpa [Pipeline.replayed] using hadd

theorem Follows.replay (h : Follows w p m) (ht : w.Truthful) (hg : Serving w p m g l)
    {e : CachedSnapshot} (he : m.kept e.payload.path = some e) :
    Serving w p m (g.replay e)
      (l ++ (e.payload.path :: e.payload.dependencies.keys).flatMap m.due) := by
  have hmain := h.replayMain ht hg he
  have hcanonical : ∀ q ∈ e.payload.dependencies.keys, w.disk.cwd.Canonical q := by
    intro q hq
    obtain ⟨d, hd, rfl⟩ := List.mem_map.mp hq
    exact ((h.honest.kept _ _ he).2.includes d hd).1
  rw [Progress.replay, List.flatMap_cons, ← List.append_assoc]
  generalize g.replayMain e = g' at hmain
  generalize l ++ m.due e.payload.path = l' at hmain
  generalize e.payload.dependencies.keys = paths at hcanonical
  induction paths generalizing g' l' with
  | nil => simpa using hmain
  | cons path rest ih =>
    obtain ⟨hp, hrest⟩ := List.forall_mem_cons.mp hcanonical
    rw [List.foldl_cons, List.flatMap_cons, ← List.append_assoc]
    exact ih _ _ (h.replayInclude ht hmain hp) hrest

omit [Engine σ] in
/-- A job that is the only one gets the files of all its records. -/
theorem claimRecords_of_covers {g : Progress σ} (h : g.claims.Covers g.pipeline.ownership)
    (records : List Record) : ∃ ownership claims, g.claimRecords records = ({ g with
        pipeline := { g.pipeline with ownership := ownership }
        claims := claims }, records) ∧ claims.Covers ownership := by
  rw [Progress.claimRecords]
  suffices aux : ∀ (g : Progress σ) (taken : List Record), g.claims.Covers g.pipeline.ownership →
      ∃ ownership claims, records.foldl _ (g, taken) = ({ g with
          pipeline := { g.pipeline with ownership := ownership }
          claims := claims }, taken ++ records) ∧ claims.Covers ownership from aux g [] h
  induction records with
  | nil => exact fun g taken hg => ⟨_, _, by rw [List.append_nil]; rfl, hg⟩
  | cons r rest ih =>
    intro g taken hg
    obtain ⟨hheld, hcovers⟩ := hg.claim (g.pipeline.normalize r.path)
    rw [List.foldl_cons, Progress.claim]
    generalize Claims.claim g.pipeline.ownership g.claims (g.pipeline.normalize r.path) = claimed
      at hheld hcovers
    obtain ⟨ownership, claims, held⟩ := claimed
    dsimp only at hheld hcovers ⊢
    subst hheld
    obtain ⟨_, _, hrest, hcovers⟩ := ih { g with
      pipeline := { g.pipeline with ownership := ownership }
      claims := claims } (taken ++ [r]) hcovers
    exact ⟨_, _, by rw [hrest, List.append_assoc]; rfl, hcovers⟩

omit [Engine σ] in
theorem Serving.claimRecords (h : Serving w p m g l) (records : List Record) :
    (g.claimRecords records).2 = records ∧ Serving w p m (g.claimRecords records).1 l := by
  obtain ⟨ownership, claims, hclaim, hcovers⟩ := claimRecords_of_covers h.covers records
  obtain ⟨snapshots, _, hg⟩ := h.rest
  rw [hclaim]
  exact ⟨rfl, ⟨snapshots, ownership, by rw [hg]⟩, h.store, h.cache, hcovers, h.files⟩

structure Served (w : Setting) (p : Pipeline σ) (m : Replica) (file : Path)
    (r : Pipeline σ × Outcome) : Prop where
  path : r.2.path = file
  rest : ∃ snapshots ownership engine journal, r.1 = { p with
    snapshots := snapshots
    ownership := ownership
    engine := engine
    journal := journal }
  engine : Steady w.answer r.1.engine
  store : r.1.snapshots.store = w.store
  cache : r.1.snapshots.Holds p.disk m.kept
  covers : r.2.claims.Covers r.1.ownership
  files : ∃ l, r.2.files = p.changes l ∧ (∀ c ∈ l, w.Backed c) ∧
    l.foldl Replica.put m = w.serve m file

omit [Engine σ] in
theorem remapRecord_eq (p : Pipeline σ) (args : List String) (r : Record) :
    p.remapRecord args r = (r.entry p.disk.cwd args).payload := by
  rw [remapRecord, Record.entry, r.remap_known _ _ fun _ => none]

theorem Follows.recordChange (h : Follows w p m) {p' : Pipeline σ} (file : Path) (r : Record)
    (hdb : p'.db = p.db) (hdisk : p'.disk = p.disk) (hunsaved : p'.unsaved = p.unsaved) :
    p'.recordChange (w.project.argsFor file) p'.unsaved r =
      p.change (w.entry file r).payload (some (w.entry file r))
        (some (w.entry file r).payload.modified) := by
  have hcwd : p'.disk.cwd = w.disk.cwd := by rw [hdisk, h.disk.cwd]
  rw [Pipeline.recordChange, remapRecord_eq, hcwd, hunsaved, h.unsaved, if_neg Bool.false_ne_true,
    Pipeline.change, Pipeline.change, hdb]
  rfl

theorem Follows.extract (h : Follows w p m) (ht : w.Truthful) {file : Path}
    (hfresh : w.fresh? m file = none) :
    Served w p m file (p.extract file (w.project.argsFor file)) := by
  obtain ⟨hanswer, hengine⟩ :=
    h.engine.extract p.disk file (w.project.argsFor file) p.unsaved
  rw [extract_eq, hanswer]
  let asked := p.called file (w.project.argsFor file)
  have hcovers := Claims.covers_of_unclaimed h.unclaimed {}
  have hempty : w.records file = [] → ∀ error, Served w p m file
      (asked, { path := file, error := some error }) := by
    intro hrecords error
    refine ⟨rfl, ⟨_, _, _, _, rfl⟩, hengine, h.store, h.cache, hcovers, [], rfl,
      fun c hc => absurd hc List.not_mem_nil, ?_⟩
    rw [Setting.serve, hfresh, hrecords]
    rfl
  cases ha : w.answer file with
  | failed message => exact hempty (by rw [Setting.records, ha]) _
  | crashed message => exact hempty (by rw [Setting.records, ha]) _
  | records records =>
    have hrecords : w.records file = records := by rw [Setting.records, ha]
    have hstart : Serving w asked m (.start asked) [] :=
      ⟨⟨_, _, rfl⟩, h.store, h.cache, hcovers, rfl⟩
    obtain ⟨hclaimed, hserving⟩ := hstart.claimRecords records
    change Served w p m file (asked.indexRecords file (w.project.argsFor file) records)
    rw [indexRecords]
    generalize (Progress.start asked).claimRecords records = indexed at hclaimed hserving
    obtain ⟨g, claimed⟩ := indexed
    dsimp only at hclaimed hserving ⊢
    subst hclaimed
    obtain ⟨_, _, hrest⟩ := hserving.rest
    refine ⟨rfl, ⟨_, _, _, _, hrest⟩, ?_, hserving.store, hserving.cache, hserving.covers,
      claimed.map fun r => ((w.entry file r).payload, some (w.entry file r)), ?_, ?_, ?_⟩
    · rw [hrest]
      exact hengine
    · rw [changes, List.map_map]
      refine List.map_congr_left fun r _ => ?_
      exact h.recordChange file r (by rw [hrest]; rfl) (by rw [hrest]; rfl) (by rw [hrest]; rfl)
    · intro c hc
      obtain ⟨r, hr, rfl⟩ := List.mem_map.mp hc
      exact ⟨_, ht.genuine (hrecords ▸ hr), rfl, .inr rfl⟩
    · rw [Setting.serve, hfresh, hrecords]
      rfl

/-- What a background request comes to, for a file that is there and that no editor holds. -/
theorem check_background {d : Disk} {file : Path} (hx : (d.modified? file).isSome = true)
    (args : List String) (cached : Option CachedSnapshot) :
    Freshness.check d file args false cached false =
      (cached.filter (Freshness.describes d file args)).elim .changed .fresh := by
  have hexists : (d.modified? file).isNone = false := by
    rw [Option.isNone_eq_false_iff]
    exact hx
  unfold Freshness.check
  rw [if_neg Bool.false_ne_true, hexists, if_neg Bool.false_ne_true]
  cases cached with
  | none => rfl
  | some e =>
    dsimp only
    rw [Bool.not_false, Bool.true_and, Option.filter_some]
    split <;> rfl

/-- The entry that a background request is answered from, if there is one. -/
def fresh? (p : Pipeline σ) (file : Path) : Option CachedSnapshot :=
  (p.cached? file).filter (Freshness.describes p.disk file (p.project.argsFor file))

theorem Follows.cached?_eq (h : Follows w p m) {file : Path} (hf : w.disk.cwd.Canonical file) :
    p.cached? file = m.kept file := by
  rw [cached?, h.cacheRead, if_pos rfl]
  exact (h.cache.tryLoad (h.disk.cwd.symm ▸ hf)).2.2

theorem Follows.fresh?_eq (h : Follows w p m) (ht : w.Truthful) {file : Path}
    (hf : w.disk.cwd.Canonical file) : p.fresh? file = w.fresh? m file := by
  rw [fresh?, h.cached?_eq hf, h.project, Setting.fresh?]
  cases hk : m.kept file with
  | none => rfl
  | some e =>
    have hx : (w.disk.modified? file).isSome = true :=
      h.honest.modified?_isSome ht.cwd hf (by rw [hk]; rfl)
    rw [Option.filter_some, Option.filter_some,
      (h.honest.kept file e hk).2.describes h.disk hx]

theorem Follows.process_vanished (h : Follows w p m) {file : Path}
    (hx : p.disk.modified? file = none) :
    (p.process file false).2.error = some (.vanished file) := by
  have hverdict : p.verdict file false = .vanished := by
    unfold verdict Freshness.check
    rw [h.unsaved, if_neg Bool.false_ne_true, hx]
    rfl
  rw [process_eq, hverdict]

theorem Follows.process (h : Follows w p m) (ht : w.Truthful) {file : Path}
    (hf : w.disk.cwd.Canonical file) (hx : (p.disk.modified? file).isSome = true) :
    Served w p m file (p.process file false) := by
  obtain ⟨hcache, hstore, hentry⟩ := h.cache.tryLoad (h.disk.cwd.symm ▸ hf)
  have hlook : p.lookUp file =
      ({ p with snapshots := (p.snapshots.tryLoad p.disk file).1 }, m.kept file) := by
    rw [lookUp, h.cacheRead, if_pos rfl, ← hentry]
  let looked : Pipeline σ := { p with snapshots := (p.snapshots.tryLoad p.disk file).1 }
  have hlooked : Follows w looked m := { h with
    store := hstore.trans h.store
    cache := hcache }
  have hcheck : Freshness.check p.disk file (p.project.argsFor file) false (m.kept file)
      (p.unsaved.contains file) = (w.fresh? m file).elim .changed .fresh := by
    rw [h.unsaved, check_background hx, ← h.fresh?_eq ht hf, fresh?, h.cached?_eq hf]
  have hargs : p.project.argsFor file = w.project.argsFor file := by rw [h.project]
  rw [Pipeline.process, hlook]
  dsimp only
  rw [hcheck, hargs]
  cases hfresh : w.fresh? m file with
  | none =>
    obtain ⟨hpath, ⟨_, _, _, _, hrest⟩, hengine, hstore, hcache, hcovers, hfiles⟩ :=
      hlooked.extract ht hfresh
    exact ⟨hpath, ⟨_, _, _, _, hrest⟩, hengine, hstore, hcache, hcovers, hfiles⟩
  | some e =>
    obtain ⟨hkept, _⟩ := Option.filter_eq_some_iff.mp hfresh
    obtain ⟨hpath, hgenuine⟩ := h.honest.kept file e hkept
    have he : m.kept e.payload.path = some e := by rw [← (h.honest.spelled hpath).2, hkept]
    have hcovers := Claims.covers_of_unclaimed h.unclaimed {}
    have hstart : Serving w looked m (.start looked) [] :=
      ⟨⟨_, _, rfl⟩, hlooked.store, hlooked.cache, hcovers, rfl⟩
    have hserving := hlooked.replay ht hstart he
    rw [List.nil_append] at hserving
    obtain ⟨_, _, hrest⟩ := hserving.rest
    refine ⟨rfl, ⟨_, _, _, _, hrest⟩, ?_, hserving.store, hserving.cache, hserving.covers, _,
      hserving.files, fun c hc => ?_, ?_⟩
    · change Steady w.answer ((Progress.start looked).replay e).pipeline.engine
      rw [hrest]
      exact h.engine
    · obtain ⟨q, _, hc⟩ := List.mem_flatMap.mp hc
      exact h.honest.backed_due hc
    · rw [Setting.serve, hfresh]
      exact (h.honest.replay_eq e).symm

end Pipeline

end SymbolIndex
