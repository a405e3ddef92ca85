import SymbolIndex.Proofs.Pipeline.Changed
import SymbolIndex.Proofs.Pipeline.Merged

/-! A pipeline that starts again on the disk that an earlier one left. The cache brings back every
project file whose entry describes it, and the files that such a file includes itself. -/

namespace SymbolIndex

theorem FixtureEngine.find?_of_extract {e : FixtureEngine} {path : Path} {records : List Record}
    (h : (e.extract path).2 = .records records) : e.records.find? path = some records := by
  unfold extract at h
  split at h
  next => cases h
  next =>
    dsimp only at h
    unfold answer at h
    split at h
    next => cases h
    next hr =>
      cases h
      exact hr
    next => cases h

namespace Replica

/-- The cache has an entry for all that is on record, and for nothing else. -/
def Paired (m : Replica) : Prop := ∀ q, m.held q = (m.kept q).map (·.payload)

theorem Paired.put {m : Replica} (h : m.Paired) (e : CachedSnapshot) :
    (m.put (e.payload, some e)).Paired := by
  intro q
  change assign m.held e.payload.path e.payload q =
    (assign m.kept e.payload.path e q).map (·.payload)
  rw [assign, assign, h]
  split <;> rfl

theorem Paired.replay {m : Replica} (h : m.Paired) (e : CachedSnapshot) : m.replay e = m := by
  refine Replica.ext (funext fun q => ?_) rfl
  change (if e.payload.mentions q then m.held q <|> (m.kept q).map (·.payload) else m.held q) =
    m.held q
  rw [h]
  split
  next => cases m.kept q <;> rfl
  next => rfl

end Replica

namespace Setting

variable {w : Setting} {m : Replica}

theorem paired_serve (h : m.Paired) (file : Path) : (w.serve m file).Paired := by
  rw [serve]
  cases w.fresh? m file with
  | some e =>
    rw [Option.elim_some, h.replay e]
    exact h
  | none =>
    rw [Option.elim_none]
    generalize w.records file = records
    induction records generalizing m with
    | nil => exact h
    | cons r rest ih => exact ih (h.put (w.entry file r))

theorem paired_foldl_serve (h : m.Paired) (files : List Path) : (files.foldl w.serve m).Paired := by
  induction files generalizing m with
  | nil => exact h
  | cons file rest ih => exact ih (paired_serve h file)

/-- Files that are all answered from the cache. -/
theorem held_foldl_serve {files : List Path} (hall : ∀ file ∈ files, (w.fresh? m file).isSome = true)
    (q : Path) : (files.foldl w.serve m).held q =
      if files.any fun file => (w.fresh? m file).any (·.payload.mentions q)
      then m.held q <|> (m.kept q).map (·.payload) else m.held q := by
  induction files generalizing m with
  | nil => rfl
  | cons file rest ih =>
    obtain ⟨hfile, hrest⟩ := List.forall_mem_cons.mp hall
    obtain ⟨e, he⟩ := Option.isSome_iff_exists.mp hfile
    have hserve : w.serve m file = m.replay e := by
      rw [serve, he]
      rfl
    have hrun := ih (m := m.replay e) hrest
    change _ = if rest.any (fun file => (w.fresh? m file).any (·.payload.mentions q))
      then (if e.payload.mentions q then m.held q <|> (m.kept q).map (·.payload) else m.held q) <|>
        (m.kept q).map (·.payload)
      else if e.payload.mentions q then m.held q <|> (m.kept q).map (·.payload)
        else m.held q at hrun
    rw [List.foldl_cons, hserve, hrun, List.any_cons, he, Option.any_some]
    generalize rest.any (fun file => (w.fresh? m file).any (·.payload.mentions q)) = later
    cases e.payload.mentions q <;> cases later <;> cases m.held q <;> cases m.kept q <;> rfl

end Setting

namespace Pipeline

variable {σ : Type}

/-- Whether a pipeline can start does not depend on the disk and the engine. -/
theorem new_again {disk : Disk} {engine : σ} {config : Config} {root : Path} {project : Project}
    {p : Pipeline σ} (h : Pipeline.new disk engine config root project = .ok p) (disk' : Disk)
    (engine' : σ) :
    Pipeline.new disk' engine' config root project =
      .ok { p with disk := disk', engine := engine' } := by
  have hmap : Pipeline.new disk' engine' config root project =
      (Pipeline.new disk engine config root project).map fun p =>
        { p with disk := disk', engine := engine' } := by
    rw [Pipeline.new, Pipeline.new]
    cases config.validate with
    | error e => rfl
    | ok u =>
      cases config.pathFilter with
      | error e => rfl
      | ok filter =>
        simp only [bind, Except.bind, SnapshotCache.new?, Lru.new?]
        by_cases hc : config.snapshotCacheCapacity = 0
        · rw [if_pos hc]
          rfl
        · rw [if_neg hc]
          rfl
  rw [hmap, h]
  rfl

/-- The project files that are let through, in their canonical spelling. -/
def targets (p : Pipeline σ) : List Path :=
  (p.project.files.map p.normalize).filter p.filter.allows

theorem canonical_of_mem_targets {p : Pipeline σ} (hd : p.disk.cwd.isAbsolute = true) {file : Path}
    (h : file ∈ p.targets) : p.disk.cwd.Canonical file := by
  obtain ⟨file, _, rfl⟩ := List.mem_map.mp (List.mem_filter.mp h).1
  exact Path.canonical_normalize hd file

def setting (p : Pipeline σ) (answer : Path → Extraction) : Setting :=
  ⟨p.disk, p.project, p.snapshots.store, answer⟩

theorem Orderly.lined_indexProject {p : Pipeline σ} (h : p.Orderly) (hi : p.isIdle = true)
    (hq : p.queue = []) :
    p.indexProject.1.Lined ∧ p.Asked p.indexProject.1 ∧
      ∀ q, q ∈ p.indexProject.1.queue ↔ q ∈ p.targets := by
  obtain ⟨hl, ha, hqueue⟩ := (h.lined hi hq).enqueueAll p.project.files (· = .accepted)
  have hcanonical : ∀ q ∈ p.project.files.map p.normalize, p.disk.cwd.Canonical q := by
    intro q hm
    obtain ⟨file, _, rfl⟩ := List.mem_map.mp hm
    exact Path.canonical_normalize h.cwd file
  refine ⟨hl, ha, fun q => ?_⟩
  rw [indexProject, hqueue, hq,
    mem_foldl_lineUp h.cwd hcanonical fun _ hm => absurd hm List.not_mem_nil, targets,
    List.mem_filter, or_iff_right List.not_mem_nil]

variable [Engine σ] {w : Setting} {p : Pipeline σ} {m : Replica}

theorem Follows.asked {q : Pipeline σ} (h : Follows w p m) (ha : p.Asked q) : Follows w q m := by
  obtain ⟨_, _, _, rfl⟩ := ha
  exact { h with }

theorem follows_new {disk : Disk} {engine : σ} {config : Config} {root : Path}
    {kept : Path → Option CachedSnapshot}
    (h : Pipeline.new disk engine config root w.project = .ok p)
    (hread : config.cacheRead = true) (hwrite : config.cacheWrite = true)
    (he : Steady w.answer engine) (hs : p.snapshots.store = w.store) (hd : w.disk.Extends disk)
    (hc : ∀ capacity, SnapshotCache.Holds
      ⟨w.store, { capacity := capacity, maxScore := Lru.defaultMaxScore }⟩ disk kept)
    (hm : w.Honest ⟨fun _ => none, kept⟩) : Follows w p ⟨fun _ => none, kept⟩ := by
  obtain ⟨_, hp⟩ := new_eq h
  have hcache := hc config.snapshotCacheCapacity
  rw [← hs, hp] at hcache
  rw [hp] at hs ⊢
  exact ⟨rfl, hread, hwrite, he, fun _ => rfl, fun _ => rfl, hs, hd, hcache,
    Database.consistent_empty, fun _ => rfl, fun _ => rfl, hm⟩

def indexed (p : Pipeline σ) : Pipeline σ := p.indexProject.1.settle

theorem Follows.indexed (h : Follows w p m) (ht : w.Truthful) (ho : p.Orderly)
    (hi : p.isIdle = true) (hq : p.queue = [])
    (hx : ∀ file ∈ p.targets, (w.disk.modified? file).isSome = true ∨
      ∀ e ∈ p.indexed.counters.errors, e.kind ≠ .vanished)
    (hsaved : p.indexed.Unharmed) :
    p.indexed.isIdle = true ∧ ∃ files : List Path, (∀ q, q ∈ files ↔ q ∈ p.targets) ∧
      Follows w p.indexed (files.foldl w.serve m) := by
  obtain ⟨hl, ha, hmem⟩ := ho.lined_indexProject hi hq
  have hcanonical : ∀ file ∈ p.indexProject.1.queue, w.disk.cwd.Canonical file := by
    intro file hm
    rw [← h.disk.cwd]
    exact canonical_of_mem_targets ho.cwd ((hmem file).mp hm)
  obtain ⟨hidle, hrun⟩ := (h.asked ha).run ht hl hcanonical
    (fun file hm => hx file ((hmem file).mp hm)) hsaved
  exact ⟨hidle, _, hmem, hrun⟩

/-- What the cache brings back when these files are asked for. -/
def brings (p : Pipeline σ) (files : List Path) (q : Path) : Bool :=
  files.any fun file => (p.fresh? file).any (·.payload.mentions q)

theorem follows_indexed {disk : Disk} {engine : σ} {config : Config} {root : Path}
    {project : Project} {answer : Path → Extraction}
    (hnew : Pipeline.new disk engine config root project = .ok p)
    (hread : config.cacheRead = true) (hwrite : config.cacheWrite = true)
    (ht : (p.setting answer).Truthful) (he : Steady answer engine)
    (hsaved : ∀ e ∈ p.indexed.counters.errors, e.kind ≠ .cacheWrite ∧ e.kind ≠ .vanished) :
    ∃ m, Follows (p.setting answer) p.indexed m ∧ m.Paired := by
  obtain ⟨_, hp⟩ := new_eq hnew
  have hdisk : p.disk = disk := by rw [hp]
  have hproject : p.project = project := by rw [hp]
  subst hdisk hproject
  have hstart : Follows (p.setting answer) p ⟨fun _ => none, fun _ => none⟩ :=
    follows_new hnew hread hwrite he rfl (.refl _)
      (fun _ => SnapshotCache.holds_vacant ht.vacant _) (Setting.honest_empty _)
  obtain ⟨_, files, _, hrun⟩ := hstart.indexed ht (orderly_new ht.cwd hnew)
    (by rw [hp]; rfl) (by rw [hp]; rfl) (fun file _ => .inr fun e hm => (hsaved e hm).2)
    fun e hm => (hsaved e hm).1
  exact ⟨_, hrun, Setting.paired_foldl_serve (fun _ => rfl) files⟩

/-- The second run, of a pipeline that knows nothing but what the cache keeps. -/
theorem Follows.restarted (h : Follows w p m) (hm : m.Paired) (ht : w.Truthful) {p' : Pipeline σ}
    (h' : Follows w p' ⟨fun _ => none, m.kept⟩) (ho : p'.Orderly) (hi : p'.isIdle = true)
    (hq : p'.queue = []) (hfresh : ∀ file ∈ p'.targets, (p.fresh? file).isSome = true)
    (hsaved : p'.indexed.Unharmed) :
    p'.indexed.isIdle = true ∧ p'.indexed.db.Consistent ∧ ∀ q, p'.indexed.db.snapshot? q =
      if p.brings p'.targets q then p.db.snapshot? q else none := by
  have hcanonical : ∀ file ∈ p'.targets, w.disk.cwd.Canonical file := by
    intro file hf
    rw [← h'.disk.cwd]
    exact canonical_of_mem_targets ho.cwd hf
  have hentry : ∀ file ∈ p'.targets, p.fresh? file = w.fresh? m file :=
    fun file hf => h.fresh?_eq ht (hcanonical file hf)
  have hthere : ∀ file ∈ p'.targets, (w.disk.modified? file).isSome = true := by
    intro file hf
    have hsome := hfresh file hf
    rw [hentry file hf, Setting.fresh?] at hsome
    exact h.honest.modified?_isSome ht.cwd (hcanonical file hf)
      (Option.isSome_of_isSome_filter _ _ hsome)
  obtain ⟨hidle, files, hfiles, hrun⟩ :=
    h'.indexed ht ho hi hq (fun file hf => .inl (hthere file hf)) hsaved
  refine ⟨hidle, hrun.consistent, fun q => ?_⟩
  have hbrings : files.any (fun file =>
      (w.fresh? ⟨fun _ => none, m.kept⟩ file).any (·.payload.mentions q)) =
        p.brings p'.targets q := by
    rw [Bool.eq_iff_iff, brings, List.any_eq_true, List.any_eq_true]
    refine exists_congr fun file => ?_
    rw [hfiles]
    refine and_congr_right fun hf => ?_
    rw [hentry file hf]
    rfl
  have hheld := Setting.held_foldl_serve (w := w) (m := ⟨fun _ => none, m.kept⟩)
    (fun file hf => hentry file ((hfiles file).mp hf) ▸ hfresh file ((hfiles file).mp hf)) q
  rw [hrun.recorded, hheld, hbrings, h.recorded, hm]
  rfl

/-- A second pipeline on the disk that the first one left, when a cache entry describes every project
file. It ends with what the first one had on record for the project files and for what these include
themselves, and with nothing else. -/
theorem indexed_again {disk : Disk} {engine engine' : σ} {config : Config} {root : Path}
    {project : Project} {answer : Path → Extraction}
    (hnew : Pipeline.new disk engine config root project = .ok p)
    (hread : config.cacheRead = true) (hwrite : config.cacheWrite = true)
    (ht : (p.setting answer).Truthful) (he : Steady answer engine) (he' : Steady answer engine')
    (hsaved : ∀ e ∈ p.indexed.counters.errors, e.kind ≠ .cacheWrite ∧ e.kind ≠ .vanished)
    (hfresh : ∀ file ∈ p.targets, (p.indexed.fresh? file).isSome = true) :
    ∃ p', Pipeline.new p.indexed.disk engine' config root project = .ok p' ∧
      ((∀ e ∈ p'.indexed.counters.errors, e.kind ≠ .cacheWrite) →
        p'.indexed.isIdle = true ∧ ∀ q,
          (p'.indexed.db.snapshot? q =
            if p.indexed.brings p.targets q then p.indexed.db.snapshot? q else none) ∧
          ∀ c id, p'.indexed.db.contributionOf? c id q =
            if p.indexed.brings p.targets q then p.indexed.db.contributionOf? c id q
            else none) := by
  obtain ⟨m, hfirst, hpaired⟩ := follows_indexed hnew hread hwrite ht he hsaved
  have hagain := new_again hnew p.indexed.disk engine'
  obtain ⟨_, hp⟩ := new_eq hnew
  have hproject : project = (p.setting answer).project := by rw [setting, hp]
  have hrestart : Follows (p.setting answer) { p with disk := p.indexed.disk, engine := engine' }
      ⟨fun _ => none, m.kept⟩ :=
    follows_new (hproject ▸ hagain) hread hwrite he' rfl hfirst.disk
      (fun capacity => hfirst.store ▸ hfirst.cache.reopen capacity) hfirst.honest.forget
  have htargets : targets { p with disk := p.indexed.disk, engine := engine' } = p.targets := by
    have hnormalize : normalize { p with disk := p.indexed.disk, engine := engine' } =
        p.normalize :=
      funext fun q => congrArg (fun dir => q.normalize (some dir)) hfirst.disk.cwd
    rw [targets, targets, hnormalize]
  refine ⟨_, hagain, fun hsaved' => ?_⟩
  obtain ⟨hidle, hconsistent, hsnapshot⟩ := hfirst.restarted hpaired ht hrestart
    (orderly_new (hfirst.disk.cwd.symm ▸ ht.cwd) hagain) (by rw [hp]; rfl) (by rw [hp]; rfl)
    (htargets ▸ hfresh) hsaved'
  rw [htargets] at hsnapshot
  refine ⟨hidle, fun q => ⟨hsnapshot q, fun c id => ?_⟩⟩
  rw [hconsistent.contributionOf?, hsnapshot, hfirst.consistent.contributionOf?]
  split <;> rfl

theorem steady_fixture (e : FixtureEngine) : Steady (fun path => (e.extract path).2) e := by
  refine ⟨fun s => ∃ calls, s = { e with calls := calls }, ⟨e.calls, rfl⟩, ?_⟩
  rintro s ⟨calls, rfl⟩ d path args unsaved
  change (FixtureEngine.extract { e with calls := calls } path).2 = (e.extract path).2 ∧
    ∃ calls', (FixtureEngine.extract { e with calls := calls } path).1 = { e with calls := calls' }
  rw [FixtureEngine.extract, FixtureEngine.extract]
  dsimp only
  cases e.crashes.find? path with
  | some message => exact ⟨rfl, _, rfl⟩
  | none => exact ⟨rfl, _, rfl⟩

section Chain

def chainAnswer (path : Path) : Extraction := ((chainEngine chainTime chainTime).extract path).2

def chainRecords : List Record := [
  chainRecord "/W/b.cc" chainTime [⟨⟨"/W/a.h"⟩, some chainTime⟩] "main",
  chainRecord "/W/a.h" chainTime [⟨⟨"/W/base.h"⟩, some chainTime⟩] "F",
  chainRecord "/W/base.h" chainTime [] "G"]

def chainSetting : Setting where
  disk := chainDisk
  project := .fixed [⟨"/W/b.cc"⟩] ["clang"]
  store := ⟨⟨"/W/.nereid/cache"⟩, .binary, snapshotSchema⟩
  answer := chainAnswer

theorem setting_chainStart {p : Pipeline FixtureEngine} (h : chainStart chainDisk = .ok p) :
    p.setting chainAnswer = chainSetting := by
  obtain ⟨_, hp⟩ := new_eq h
  rw [setting, hp]
  have hroot : Config.cacheDirFor {} ⟨"/W"⟩ = ⟨"/W/.nereid/cache"⟩ := by decide +kernel
  rw [chainSetting, ← hroot]

theorem mem_chainRecords {file : Path} {r : Record} (h : r ∈ chainSetting.records file) :
    r ∈ chainRecords := by
  rw [Setting.records] at h
  cases ha : chainSetting.answer file with
  | records records =>
    have hfind : (OrderedMap.insert ∅ (⟨"/W/b.cc"⟩ : Path) chainRecords).find? file =
      some records := FixtureEngine.find?_of_extract ha
    rw [OrderedMap.find?_insert] at hfind
    split at hfind
    next =>
      cases hfind
      rwa [ha] at h
    next => cases hfind
  | failed message =>
    rw [ha] at h
    cases h
  | crashed message =>
    rw [ha] at h
    cases h

theorem recorded_chain {q : Path} (h : chainSetting.Recorded q) :
    q ∈ chainRecords.map fun r => r.path.normalize (some chainDisk.cwd) := by
  obtain ⟨_, r, hr, rfl⟩ := h
  exact List.mem_map.mpr ⟨r, mem_chainRecords hr, rfl⟩

set_option maxRecDepth 10000 in
theorem truthful_chain : chainSetting.Truthful where
  cwd := by decide +kernel
  vacant := by
    have hvacant : ∀ q ∈ chainSetting.disk.nodes.keys, q.dropLast ≠
        Disk.placeOf (chainSetting.disk.absolute chainSetting.store.root) := by decide +kernel
    exact hvacant
  modified file r hr := by
    have hall : ∀ r ∈ chainRecords,
        chainDisk.modified? (r.path.normalize (some chainDisk.cwd)) = some r.modified := by
      decide +kernel
    exact hall r (mem_chainRecords hr)
  includes file r hr := by
    have hall : ∀ r ∈ chainRecords, ∀ d ∈ r.dependencies,
        chainDisk.modified? (d.path.normalize (some chainDisk.cwd)) = d.modified := by
      decide +kernel
    exact hall r (mem_chainRecords hr)
  fits file r hr := by
    have hall : ∀ r ∈ chainRecords, ((chainSetting.store.envelope
        (r.path.normalize (some chainDisk.cwd)) (r.entry chainDisk.cwd ["clang"])).encode
          chainSetting.store.format).length ≤ Binary.limit := by
      decide +kernel
    exact fun _ => hall r (mem_chainRecords hr)
  apart a b ha hb := by
    have hall : ∀ a ∈ chainRecords.map (fun r => r.path.normalize (some chainDisk.cwd)),
        ∀ b ∈ chainRecords.map (fun r => r.path.normalize (some chainDisk.cwd)),
          CacheStore.slotName a = CacheStore.slotName b → a = b := by
      decide +kernel
    exact hall a (recorded_chain ha) b (recorded_chain hb)

set_option maxRecDepth 10000 in
theorem chain_runs : ∃ p p' : Pipeline FixtureEngine, chainStart chainDisk = .ok p ∧
    chainStart p.indexed.disk = .ok p' ∧ p.indexed.isIdle = true ∧
      p.indexed.counters.errors = [] ∧
      (∀ file ∈ p.targets, (p.indexed.fresh? file).isSome = true) ∧
      p'.indexed.isIdle = true ∧ p'.indexed.counters.errors = [] ∧
      p.indexed.brings p.targets ⟨"/W/a.h"⟩ = true ∧
      (p.indexed.db.snapshot? ⟨"/W/a.h"⟩).isSome = true ∧
      p'.indexed.db.contributionOf? .func (.ofSignature "G") ⟨"/W/base.h"⟩ ≠
        p.indexed.db.contributionOf? .func (.ofSignature "G") ⟨"/W/base.h"⟩ := by
  have hrun : (chainStart chainDisk).toOption.any (fun p =>
      (chainStart p.indexed.disk).toOption.any fun p' => decide (p.indexed.isIdle = true ∧
        p.indexed.counters.errors = [] ∧
        (∀ file ∈ p.targets, (p.indexed.fresh? file).isSome = true) ∧
        p'.indexed.isIdle = true ∧ p'.indexed.counters.errors = [] ∧
        p.indexed.brings p.targets ⟨"/W/a.h"⟩ = true ∧
        (p.indexed.db.snapshot? ⟨"/W/a.h"⟩).isSome = true ∧
        p'.indexed.db.contributionOf? .func (.ofSignature "G") ⟨"/W/base.h"⟩ ≠
          p.indexed.db.contributionOf? .func (.ofSignature "G") ⟨"/W/base.h"⟩)) = true := by
    decide +kernel
  obtain ⟨p, hnew, hp⟩ := exists_of_any hrun
  obtain ⟨p', hnew', hp'⟩ := exists_of_any hp
  exact ⟨p, p', hnew, hnew', of_decide_eq_true hp'⟩

/-- The run after a restart loses what the first one knew of a header that only another header
includes. -/
theorem transitive_include_lost : ∃ p p' : Pipeline FixtureEngine,
    chainStart chainDisk = .ok p ∧ chainStart p.indexed.disk = .ok p' ∧
      (∃ answer, Steady answer p.engine ∧ Steady answer p'.engine ∧ (p.setting answer).Truthful ∧
        ∀ file, ∀ r ∈ (p.setting answer).records file, r.args = []) ∧
      p.settings.cacheRead = true ∧ p.settings.cacheWrite = true ∧
      p.indexed.isIdle = true ∧ p.indexed.counters.errors = [] ∧
      p'.indexed.isIdle = true ∧ p'.indexed.counters.errors = [] ∧
      ∃ c id q, p'.indexed.db.contributionOf? c id q ≠ p.indexed.db.contributionOf? c id q := by
  obtain ⟨p, p', hnew, hnew', hidle, herrors, _, hidle', herrors', _, _, hlost⟩ := chain_runs
  obtain ⟨_, hp⟩ := new_eq hnew
  obtain ⟨_, hp'⟩ := new_eq hnew'
  have hset := setting_chainStart hnew
  refine ⟨p, p', hnew, hnew', ⟨chainAnswer, ?_, ?_, hset ▸ truthful_chain, fun file r hr => ?_⟩,
    by rw [hp], by rw [hp], hidle, herrors, hidle', herrors', _, _, _, hlost⟩
  · rw [hp]
    exact steady_fixture _
  · rw [hp']
    exact steady_fixture _
  · rw [hset] at hr
    have hall : ∀ r ∈ chainRecords, r.args = [] := by decide
    exact hall r (mem_chainRecords hr)

/-- The header that the source file includes itself comes back. -/
theorem direct_include_restored : ∃ p p' : Pipeline FixtureEngine,
    chainStart chainDisk = .ok p ∧ chainStart p.indexed.disk = .ok p' ∧
      p'.indexed.isIdle = true ∧
      p'.indexed.db.snapshot? ⟨"/W/a.h"⟩ = p.indexed.db.snapshot? ⟨"/W/a.h"⟩ ∧
      (p.indexed.db.snapshot? ⟨"/W/a.h"⟩).isSome = true := by
  obtain ⟨p, p', hnew, hnew', _, herrors, hfresh, _, herrors', hbrings, hheld, _⟩ := chain_runs
  have ht : (p.setting chainAnswer).Truthful := setting_chainStart hnew ▸ truthful_chain
  obtain ⟨q, hq, hrun⟩ := indexed_again hnew rfl rfl ht (steady_fixture _)
    (steady_fixture (chainEngine chainTime chainTime))
    (fun e he => absurd (herrors ▸ he) List.not_mem_nil) hfresh
  cases hq.symm.trans hnew'
  obtain ⟨hidle, hsame⟩ := hrun fun e he => absurd (herrors' ▸ he) List.not_mem_nil
  refine ⟨p, p', hnew, hnew', hidle, ?_, hheld⟩
  rw [(hsame _).1, if_pos hbrings]

end Chain

end Pipeline

end SymbolIndex
