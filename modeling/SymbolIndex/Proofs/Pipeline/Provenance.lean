import SymbolIndex.Proofs.Pipeline.Outcomes
import SymbolIndex.Proofs.Pipeline.Uncached

/-! Where the snapshots on record come from. The database and the known times are written from the same
messages in the same order, first the one for a whole batch and then the other, so that after every
merge a known time belongs to the snapshot on record; and a change has a time only if no editor held
its file when it was extracted, be it just now or before its entry came into the cache. -/

namespace SymbolIndex

/-- The snapshot that a change brings to its file. It has a time, and an entry to save, only if it was
extracted while no editor held the file. -/
structure FileChange.Carries (past : List Finding) (f : FileChange) (s : Snapshot) : Prop where
  path : f.path = s.path
  delta : f.delta = .between f.basedOn s
  timed : ∀ t, f.modified = some t → t = s.modified ∧ Extracted past s
  saved : ∀ e, f.cacheEntry = some e → e.payload = s ∧ e.modified = s.modified ∧ Extracted past s

theorem FileChange.Carries.snapshot {past : List Finding} {f : FileChange} {s : Snapshot}
    (h : f.Carries past s) : f.delta.snapshot = some s := by
  rw [h.delta]
  rfl

theorem FileChange.Carries.append {past : List Finding} {f : FileChange} {s : Snapshot}
    (h : f.Carries past s) (more : List Finding) : f.Carries (past ++ more) s where
  path := h.path
  delta := h.delta
  timed t ht := ⟨(h.timed t ht).1, (h.timed t ht).2.append more⟩
  saved e he := ⟨(h.saved e he).1, (h.saved e he).2.1, (h.saved e he).2.2.append more⟩

namespace MergeMessage

def files : MergeMessage → List FileChange
  | .job outcome => outcome.files
  | .remove _ => []

def claims : MergeMessage → Claims
  | .job outcome => outcome.claims
  | .remove _ => {}

/-- What is known about each file after a message, where a part of the change becomes known. -/
def update {α : Type} (part : FileChange → Option α) (m : MergeMessage) (known : Path → Option α) :
    Path → Option α :=
  match m with
  | .job outcome =>
    outcome.files.foldl (fun known f q => if q.same f.path then part f else known q) known
  | .remove path => fun q => if q.same path then none else known q

def Carries (past : List Finding) (m : MergeMessage) : Prop :=
  ∀ f ∈ m.files, ∃ s, f.Carries past s

/-- What holds between two parts of every change holds between what becomes known from them. -/
theorem update_related {α β : Type} {R : Option α → Option β → Prop} {a : FileChange → Option α}
    {b : FileChange → Option β} {m : MergeMessage} (hnone : R none none)
    (hfiles : ∀ f ∈ m.files, R (a f) (b f)) {known : Path → Option α} {known' : Path → Option β}
    (h : ∀ q, R (known q) (known' q)) (q : Path) : R (m.update a known q) (m.update b known' q) := by
  cases m with
  | remove path =>
    simp only [update]
    split
    next => exact hnone
    next => exact h q
  | job outcome =>
    simp only [update]
    change ∀ f ∈ outcome.files, _ at hfiles
    generalize outcome.files = files at hfiles
    induction files generalizing known known' with
    | nil => exact h q
    | cons f rest ih =>
      obtain ⟨hf, hrest⟩ := List.forall_mem_cons.mp hfiles
      refine ih (fun r => ?_) hrest
      dsimp only
      split
      next => exact hf
      next => exact h r

theorem foldl_update_related {α β : Type} {R : Option α → Option β → Prop}
    {a : FileChange → Option α} {b : FileChange → Option β} {batch : List MergeMessage}
    (hnone : R none none) (hfiles : ∀ m ∈ batch, ∀ f ∈ m.files, R (a f) (b f))
    {known : Path → Option α} {known' : Path → Option β} (h : ∀ q, R (known q) (known' q))
    (q : Path) :
    R (batch.foldl (fun known m => m.update a known) known q)
      (batch.foldl (fun known m => m.update b known) known' q) := by
  induction batch generalizing known known' with
  | nil => exact h q
  | cons m rest ih =>
    obtain ⟨hm, hrest⟩ := List.forall_mem_cons.mp hfiles
    exact ih hrest (update_related hnone hm h)

end MergeMessage

namespace Pipeline

variable {σ : Type} {past : List Finding}

/-- A time that is known belongs to the snapshot on record. -/
def Timed (past : List Finding) (s : Option Snapshot) (t : Option Timestamp) : Prop :=
  ∀ time, t = some time → ∃ held, s = some held ∧ held.modified = time ∧ Extracted past held

theorem timed_of_carries {f : FileChange} {s : Snapshot} (h : f.Carries past s) :
    Timed past f.delta.snapshot f.modified := by
  intro t ht
  obtain ⟨rfl, hs⟩ := h.timed t ht
  exact ⟨s, h.snapshot, rfl, hs⟩

/-- No change of a message is refused. -/
theorem applyChange?_carries {p : Pipeline σ} (h : p.db.Consistent) {f : FileChange} {s : Snapshot}
    (hf : f.Carries past s) :
    ∃ db merged, p.applyChange? f = .ok { p with db := db, merged := merged } ∧ db.Consistent ∧
      db.snapshot? = fun q => if q.same f.path then f.delta.snapshot else p.db.snapshot? q := by
  obtain ⟨out, hout, hm⟩ := h.index s
  rw [Database.index] at hout
  rw [applyChange?, hf.snapshot, hf.delta, p.db.rebase_between f.basedOn s, hout]
  refine ⟨out.1, _, rfl, hm.consistent, funext fun q => ?_⟩
  rw [hm.snapshot?, hf.path, Path.same_comm q s.path]
  rfl

theorem applyMessage?_carries {p : Pipeline σ} (h : p.db.Consistent) {m : MergeMessage}
    (hm : m.Carries past) :
    ∃ db merged, p.applyMessage? m = .ok { p with db := db, merged := merged } ∧ db.Consistent ∧
      db.snapshot? = m.update (·.delta.snapshot) p.db.snapshot? := by
  cases m with
  | remove path =>
    obtain ⟨db, merged, hp, hc, hs⟩ := removeFile?_frame h path
    exact ⟨db, merged, hp, hc, funext hs⟩
  | job outcome =>
    rw [applyMessage?, MergeMessage.update]
    change ∀ f ∈ outcome.files, _ at hm
    generalize outcome.files = files at hm
    induction files generalizing p with
    | nil => exact ⟨_, _, rfl, h, rfl⟩
    | cons f rest ih =>
      obtain ⟨⟨s, hf⟩, hrest⟩ := List.forall_mem_cons.mp hm
      obtain ⟨db, merged, hp, hc, hs⟩ := applyChange?_carries h hf
      rw [List.foldlM_cons, List.foldl_cons, hp, ← hs]
      exact ih (p := { p with db := db, merged := merged }) hc hrest

theorem foldlM_applyMessage? {p : Pipeline σ} (h : p.db.Consistent) {batch : List MergeMessage}
    (hb : ∀ m ∈ batch, m.Carries past) :
    ∃ db merged, batch.foldlM applyMessage? p = .ok { p with db := db, merged := merged } ∧
      db.Consistent ∧ db.snapshot? =
        batch.foldl (fun known m => m.update (·.delta.snapshot) known) p.db.snapshot? := by
  induction batch generalizing p with
  | nil => exact ⟨_, _, rfl, h, rfl⟩
  | cons m rest ih =>
    obtain ⟨hm, hrest⟩ := List.forall_mem_cons.mp hb
    obtain ⟨db, merged, hp, hc, hs⟩ := applyMessage?_carries h hm
    rw [List.foldlM_cons, List.foldl_cons, hp, ← hs]
    exact ih (p := { p with db := db, merged := merged }) hc hrest

/-- What the bookkeeping leaves of a pipeline whose database is up to date. -/
structure Booked (past : List Finding) (a b : Pipeline σ) (times : Path → Option Timestamp)
    (claimed : Path → Bool) : Prop where
  db : b.db = a.db
  times : ∀ q, b.timestamps.find? q = times q
  claimed : ∀ q, b.ownership.contains q = claimed q
  cache : b.snapshots.Attests (Extracted past) b.disk

theorem noteTime_times (p : Pipeline σ) (f : FileChange) (q : Path) :
    (p.noteTime f).timestamps.find? q =
      if q.same f.path then f.modified else p.timestamps.find? q := by
  rw [noteTime]
  cases f.modified with
  | some t =>
    dsimp only
    rw [OrderedMap.find?_insert]
    simp only [Path.compare_eq_iff]
  | none =>
    dsimp only
    rw [OrderedMap.find?_erase, Path.same_comm]
    simp only [Path.compare_eq_iff]

theorem saveEntry_attests {p : Pipeline σ} (h : p.snapshots.Attests (Extracted past) p.disk)
    {f : FileChange} {s : Snapshot} (hf : f.Carries past s) :
    (p.saveEntry f).snapshots.Attests (Extracted past) (p.saveEntry f).disk := by
  unfold saveEntry
  split
  next => exact h
  next e he =>
    obtain ⟨rfl, hm, hs⟩ := hf.saved e he
    rw [hf.path]
    have hsave := h.save ⟨Path.same_self _, hm, hs⟩
    split
    next =>
      split
      next hres =>
        rw [hres] at hsave
        exact hsave
      next hres =>
        rw [hres] at hsave
        exact hsave
    next => exact h

theorem saveEntry_keeps (p : Pipeline σ) (f : FileChange) :
    (p.saveEntry f).db = p.db ∧ (p.saveEntry f).timestamps = p.timestamps ∧
      (p.saveEntry f).ownership = p.ownership := by
  unfold saveEntry
  split
  next => exact ⟨rfl, rfl, rfl⟩
  next =>
    split
    next => split <;> exact ⟨rfl, rfl, rfl⟩
    next => exact ⟨rfl, rfl, rfl⟩

theorem finishFile_booked {p : Pipeline σ} (h : p.snapshots.Attests (Extracted past) p.disk)
    {f : FileChange} {s : Snapshot} (hf : f.Carries past s) :
    Booked past p (p.finishFile f)
      (fun q => if q.same f.path then f.modified else p.timestamps.find? q)
      (fun q => p.ownership.contains q) := by
  obtain ⟨hdb, htimes, howned⟩ := (p.noteTime f).saveEntry_keeps f
  have hcache : (p.noteTime f).snapshots.Attests (Extracted past) (p.noteTime f).disk := h
  rw [finishFile]
  refine ⟨hdb, fun q => ?_, fun q => ?_, saveEntry_attests hcache hf⟩
  · rw [htimes, noteTime_times]
  · rw [howned]
    rfl

theorem foldl_finishFile_booked {p : Pipeline σ}
    (h : p.snapshots.Attests (Extracted past) p.disk) {files : List FileChange}
    (hf : ∀ f ∈ files, ∃ s, f.Carries past s) :
    Booked past p (files.foldl finishFile p)
      (files.foldl (fun known f q => if q.same f.path then f.modified else known q)
        p.timestamps.find?)
      (fun q => p.ownership.contains q) := by
  induction files generalizing p with
  | nil => exact ⟨rfl, fun _ => rfl, fun _ => rfl, h⟩
  | cons f rest ih =>
    obtain ⟨⟨s, hs⟩, hrest⟩ := List.forall_mem_cons.mp hf
    have hfirst := finishFile_booked h hs
    have hlast := ih hfirst.cache hrest
    rw [List.foldl_cons, List.foldl_cons]
    refine ⟨hlast.db.trans hfirst.db, fun q => ?_, fun q => ?_, hlast.cache⟩
    · rw [hlast.times, funext hfirst.times]
    · rw [hlast.claimed, hfirst.claimed]

theorem finishMessage_booked {p : Pipeline σ} (h : p.snapshots.Attests (Extracted past) p.disk)
    {m : MergeMessage} (hm : m.Carries past) :
    Booked past p (p.finishMessage m) (m.update (·.modified) p.timestamps.find?)
      (fun q => p.ownership.contains q && !m.claims.holds q) := by
  cases m with
  | job outcome =>
    obtain ⟨disk, snapshots, timestamps, _, _, hfold, -, hfinish⟩ := p.finishJob_frame outcome
    have hfiles := foldl_finishFile_booked (p := { p with
      counters := p.counters.addFilesApplied outcome.files.length }) h hm
    change Booked past _ (outcome.files.foldl finishFile _) _ _ at hfiles
    rw [hfold] at hfiles
    rw [finishMessage, hfinish]
    obtain ⟨_, _, _, _, hcomplete, -⟩ := complete_frame _ outcome.path
    rw [hcomplete]
    exact ⟨rfl, hfiles.times, fun q => Claims.contains_drop _ _ q, hfiles.cache⟩
  | remove path =>
    have hremove : (p.snapshots.invalidate path).Attests (Extracted past)
        (p.snapshots.store.remove p.disk path).1 := h.remove path
    rw [finishMessage, finishRemoval_eq]
    generalize (p.snapshots.store.remove p.disk path).1 = disk at hremove ⊢
    refine ⟨rfl, fun q => ?_, fun q => ?_, hremove⟩
    · simp only [OrderedMap.find?_erase, MergeMessage.update, Path.compare_eq_iff,
        Path.same_comm path q]
    · simp [MergeMessage.claims, Claims.holds]

theorem foldl_finishMessage_booked {p : Pipeline σ}
    (h : p.snapshots.Attests (Extracted past) p.disk) {batch : List MergeMessage}
    (hb : ∀ m ∈ batch, m.Carries past) :
    Booked past p (batch.foldl finishMessage p)
      (batch.foldl (fun known m => m.update (·.modified) known) p.timestamps.find?)
      (fun q => p.ownership.contains q && batch.all fun m => !m.claims.holds q) := by
  induction batch generalizing p with
  | nil => exact ⟨rfl, fun _ => rfl, fun q => by simp, h⟩
  | cons m rest ih =>
    obtain ⟨hm, hrest⟩ := List.forall_mem_cons.mp hb
    have hfirst := finishMessage_booked h hm
    have hlast := ih hfirst.cache hrest
    rw [List.foldl_cons, List.foldl_cons]
    refine ⟨hlast.db.trans hfirst.db, fun q => ?_, fun q => ?_, hlast.cache⟩
    · rw [hlast.times, funext hfirst.times]
    · rw [hlast.claimed, hfirst.claimed, List.all_cons, Bool.and_assoc]

/-- What is right in every state of a run. -/
structure Sound (past : List Finding) (p : Pipeline σ) : Prop where
  consistent : p.db.Consistent
  cache : p.snapshots.Attests (Extracted past) p.disk
  carried : ∀ m ∈ p.outbox, m.Carries past
  times : ∀ q, Timed past (p.db.snapshot? q) (p.timestamps.find? q)
  claimed : ∀ q, p.ownership.contains q = true → ∃ m ∈ p.outbox, m.claims.holds q = true

/-- A batch is applied without a refusal, and all the rest is bookkeeping. -/
theorem Sound.accepted {p : Pipeline σ} (h : Sound past p) (size : Nat) :
    ∃ db merged, mergeBatch? { p with outbox := p.outbox.drop size } (p.outbox.take size) =
        .ok ((p.outbox.take size).foldl finishMessage
          { p with outbox := p.outbox.drop size, db := db, merged := merged }) ∧
      db.Consistent ∧ db.snapshot? = (p.outbox.take size).foldl
        (fun known m => m.update (·.delta.snapshot) known) p.db.snapshot? := by
  have hbatch : ∀ m ∈ p.outbox.take size, m.Carries past :=
    fun m hm => h.carried m (List.mem_of_mem_take hm)
  obtain ⟨db, merged, happlied, hconsistent, hrecord⟩ := foldlM_applyMessage?
    (p := { p with outbox := p.outbox.drop size }) h.consistent hbatch
  refine ⟨db, merged, ?_, hconsistent, hrecord⟩
  rw [mergeBatch?, happlied]
  rfl

theorem Sound.mergeFirst {p : Pipeline σ} (h : Sound past p) (size : Nat) :
    Sound past (p.mergeFirst size) ∧ (p.mergeFirst size).db.snapshot? =
      (p.outbox.take size).foldl (fun known m => m.update (·.delta.snapshot) known)
        p.db.snapshot? := by
  have hbatch : ∀ m ∈ p.outbox.take size, m.Carries past :=
    fun m hm => h.carried m (List.mem_of_mem_take hm)
  obtain ⟨db, merged, haccepted, hconsistent, hrecord⟩ := h.accepted size
  let applied : Pipeline σ :=
    { p with outbox := p.outbox.drop size, db := db, merged := merged }
  have hcache : applied.snapshots.Attests (Extracted past) applied.disk := h.cache
  have hbooked := foldl_finishMessage_booked hcache hbatch
  have hmerge : p.mergeFirst size = (p.outbox.take size).foldl finishMessage applied :=
    restricts_mergeBatch.eq haccepted
  have hout := (p.mergeFirst_frame size).1
  rw [hmerge] at hout ⊢
  refine ⟨⟨?_, hbooked.cache, fun m hm => ?_, fun q => ?_, fun q hq => ?_⟩, ?_⟩
  · rw [hbooked.db]
    exact hconsistent
  · rw [hout] at hm
    exact h.carried m (List.mem_of_mem_drop hm)
  · rw [hbooked.db, hbooked.times]
    change Timed past (db.snapshot? q) _
    rw [hrecord]
    -- Both sides are written from the same messages, one after the other.
    have hnone : Timed past none none := by
      intro t ht
      cases ht
    refine MergeMessage.foldl_update_related hnone (fun m hm f hf => ?_) h.times q
    obtain ⟨s, hs⟩ := hbatch m hm f hf
    exact timed_of_carries hs
  · rw [hbooked.claimed, Bool.and_eq_true, List.all_eq_true] at hq
    obtain ⟨hheld, hnone⟩ := hq
    obtain ⟨m, hm, hclaim⟩ := h.claimed q hheld
    rw [hout]
    rw [← List.take_append_drop size p.outbox, List.mem_append] at hm
    rcases hm with hm | hm
    · have hn := hnone m hm
      rw [hclaim] at hn
      cases hn
    · exact ⟨m, hm, hclaim⟩
  · rw [hbooked.db]
    exact hrecord

section Job

variable [Engine σ] {p : Pipeline σ}

omit [Engine σ] in
theorem carries_replayed {e : CachedSnapshot} {q : Path}
    (he : Attested (Extracted past) q e) : (p.replayed e).Carries past e.payload where
  path := rfl
  delta := rfl
  timed t ht := by
    cases ht
    exact ⟨he.modified, he.good⟩
  saved e' he' := nomatch he'

omit [Engine σ] in
theorem attested_of_mem_replays (h : p.snapshots.Attests (Extracted past) p.disk)
    {e e' : CachedSnapshot} {q : Path} (he : Attested (Extracted past) q e)
    (hm : e' ∈ p.replays e) : ∃ q, Attested (Extracted past) q e' := by
  rw [replays, List.mem_append, List.mem_filterMap] at hm
  rcases hm with hm | ⟨path, -, hm⟩
  · rw [Option.mem_toList, resent?, Option.ite_none_left_eq_some] at hm
    obtain ⟨-, hm⟩ := hm
    cases hm
    exact ⟨q, he⟩
  · rw [restored?, Option.ite_none_left_eq_some, Option.filter_eq_some_iff] at hm
    exact ⟨path, h.peek? hm.2.1⟩

omit [Engine σ] in
/-- The change of a record carries what the engine found. -/
theorem carries_recordChange {args : List String} {r : Record}
    (hr : (⟨r, p.disk.cwd, args, p.unsaved⟩ : Finding) ∈ past) :
    (p.recordChange args p.unsaved r).Carries past (r.entry p.disk.cwd args).payload := by
  let x : Finding := ⟨r, p.disk.cwd, args, p.unsaved⟩
  rw [recordChange, remapRecord_eq]
  split
  next =>
    refine ⟨rfl, rfl, fun t ht => ?_, fun e he => ?_⟩
    · cases ht
    · cases he
  next hu =>
    have hx : Extracted past x.snapshot := ⟨x, hr, rfl, Bool.eq_false_iff.mpr hu⟩
    refine ⟨rfl, rfl, fun t ht => ?_, fun e he => ?_⟩
    · cases ht
      exact ⟨rfl, hx⟩
    · cases he
      exact ⟨rfl, rfl, hx⟩

omit [Engine σ] in
/-- The entry that a job is answered with is one that the cache has for the file. -/
theorem peek?_of_verdict (hd : p.snapshots.loaded.Distinct) {path : Path} {interactive : Bool}
    {e : CachedSnapshot} (hv : p.verdict path interactive = .fresh e) :
    p.unsaved.contains path = false ∧ p.settings.cacheRead = true ∧
      p.snapshots.peek? p.disk path = some e ∧ p.disk.modified? path = some e.modified := by
  obtain ⟨_, -, -, -, hcached⟩ := p.lookUp_frame hd path
  obtain ⟨hunsaved, he, hm⟩ := Freshness.check_eq_fresh hv
  rw [hcached, Option.ite_none_right_eq_some] at he
  exact ⟨hunsaved, he.1, he.2, hm⟩

theorem emitted_carry (h : p.snapshots.Attests (Extracted past) p.disk) (path : Path)
    (interactive : Bool) :
    ∀ f ∈ p.emitted path interactive, ∃ s, f.Carries (past ++ p.reported path interactive) s := by
  intro f hf
  rw [emitted] at hf
  cases hv : p.verdict path interactive with
  | vanished =>
    rw [hv] at hf
    cases hf
  | fresh e =>
    rw [hv] at hf
    obtain ⟨_, hl, -, hattests, -⟩ := p.lookUp_frame h.distinct path
    obtain ⟨-, -, he, -⟩ := peek?_of_verdict h.distinct hv
    have hlooked : (p.lookUp path).1.snapshots.Attests (Extracted past) (p.lookUp path).1.disk := by
      rw [hl]
      exact hattests _ h
    obtain ⟨e', hm, rfl⟩ := List.mem_map.mp hf
    obtain ⟨_, he'⟩ := attested_of_mem_replays hlooked (h.peek? he) hm
    exact ⟨_, (carries_replayed he').append _⟩
  | changed =>
    rw [hv] at hf
    have hreported : ∀ records, p.answer path = .records records → p.reported path interactive =
        records.map (⟨·, p.disk.cwd, p.project.argsFor path, p.unsaved⟩) := by
      intro records ha
      have hdue : p.due path interactive = true := decide_eq_true hv
      rw [answer] at ha
      rw [reported, if_pos hdue, ha]
    cases ha : p.answer path with
    | failed message =>
      rw [ha] at hf
      cases hf
    | crashed message =>
      rw [ha] at hf
      cases hf
    | records records =>
      rw [ha] at hf
      obtain ⟨r, hr, rfl⟩ := List.mem_map.mp hf
      refine ⟨_, carries_recordChange (List.mem_append_right _ ?_)⟩
      rw [hreported records ha]
      exact List.mem_map_of_mem (List.mem_filter.mp hr |>.1)

end Job

section Run

variable [Engine σ] {p : Pipeline σ}

omit [Engine σ] in
theorem Sound.append (h : Sound past p) (more : List Finding) : Sound (past ++ more) p where
  consistent := h.consistent
  cache := h.cache.mono fun _ hs => hs.append more
  carried m hm f hf := by
    obtain ⟨s, hs⟩ := h.carried m hm f hf
    exact ⟨s, hs.append more⟩
  times q t ht := by
    obtain ⟨s, hs, hm, he⟩ := h.times q t ht
    exact ⟨s, hs, hm, he.append more⟩
  claimed := h.claimed

omit [Engine σ] in
theorem Sound.sameFiles (h : Sound past p) {p' : Pipeline σ} (hs : p.SameFiles p') :
    Sound past p' where
  consistent := by
    rw [hs.db]
    exact h.consistent
  cache := by
    rw [hs.snapshots, hs.disk]
    exact h.cache
  carried := by
    rw [hs.outbox]
    exact h.carried
  times q t ht := by
    rw [hs.db]
    exact h.times q t (hs.times q t ht)
  claimed q hq := by
    rw [hs.ownership] at hq
    rw [hs.outbox]
    exact h.claimed q hq

omit [Engine σ] in
theorem Sound.notifyRemoved (h : Sound past p) (path : Path) : Sound past (p.notifyRemoved path) where
  consistent := h.consistent
  cache := h.cache
  carried m hm := by
    rcases List.mem_append.mp hm with hm | hm
    · exact h.carried m hm
    · rw [List.mem_singleton.mp hm]
      exact fun f hf => nomatch hf
  times := h.times
  claimed q hq := by
    obtain ⟨m, hm, hclaim⟩ := h.claimed q hq
    exact ⟨m, List.mem_append_left _ hm, hclaim⟩

omit [Engine σ] in
theorem Sound.disk (h : Sound past p) {d : Disk}
    (hd : p.snapshots.store.Attests (Extracted past) d) : Sound past { p with disk := d } :=
  ⟨h.consistent, h.cache.disk hd, h.carried, h.times, h.claimed⟩

theorem work_eq {job : JobInHand} (hh : p.inHand = some job) :
    p.work = (Pipeline.process { p with inHand := none } job.path job.interactive).1.submit
      (p.outcome job) := by
  rw [work, hh]
  rfl

/-- The outcome of the job in hand goes to the end of what waits. -/
theorem work_submits {job : JobInHand} (hh : p.inHand = some job) :
    p.work.outbox = p.outbox ++ [.job (p.outcome job)] ∧ p.work.db = p.db ∧
      p.work.disk = p.disk := by
  obtain ⟨⟨_, _, _, _, hprocess, -⟩, -⟩ :=
    process_spec { p with inHand := none } job.path job.interactive
  rw [work_eq hh, hprocess]
  exact ⟨rfl, rfl, rfl⟩

theorem Sound.work (h : Sound past p) : Sound (past ++ p.found .work) p.work := by
  cases hh : p.inHand with
  | none =>
    rw [Pipeline.work, hh, found, hh]
    exact h.append _
  | some job =>
    have hanswered := process_answered (p := { p with inHand := none }) h.cache.distinct job.path
      job.interactive
    have hfiles := emitted_carry (p := { p with inHand := none }) h.cache job.path job.interactive
    obtain ⟨⟨_, _, _, _, hprocess, -⟩, -⟩ :=
      process_spec { p with inHand := none } job.path job.interactive
    rw [work_eq hh, found, hh]
    change Sound (past ++ p.reported job.path job.interactive) _
    generalize hr : Pipeline.process { p with inHand := none } job.path job.interactive = r
      at hanswered hprocess
    have houtcome : p.outcome job = r.2 := by rw [outcome, hr]
    obtain ⟨q, o⟩ := r
    rw [houtcome]
    dsimp only at hprocess ⊢
    have hcache : q.snapshots.Attests (Extracted past) q.disk := by
      rw [hprocess]
      have hafter := hanswered.cache _ h.cache
      dsimp only at hafter
      rwa [hprocess] at hafter
    have hclaims := hanswered.claims.contains
    dsimp only at hclaims
    have hgrown := h.append (p.reported job.path job.interactive)
    refine ⟨?_, hcache.mono fun _ hs => hs.append _, fun m hm => ?_, fun r => ?_, fun r hr => ?_⟩
    · rw [submit, hprocess]
      exact h.consistent
    · rw [submit, hprocess] at hm
      rcases List.mem_append.mp hm with hm | hm
      · exact hgrown.carried m hm
      · rw [List.mem_singleton.mp hm]
        intro f hf
        refine hfiles f ?_
        rw [← hanswered.files]
        exact hf
    · rw [submit, hprocess]
      exact hgrown.times r
    · change ∃ m ∈ q.outbox ++ [.job o], _
      have hheld := hclaims r
      rw [show q.ownership.contains r = true from hr, eq_comm, Bool.or_eq_true] at hheld
      rcases hheld with hheld | hheld
      · obtain ⟨m, hm, hclaim⟩ := h.claimed r hheld
        refine ⟨m, List.mem_append_left _ ?_, hclaim⟩
        rw [hprocess]
        exact hm
      · exact ⟨.job o, List.mem_append_right _ (List.mem_singleton_self _), hheld⟩

theorem Run.sound (h : Run past p) : Sound past p := by
  induction h with
  | new _ _ h hc =>
    obtain ⟨-, hp⟩ := new_eq h
    rw [hp] at hc ⊢
    have hcache := SnapshotCache.attests_new hc
    exact ⟨Database.consistent_empty, hcache _, fun _ hm => (nomatch hm),
      fun _ _ ht => (nomatch ht), fun _ hq => (nomatch hq)⟩
  | act h m hm ih =>
    by_cases hq : m.quiet = true
    · exact (ih.sameFiles (sameFiles_act _ hq)).append _
    · cases m with
      | notifyRemoved path => exact (ih.notifyRemoved path).append _
      | work => exact ih.work
      | merge size => exact (ih.mergeFirst size).1.append _
      | disk d => exact (ih.disk hm.2).append _
      | _ => exact absurd rfl hq

/-- No change that waits for the merger is refused: a merger that stops at a refusal merges the same. -/
theorem Run.merge_accepted (h : Run past p) (size : Nat) :
    mergeBatch? { p with outbox := p.outbox.drop size } (p.outbox.take size) =
      .ok (p.mergeFirst size) := by
  obtain ⟨_, _, haccepted, -⟩ := h.sound.accepted size
  rw [haccepted, mergeFirst, restricts_mergeBatch.eq haccepted]

/-- A time that is known is that of the snapshot on record, which was extracted while no editor held
the file. -/
theorem known_time_recorded (h : Run past p) {q : Path} {t : Timestamp}
    (ht : p.timestamps.find? q = some t) :
    ∃ s, p.db.snapshot? q = some s ∧ s.modified = t ∧
      ∃ x ∈ past, x.snapshot = s ∧ x.buffers.contains q = false := by
  obtain ⟨s, hs, hm, x, hx, heq, hbuffer⟩ := h.sound.times q t ht
  have hpath : q.same s.path = true := h.sound.consistent.snapshot?_path hs
  refine ⟨s, hs, hm, x, hx, heq, ?_⟩
  rwa [OrderedMap.contains_congr _ hpath]

end Run

section Chain

set_option maxRecDepth 10000 in
theorem known_time_recorded_chain : ∃ (past : List Finding) (p : Pipeline FixtureEngine) (q : Path),
    Run past p ∧ p.isIdle = true ∧ p.timestamps.find? q = some chainTime ∧
      ∃ s, p.db.snapshot? q = some s ∧ s.modified = chainTime ∧
        ∃ x ∈ past, x.snapshot = s ∧ x.buffers.contains q = false := by
  have hrun : (chainStart chainDisk).toOption.any (fun p => decide (
      p.indexProject.1.settle.isIdle = true ∧
      p.indexProject.1.settle.timestamps.find? ⟨"/W/a.h"⟩ = some chainTime)) = true := by
    decide +kernel
  obtain ⟨p, hnew, hp⟩ := exists_of_any hrun
  obtain ⟨hidle, htime⟩ := of_decide_eq_true hp
  obtain ⟨past, hreach⟩ := ((run_chainStart hnew).enqueueAll _ _ _).settle
  exact ⟨_, _, _, hreach, hidle, htime, known_time_recorded hreach htime⟩

end Chain

end Pipeline

end SymbolIndex
