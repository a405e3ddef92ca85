import SymbolIndex.Engine.Dump
import SymbolIndex.Proofs.Lru
import SymbolIndex.Proofs.Path

/-! The sessions of the dump engine are not to be seen. Each of them was read from the disk of some
moment, and a dump that has changed since has another modification time. So a call is answered as if
the dump were read at that moment, whatever is kept, was pushed out or has been dropped. -/

namespace SymbolIndex

namespace Sessions

variable {σ ε : Type} {c : Sessions σ} {p : Path}

theorem getOrCreate_spec (h : c.Distinct) (hp : ∀ session, ¬ c.Has p session)
    (create : Except ε σ) :
    (getOrCreate c p create).2 = create ∧ (getOrCreate c p create).1.Distinct ∧
      ∀ q session, (getOrCreate c p create).1.Has q session →
        q.same p = true ∧ create = .ok session ∨ c.Has q session := by
  have hperm := c.held_get p
  have hhas : ∀ q session, (c.get p).1.Has q session ↔ c.Has q session :=
    fun _ _ => Lru.has_congr hperm
  have hmiss : (c.get p).2 = none :=
    Option.eq_none_iff_forall_ne_some.mpr fun session hs => hp session ((Lru.get_iff h).mp hs)
  have hget : c.get p = ((c.get p).1, none) := Prod.ext rfl hmiss
  rw [getOrCreate, hget]
  cases create with
  | error e => exact ⟨rfl, h.perm hperm, fun q session hq => .inr ((hhas q session).mp hq)⟩
  | ok session =>
    obtain ⟨hdistinct, -, hrest⟩ := (h.perm hperm).insert p session
    refine ⟨rfl, hdistinct, fun q other hq => ?_⟩
    rcases hrest q other hq with ⟨hqp, rfl⟩ | hold
    · exact .inl ⟨Path.compare_eq_iff.mp hqp, rfl⟩
    · exact .inr ((hhas q other).mp hold)

end Sessions

namespace DumpEngine

variable {e : DumpEngine} {d d' : Disk} {p q : Path} {dump : Dump}

theorem modified_of_readDump (h : readDump d p = .ok dump) : dump.modified = d.modified? p := by
  rw [readDump] at h
  split at h
  next => cases h
  next =>
    split at h
    next =>
      cases h
      rfl
    next => cases h

theorem readDump_congr (hmodified : d'.modified? p = d.modified? p) (hread : d'.read p = d.read p) :
    readDump d' p = readDump d p := by
  rw [readDump, readDump, hmodified, hread]

/-- A session is used only as long as the time of its dump is the one it was read at. -/
theorem checked_spec (h : e.sessions.Distinct) (d : Disk) (p : Path) :
    (e.checked d p).1.Distinct ∧
    (∀ q dump, (e.checked d p).1.Has q dump → e.sessions.Has q dump) ∧
    ((∃ dump t, (e.checked d p).2 = some dump.records ∧ e.sessions.Has p dump ∧
        dump.modified = some t ∧ d.modified? (e.dumpPath p) = some t) ∨
      (e.checked d p).2 = none ∧ ∀ dump, ¬ (e.checked d p).1.Has p dump) := by
  have hperm := e.sessions.held_get p
  have hfound : ∀ dump, (e.sessions.get p).2 = some dump ↔ e.sessions.Has p dump :=
    fun _ => Lru.get_iff h
  rw [checked]
  generalize e.sessions.get p = got at hperm hfound
  obtain ⟨sessions, found⟩ := got
  have hhas : ∀ q dump, sessions.Has q dump ↔ e.sessions.Has q dump :=
    fun _ _ => Lru.has_congr hperm
  cases found with
  | none =>
    refine ⟨h.perm hperm, fun q dump => (hhas q dump).mp, .inr ⟨rfl, fun dump hp => ?_⟩⟩
    cases (hfound dump).mpr ((hhas p dump).mp hp)
  | some dump =>
    dsimp only
    split
    next hfresh =>
      obtain ⟨hsome, htime⟩ := hfresh
      obtain ⟨t, ht⟩ := Option.isSome_iff_exists.mp hsome
      exact ⟨h.perm hperm, fun q dump => (hhas q dump).mp,
        .inl ⟨dump, t, rfl, (hfound dump).mp rfl, ht, htime ▸ ht⟩⟩
    next =>
      have htake : ∀ {q dump}, (sessions.take p).1.Has q dump ↔
          sessions.Has q dump ∧ compare p q ≠ .eq := Lru.has_take (h.perm hperm) p
      refine ⟨(h.perm hperm).take p, fun q dump hq => (hhas q dump).mp (htake.mp hq).1,
        .inr ⟨rfl, fun dump hp => (htake.mp hp).2 ?_⟩⟩
      exact Path.compare_eq_iff.mpr (Path.same_self p)

/-- A call keeps no session but those that were there and the one that it makes. It is answered from a
session of the same time, or else from the dump; if the dump cannot be read, the path has no session. -/
theorem extract_spec (h : e.sessions.Distinct) (d : Disk) (p : Path) :
    (e.extract d p).1.directory = e.directory ∧ (e.extract d p).1.sessions.Distinct ∧
    (∀ q dump, (e.extract d p).1.sessions.Has q dump →
      q.same p = true ∧ readDump d (e.dumpPath p) = .ok dump ∨ e.sessions.Has q dump) ∧
    ((∃ dump t, (e.extract d p).2 = .ok dump.records ∧ e.sessions.Has p dump ∧
        dump.modified = some t ∧ d.modified? (e.dumpPath p) = some t) ∨
      (e.extract d p).2 = (readDump d (e.dumpPath p)).map (·.records) ∧
        ∀ cause, readDump d (e.dumpPath p) = .error cause →
          ∀ dump, ¬ (e.extract d p).1.sessions.Has p dump) := by
  obtain ⟨hdistinct, hkept, hcases⟩ := checked_spec h d p
  rw [extract]
  generalize e.checked d p = checked at hdistinct hkept hcases
  obtain ⟨sessions, records⟩ := checked
  rcases hcases with ⟨dump, t, hrecords, hhas, ht, hfresh⟩ | ⟨hrecords, hnone⟩
  · obtain rfl : records = some dump.records := hrecords
    exact ⟨rfl, hdistinct, fun q dump hq => .inr (hkept q dump hq),
      .inl ⟨dump, t, rfl, hhas, ht, hfresh⟩⟩
  · obtain rfl : records = none := hrecords
    obtain ⟨hmade, hdistinct', hrest⟩ :=
      Sessions.getOrCreate_spec hdistinct hnone (readDump d (e.dumpPath p))
    refine ⟨rfl, hdistinct', fun q dump hq => (hrest q dump hq).imp_right (hkept q dump),
      .inr ⟨congrArg (Except.map (·.records)) hmade, fun cause hcause dump hp => ?_⟩⟩
    rcases hrest p dump hp with ⟨-, hok⟩ | hold
    · rw [hcause] at hok
      cases hok
    · exact hnone dump hold

/-- What a call is answered when nothing is kept. -/
def direct (directory : Path) (d : Disk) (p : Path) : Except DumpError (List Record) :=
  (readDump d ((new directory).dumpPath p)).map (·.records)

/-- No dump had two contents at one modification time. -/
def Stamped (directory : Path) (used : Path → Prop) (past : List Disk) : Prop :=
  ∀ d ∈ past, ∀ d' ∈ past, ∀ p, used p → ∀ t,
    d.modified? ((new directory).dumpPath p) = some t →
    d'.modified? ((new directory).dumpPath p) = some t →
    d'.read ((new directory).dumpPath p) = d.read ((new directory).dumpPath p)

theorem Stamped.cons {directory : Path} {used : Path → Prop} {past : List Disk}
    (h : Stamped directory used past)
    (hnew : ∀ d' ∈ past, ∀ p, used p → ∀ t, d.modified? ((new directory).dumpPath p) = some t →
      d'.modified? ((new directory).dumpPath p) ≠ some t) : Stamped directory used (d :: past) := by
  intro d₁ hd₁ d₂ hd₂ p hp t ht₁ ht₂
  rcases List.mem_cons.mp hd₁ with rfl | h₁ <;> rcases List.mem_cons.mp hd₂ with rfl | h₂
  · rfl
  · exact absurd ht₂ (hnew d₂ h₂ p hp t ht₁)
  · exact absurd ht₁ (hnew d₁ h₁ p hp t ht₂)
  · exact h d₁ h₁ d₂ h₂ p hp t ht₁ ht₂

/-- What an engine comes to by calls for the paths in use, while the disk changes in any way between
them; with the disks that there were, the latest first. -/
inductive Reaches (directory : Path) (used : Path → Prop) : DumpEngine → List Disk → Prop
  | new (d : Disk) : Reaches directory used (new directory) [d]
  | extract {e : DumpEngine} {d : Disk} {past : List Disk}
      (h : Reaches directory used e (d :: past)) {p : Path} (hp : used p) (args : List String)
      (unsaved : Buffers) : Reaches directory used (Engine.extract e d p args unsaved).1 (d :: past)
  | disk {e : DumpEngine} {past : List Disk} (h : Reaches directory used e past) (d : Disk) :
      Reaches directory used e (d :: past)

/-- Each session was read from one of the disks that there were. -/
structure Current (directory : Path) (used : Path → Prop) (e : DumpEngine) (past : List Disk) :
    Prop where
  sameDirectory : e.directory = directory
  distinct : e.sessions.Distinct
  read : ∀ p dump, used p → e.sessions.Has p dump →
    ∃ d ∈ past, readDump d ((new directory).dumpPath p) = .ok dump

section Current

variable {directory : Path} {used : Path → Prop} {past : List Disk}

def report : Except DumpError (List Record) → Extraction
  | .ok records => .records records
  | .error cause => .failed cause.message

theorem engine_extract (e : DumpEngine) (d : Disk) (p : Path) (args : List String)
    (unsaved : Buffers) :
    Engine.extract e d p args unsaved = ((e.extract d p).1, report (e.extract d p).2) := by
  obtain ⟨⟨e', answer⟩, hout⟩ : ∃ out, e.extract d p = out := ⟨_, rfl⟩
  cases answer <;> simp only [Engine.extract, hout, report]

theorem Current.dumpPath (h : e.Current directory used past) (p : Path) :
    e.dumpPath p = (new directory).dumpPath p := by
  rw [DumpEngine.dumpPath, h.sameDirectory]
  rfl

theorem current_new (directory : Path) (used : Path → Prop) (past : List Disk) :
    (new directory).Current directory used past where
  sameDirectory := rfl
  distinct := .nil
  read p dump _ h := by
    obtain ⟨k, hk, -⟩ := h
    cases hk

theorem Current.extract (h : e.Current directory used (d :: past)) (hu : ∀ p, used p → p.clean = p)
    (hp : used p) : (e.extract d p).1.Current directory used (d :: past) := by
  obtain ⟨hsame, hdistinct, hsessions, -⟩ := extract_spec h.distinct d p
  refine ⟨hsame.trans h.sameDirectory, hdistinct, fun q dump hq hhas => ?_⟩
  rcases hsessions q dump hhas with ⟨hqp, hread⟩ | hold
  · -- Two spellings in use are one, so the session is for the dump of the path that was asked for.
    obtain rfl := Path.eq_of_same_clean (hu q hq) (hu p hp) hqp
    rw [h.dumpPath] at hread
    exact ⟨d, List.mem_cons_self, hread⟩
  · exact h.read q dump hq hold

theorem Current.disk (h : e.Current directory used past) (d : Disk) :
    e.Current directory used (d :: past) := by
  refine ⟨h.sameDirectory, h.distinct, fun p dump hp hhas => ?_⟩
  obtain ⟨d', hd', hread⟩ := h.read p dump hp hhas
  exact ⟨d', List.mem_cons_of_mem _ hd', hread⟩

theorem Reaches.current (hu : ∀ p, used p → p.clean = p) (h : Reaches directory used e past) :
    e.Current directory used past := by
  induction h with
  | new d => exact current_new directory used [d]
  | extract _ hp args unsaved ih =>
    rw [engine_extract]
    exact ih.extract hu hp
  | disk _ d ih => exact ih.disk d

/-- A session of the time that its dump has now is what the dump is read as. -/
theorem Current.readDump_of_session (h : e.Current directory used (d :: past))
    (hs : Stamped directory used (d :: past)) (hp : used p) (hhas : e.sessions.Has p dump)
    {t : Timestamp} (ht : dump.modified = some t)
    (hfresh : d.modified? ((new directory).dumpPath p) = some t) :
    readDump d ((new directory).dumpPath p) = .ok dump := by
  obtain ⟨d', hd', hread⟩ := h.read p dump hp hhas
  have hthen : d'.modified? ((new directory).dumpPath p) = some t :=
    (modified_of_readDump hread).symm.trans ht
  have hsame := hs d' hd' d List.mem_cons_self p hp t hthen hfresh
  rw [readDump_congr (hfresh.trans hthen.symm) hsame, hread]

theorem Current.extract_eq (h : e.Current directory used (d :: past))
    (hs : Stamped directory used (d :: past)) (hp : used p) :
    (e.extract d p).2 = direct directory d p ∧
      ∀ cause, direct directory d p = .error cause →
        (e.extract d p).1.sessions.contains p = false := by
  obtain ⟨-, -, -, hcases⟩ := extract_spec h.distinct d p
  rw [h.dumpPath] at hcases
  rcases hcases with ⟨dump, t, hanswer, hhas, ht, hfresh⟩ | ⟨hanswer, hnone⟩
  · have hread := h.readDump_of_session hs hp hhas ht hfresh
    have hdirect : direct directory d p = .ok dump.records := by
      rw [direct, hread]
      rfl
    rw [hanswer, hdirect]
    exact ⟨rfl, fun cause hcause => by cases hcause⟩
  · refine ⟨hanswer, fun cause hcause => Bool.eq_false_iff.mpr fun hcontains => ?_⟩
    obtain ⟨dump, hhas⟩ := Lru.contains_iff.mp hcontains
    rw [direct] at hcause
    cases hread : readDump d ((new directory).dumpPath p) with
    | ok dump =>
      rw [hread] at hcause
      cases hcause
    | error cause' => exact hnone cause' hread dump hhas

end Current

/-- Whatever calls and changes of the disk went before, a call gives the records that the dump of its
path holds at that moment, or the error that reading it gives; after an error the path has no
session. -/
theorem extract_transparent {directory : Path} {used : Path → Prop} {e : DumpEngine} {d : Disk}
    {past : List Disk} (hu : ∀ p, used p → p.clean = p) (h : Reaches directory used e (d :: past))
    (hs : Stamped directory used (d :: past)) {p : Path} (hp : used p) :
    (e.extract d p).2 = direct directory d p ∧
    (∀ args unsaved, (Engine.extract e d p args unsaved).2 = report (direct directory d p)) ∧
    ∀ cause, (e.extract d p).2 = .error cause →
      (e.extract d p).1.sessions.contains p = false := by
  obtain ⟨hanswer, hfailed⟩ := (h.current hu).extract_eq hs hp
  refine ⟨hanswer, fun args unsaved => ?_, fun cause hcause => hfailed cause ?_⟩
  · rw [engine_extract, hanswer]
  · rw [← hanswer, hcause]

/-- A dump is decoded and kept, then written anew, and at last removed. Each time the session that is
kept is not used. -/
theorem extract_transparent_rewritten :
    let p : Path := ⟨"/w/a.cc"⟩
    let file := (new ⟨"/d"⟩).dumpPath p
    let d₁ := Disk.put {} file (Bytes.ofText "[]") 10
    let d₂ := d₁.put file
      (Bytes.ofText "[\x7b\"path\":\"/w/a.cc\",\"last_modified\":7\x7d]") 20
    let d₃ := d₂.removeAll file
    ∃ e e', Reaches ⟨"/d"⟩ (· = p) e [d₂, d₁] ∧ Reaches ⟨"/d"⟩ (· = p) e' [d₃, d₂, d₁] ∧
      Stamped ⟨"/d"⟩ (· = p) [d₃, d₂, d₁] ∧ e.sessions.contains p = true ∧
      (Engine.extract e d₂ p [] ∅).2 = .records [{ path := p, modified := 7 }] ∧
      e'.sessions.contains p = true ∧ (Engine.extract e' d₃ p [] ∅).2 =
        .failed "no dump at /d/%2Fw%2Fa%2Ecc.json: No such file or directory (os error 2)" ∧
      (e'.extract d₃ p).1.sessions.contains p = false := by
  intro p file d₁ d₂ d₃
  have hclean : ∀ q, q = p → q.clean = q := by
    rintro _ rfl
    decide +kernel
  have htimes : d₁.modified? file = some 10 ∧ d₂.modified? file = some 20 ∧
      d₃.modified? file = none := by decide +kernel
  have hdirect : report (direct ⟨"/d"⟩ d₂ p) = .records [{ path := p, modified := 7 }] ∧
      report (direct ⟨"/d"⟩ d₃ p) =
        .failed "no dump at /d/%2Fw%2Fa%2Ecc.json: No such file or directory (os error 2)" := by
    decide +kernel
  obtain ⟨e, he⟩ : ∃ e, e = (Engine.extract (new ⟨"/d"⟩) d₁ p [] ∅).1 := ⟨_, rfl⟩
  obtain ⟨e', he'⟩ : ∃ e', e' = (Engine.extract e d₂ p [] ∅).1 := ⟨_, rfl⟩
  have hkept : e.sessions.contains p = true ∧ e'.sessions.contains p = true := by
    rw [he', he]
    decide +kernel
  have hstart : Reaches ⟨"/d"⟩ (· = p) (new ⟨"/d"⟩) [d₁] := .new d₁
  have hread : Reaches ⟨"/d"⟩ (· = p) e [d₂, d₁] := he ▸ (hstart.extract rfl [] ∅).disk d₂
  have hreread : Reaches ⟨"/d"⟩ (· = p) e' [d₃, d₂, d₁] := he' ▸ (hread.extract rfl [] ∅).disk d₃
  clear_value d₁ d₂ d₃
  obtain ⟨h₁, h₂, h₃⟩ := htimes
  have hbefore : Stamped ⟨"/d"⟩ (· = p) [d₂, d₁] := by
    have hnone : Stamped ⟨"/d"⟩ (· = p) [] := fun d hd => absurd hd List.not_mem_nil
    refine (hnone.cons fun d' hd' => absurd hd' List.not_mem_nil).cons ?_
    rintro d' hd' _ rfl t ht ht'
    rw [List.mem_singleton.mp hd', h₁] at ht'
    rw [h₂, ← ht'] at ht
    revert ht
    decide
  have hstamped : Stamped ⟨"/d"⟩ (· = p) [d₃, d₂, d₁] := by
    refine hbefore.cons ?_
    rintro d' - _ rfl t ht
    rw [h₃] at ht
    cases ht
  obtain ⟨-, hanswer, -⟩ := extract_transparent hclean hread hbefore rfl
  obtain ⟨hmissing, hreported, hfailed⟩ := extract_transparent hclean hreread hstamped rfl
  refine ⟨e, e', hread, hreread, hstamped, hkept.1, (hanswer [] ∅).trans hdirect.1, hkept.2,
    (hreported [] ∅).trans hdirect.2, ?_⟩
  cases hdump : (e'.extract d₃ p).2 with
  | error cause => exact hfailed cause hdump
  | ok records =>
    rw [← hmissing, hdump] at hdirect
    cases hdirect.2

end DumpEngine

end SymbolIndex
