import Mathlib.Data.List.Find
import Mathlib.Data.List.Nodup
import SymbolIndex.Remap

/-! What remapping makes of the indices of a record. An index only leads to the id of an entry, and that
id is all that a reference is taken for. So it makes no difference if references spell out the signature
instead, or if all indices are changed in step. -/

namespace SymbolIndex

namespace Reference

/-- The index that a reference goes by. -/
def index? : Reference → Option UInt32
  | .entry index => some index
  | _ => none

def renumber (f : UInt32 → UInt32) : Reference → Reference
  | .entry index => .entry (f index)
  | ref => ref

/-- A reference to an entry by the entry's signature. -/
def spellOut (items : List Entry) : Reference → Reference
  | .entry index =>
    match items.find? fun e => e.index = index with
    | some e => .signature e.signature
    | none => .entry index
  | ref => ref

end Reference

/-- An entry with its index and its references rewritten. -/
def Entry.relink (f : UInt32 → UInt32) (g : Reference → Reference) (e : Entry) : Entry :=
  { e with
    index := f e.index
    declaringType := e.declaringType.map g
    valueType := e.valueType.map g
    bases := e.bases.map g
    callees := e.callees.map g }

theorem Entry.relink_id (e : Entry) : e.relink id id = e := by
  simp [relink]

namespace Record

def relink (r : Record) (f : UInt32 → UInt32) (g : Reference → Reference) : Record :=
  { r with entries := r.entries.map (·.relink f g) }

/-- The record with every index changed, of the entries and in the references. -/
def renumber (r : Record) (f : UInt32 → UInt32) : Record := r.relink f (·.renumber f)

/-- The record with every reference to an entry spelled out as the entry's signature. -/
def spellOut (r : Record) : Record := r.relink id (·.spellOut r.entries)

/-- The indices in use, for entries and in references; a reference may use one that no entry has. -/
def indices (r : Record) : List UInt32 :=
  r.entries.flatMap fun e => e.index :: (Remap.references e).filterMap Reference.index?

end Record

namespace Remap

variable {entries entries' : Identified}

theorem references_relink (f : UInt32 → UInt32) (g : Reference → Reference) (e : Entry) :
    references (e.relink f g) = (references e).map g := by
  rw [references, references, Entry.relink]
  simp only [List.map_append, Option.toList_map]

section Reading

variable {f : UInt32 → UInt32} {g : Reference → Reference} {e : Entry}

/-- Entering an entry looks at the targets of its references, and at nothing else of them. -/
theorem enter_relink (hclaimed : ∀ id, claimed? entries' id = claimed? entries id)
    (htarget : ∀ ref ∈ references e, target? entries' (g ref) = target? entries ref)
    (s : Snapshot) (id : SymbolId) :
    enter entries' s id (e.relink f g) = enter entries s id e := by
  have hone : ∀ ref? : Option Reference, (∀ ref ∈ ref?.toList, ref ∈ references e) →
      (ref?.map g).bind (target? entries') = ref?.bind (target? entries) := by
    rintro (_ | ref) h
    · rfl
    · exact htarget ref (h ref (by simp))
  have hmany : ∀ refs : List Reference, (∀ ref ∈ refs, ref ∈ references e) →
      (refs.map g).filterMap (target? entries') = refs.filterMap (target? entries) := by
    intro refs h
    rw [List.filterMap_map]
    exact List.filterMap_congr fun ref hr => htarget ref (h ref hr)
  have howner := hone e.declaringType fun _ h => by simp [references, h]
  have hvalue := hone e.valueType fun _ h => by simp [references, h]
  have hbases := hmany e.bases fun _ h => by simp [references, h]
  have hcallees := hmany e.callees fun _ h => by simp [references, h]
  have hdescribe : describe entries' (e.relink f g) = describe entries e := by
    funext v
    simp only [describe, info, Entry.relink, howner, hvalue, hbases, hcallees]
  have hbackward : backward entries' (e.relink f g) = backward entries e := by
    simp only [backward, Entry.relink, howner, hvalue, hbases, hcallees]
  have haccepts : accepts entries' = accepts entries := by
    funext c t
    rw [accepts, accepts, hclaimed]
  rw [enter, enter, hclaimed, hdescribe, hbackward, haccepts]
  rfl

end Reading

/-- The entries of a rewritten record, under their ids. -/
theorem identified_relink (r : Record) (f : UInt32 → UInt32) (g : Reference → Reference) :
    identified (r.relink f g) = (identified r).map fun e => (e.1, e.2.relink f g) := by
  rw [identified, identified, Record.relink, List.map_map, List.map_map]
  rfl

section Relinked

variable (entries) (f : UInt32 → UInt32) (g : Reference → Reference)

theorem claimed?_relink (id : SymbolId) :
    claimed? (entries.map fun e => (e.1, e.2.relink f g)) id = claimed? entries id := by
  rw [claimed?, claimed?, List.find?_map, Option.map_map]
  rfl

theorem kept_relink :
    kept (entries.map fun e => (e.1, e.2.relink f g)) =
      (kept entries).map fun e => (e.1, e.2.relink f g) := by
  rw [kept, kept, List.filter_map]
  simp only [claimed?_relink]
  rfl

theorem ids_relink : ids (entries.map fun e => (e.1, e.2.relink f g)) = ids entries := by
  rw [ids, ids, List.map_map]
  rfl

/-- Beside the entries themselves, the counters look at how references are resolved. -/
theorem stats_relink (hresolve : ∀ e ∈ entries, ∀ ref ∈ references e.2,
      resolve (entries.map fun e => (e.1, e.2.relink f g)) (g ref) = resolve entries ref)
    (known : SymbolId → Option Category) :
    stats (entries.map fun e => (e.1, e.2.relink f g)) known = stats entries known := by
  have hresolutions : (kept (entries.map fun e => (e.1, e.2.relink f g))).flatMap
        (fun e => (references e.2).map (resolve (entries.map fun e => (e.1, e.2.relink f g)))) =
      (kept entries).flatMap fun e => (references e.2).map (resolve entries) := by
    rw [kept_relink, List.flatMap_map]
    refine List.flatMap_congr fun e he => ?_
    rw [references_relink, List.map_map]
    exact List.map_congr_left fun ref href => hresolve e (List.mem_of_mem_filter he) ref href
  rw [stats, stats, hresolutions, ids_relink, List.length_map, List.countP_map, List.countP_map]
  simp only [claimed?_relink]
  rfl

theorem atIndex?_relink {i : UInt32} (h : ∀ e ∈ entries, f i = f e.2.index → i = e.2.index) :
    atIndex? (entries.map fun e => (e.1, e.2.relink f g)) (f i) = atIndex? entries i := by
  rw [atIndex?, atIndex?, ← List.map_reverse, List.find?_map, Option.map_map]
  refine congrArg (Option.map _) (List.find?_congr fun e he => ?_)
  have hiff : f e.2.index = f i ↔ e.2.index = i :=
    ⟨fun hf => (h e (List.mem_reverse.mp he) hf.symm).symm, congrArg f⟩
  exact decide_eq_decide.mpr hiff

end Relinked

/-- An index that no two entries share leads to the id of its entry, wherever the entry stands. -/
theorem atIndex?_eq_some_iff (h : (entries.map (·.2.index)).Nodup) {i : UInt32} {id : SymbolId} :
    atIndex? entries i = some id ↔ ∃ e ∈ entries, e.2.index = i ∧ e.1 = id := by
  rw [atIndex?, Option.map_eq_some_iff]
  constructor
  · rintro ⟨e, hfind, rfl⟩
    have hi := List.find?_some hfind
    exact ⟨e, List.mem_reverse.mp (List.mem_of_find?_eq_some hfind), of_decide_eq_true hi, rfl⟩
  · rintro ⟨e, he, rfl, rfl⟩
    have hsome : (entries.reverse.find? fun e' => e'.2.index = e.2.index).isSome = true :=
      List.find?_isSome.mpr ⟨e, List.mem_reverse.mpr he, decide_eq_true rfl⟩
    obtain ⟨e', hfind⟩ := Option.isSome_iff_exists.mp hsome
    have hi := List.find?_some hfind
    have he' := List.mem_reverse.mp (List.mem_of_find?_eq_some hfind)
    exact ⟨e', hfind, by rw [List.inj_on_of_nodup_map h he' he (of_decide_eq_true hi)]⟩

theorem map_index_identified (r : Record) :
    (identified r).map (·.2.index) = r.entries.map (·.index) := by
  rw [identified, List.map_map]
  rfl

/-- A reference is resolved as its spelling is. -/
theorem resolve_spellOut {r : Record} (h : (r.entries.map (·.index)).Nodup) (ref : Reference) :
    resolve (identified r.spellOut) (ref.spellOut r.entries) = resolve (identified r) ref := by
  cases ref with
  | signature text => rfl
  | builtin name => rfl
  | entry i =>
    rw [← map_index_identified] at h
    rw [Reference.spellOut]
    split
    next e hfind =>
      have hi := List.find?_some hfind
      have hat : atIndex? (identified r) i = some (.ofSignature e.signature) :=
        (atIndex?_eq_some_iff h).mpr ⟨_,
          List.mem_map_of_mem (List.mem_of_find?_eq_some hfind), of_decide_eq_true hi, rfl⟩
      simp only [resolve, hat]
    next =>
      rw [resolve, resolve, Record.spellOut, identified_relink]
      have hat := atIndex?_relink (identified r) id (·.spellOut r.entries) (i := i) fun _ _ => id
      rw [show atIndex? _ i = _ from hat]

theorem resolve_renumber {r : Record} {f : UInt32 → UInt32} {ref : Reference}
    (h : ∀ e ∈ r.entries, ∀ i, ref.index? = some i → f i = f e.index → i = e.index) :
    resolve (identified (r.renumber f)) (ref.renumber f) = resolve (identified r) ref := by
  cases ref with
  | signature text => rfl
  | builtin name => rfl
  | entry i =>
    rw [Record.renumber, identified_relink]
    have hat := atIndex?_relink (identified r) f (·.renumber f) (i := i) fun e he => by
      obtain ⟨e', he', rfl⟩ := List.mem_map.mp he
      exact h e' he' i rfl
    rw [Reference.renumber, resolve, resolve, hat]

end Remap

/-- A record whose references are resolved as before is remapped as before. -/
theorem Record.remap_relink (r : Record) {f : UInt32 → UInt32} {g : Reference → Reference}
    (hresolve : ∀ e ∈ r.entries, ∀ ref ∈ Remap.references e,
      Remap.resolve (Remap.identified (r.relink f g)) (g ref) =
        Remap.resolve (Remap.identified r) ref)
    (cwd : Option Path) (known : SymbolId → Option Category) :
    (r.relink f g).remap cwd known = r.remap cwd known := by
  rw [Remap.identified_relink] at hresolve
  have hresolved : ∀ e ∈ Remap.identified r, ∀ ref ∈ Remap.references e.2,
      Remap.resolve ((Remap.identified r).map fun e => (e.1, e.2.relink f g)) (g ref) =
        Remap.resolve (Remap.identified r) ref := by
    intro e he
    obtain ⟨e', he', rfl⟩ := List.mem_map.mp he
    exact hresolve e' he'
  rw [Record.remap, Record.remap, Remap.identified_relink, Remap.stats_relink _ f g hresolved,
    List.foldl_map]
  refine congrArg (·, _) (List.foldl_ext _ _ _ fun s e he => ?_)
  refine Remap.enter_relink (Remap.claimed?_relink _ f g) (fun ref href => ?_) s e.1
  rw [Remap.target?, Remap.target?, hresolved e he ref href]

/-- Local indices carry no meaning. If no two entries have the same index, a record says the same with
every reference to an entry spelled out as that entry's signature. And it says the same with all indices
changed, as long as no entry gets the new index of another entry or of a reference to something else. -/
theorem Record.remap_indices (r : Record) (cwd : Option Path) (known : SymbolId → Option Category) :
    ((r.entries.map (·.index)).Nodup → r.spellOut.remap cwd known = r.remap cwd known) ∧
    ∀ f : UInt32 → UInt32, (∀ e ∈ r.entries, ∀ i ∈ r.indices, f i = f e.index → i = e.index) →
      (r.renumber f).remap cwd known = r.remap cwd known := by
  constructor
  · intro h
    exact r.remap_relink (fun _ _ ref _ => Remap.resolve_spellOut h ref) cwd known
  · intro f hf
    refine r.remap_relink (fun e he ref href => Remap.resolve_renumber fun e' he' i hi => ?_)
      cwd known
    refine hf e' he' i (List.mem_flatMap.mpr ⟨e, he, List.mem_cons_of_mem _ ?_⟩)
    exact List.mem_filterMap.mpr ⟨ref, href, hi⟩

/-- A function that calls a later one, itself and something that is not there, and names an entry without a
signature: one reference is dangling, however the others are written. -/
theorem remap_indices_recursive_call :
    let r : Record := {
      path := ⟨"/src/b.cc"⟩
      modified := 10
      entries := [
        { index := 0, category := .func, signature := "g",
          callees := [.entry 1, .entry 0, .entry 42], valueType := some (.entry 2) },
        { index := 1, category := .func, signature := "h" },
        { index := 2, category := .type, signature := "" }] }
    let remapped := r.remap (some ⟨"/"⟩) fun _ => none
    (r.entries.map (·.index)).Nodup ∧
      (r.spellOut.entries.map (·.callees)).head? =
        some [.signature "h", .signature "g", .entry 42] ∧
      r.spellOut.remap (some ⟨"/"⟩) (fun _ => none) = remapped ∧
      (∀ e ∈ r.entries, ∀ i ∈ r.indices, i * 3 = e.index * 3 → i = e.index) ∧
      (r.renumber (· * 3)).remap (some ⟨"/"⟩) (fun _ => none) = remapped ∧
      remapped.2.danglingRefs = 1 := by
  intro r remapped
  have hnodup : (r.entries.map (·.index)).Nodup := by decide
  have hall : (r.entries.all fun e => r.indices.all fun i =>
      decide (i * 3 = e.index * 3 → i = e.index)) = true := by decide +kernel
  have hapart : ∀ e ∈ r.entries, ∀ i ∈ r.indices, i * 3 = e.index * 3 → i = e.index := by
    intro e he i hi
    exact of_decide_eq_true (List.all_eq_true.mp (List.all_eq_true.mp hall e he) i hi)
  obtain ⟨hspelled, hrenumbered⟩ := r.remap_indices (some ⟨"/"⟩) fun _ => none
  exact ⟨hnodup, by decide +kernel, hspelled hnodup, hapart, hrenumbered _ hapart,
    by decide +kernel⟩

end SymbolIndex
