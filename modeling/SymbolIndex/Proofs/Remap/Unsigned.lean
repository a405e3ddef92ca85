import SymbolIndex.Proofs.Remap.Indices
import SymbolIndex.Proofs.Remap.Relations

/-! Entries without a signature. They share the index table with the others and may be what a base, a
callee, an owner or a value type refers to. Still they leave nothing behind but their uses, under the
unknown id, and every other symbol is remapped as if they were not there. -/

namespace SymbolIndex

/-- Only the empty signature has no id of its own: a hash in the reserved range is moved out of it. -/
theorem SymbolId.isUnknown_ofSignature (signature : String) :
    (ofSignature signature).isUnknown = true ↔ signature = "" := by
  rw [ofSignature]
  split
  next h => simp [h, isUnknown]
  next h =>
    refine iff_of_false (fun hu => ?_) h
    have hid := congrArg value (of_decide_eq_true hu)
    dsimp only at hid
    split at hid
    next hlt =>
      have hsum := congrArg UInt64.toNat hid
      have hsmall : (XXH3.hash64 (Bytes.ofText signature)).toNat < 256 := hlt
      rw [UInt64.toNat_add] at hsum
      simp only [firstHashed, unknown, UInt64.reduceToNat] at hsum
      omega
    next hge =>
      dsimp only at hid
      rw [hid] at hge
      exact hge (by decide)

namespace Snapshot

/-- The snapshots say the same of every symbol but the unknown one. -/
def KnownAgree (a b : Snapshot) : Prop :=
  ∀ c id, id.isUnknown = false → a.find? c id = b.find? c id

namespace KnownAgree

variable {a b d : Snapshot}

theorem refl (a : Snapshot) : KnownAgree a a := fun _ _ _ => rfl

theorem trans (h : KnownAgree a b) (h' : KnownAgree b d) : KnownAgree a d := fun c id hid =>
  (h c id hid).trans (h' c id hid)

theorem update (h : KnownAgree a b) (c : Category) (id : SymbolId) (f : SymbolView → SymbolView) :
    KnownAgree (a.update c id f) (b.update c id f) := by
  intro e t ht
  rw [find?_update, find?_update, h e t ht]
  split
  next he =>
    obtain ⟨rfl, rfl⟩ := he
    rw [h e t ht]
  next => rfl

theorem update_unknown (a : Snapshot) (c : Category) (f : SymbolView → SymbolView) :
    KnownAgree (a.update c .unknown f) a := by
  intro e t ht
  rw [find?_update, if_neg]
  rintro ⟨-, rfl⟩
  cases ht

end KnownAgree

end Snapshot

namespace Remap

variable {entries : Identified} {a b : Snapshot}

theorem knownAgree_foldl_backward (h : a.KnownAgree b) (id : SymbolId)
    (l : List (Category × SymbolId × RelationKind)) :
    (l.foldl (fun s b => s.update b.1 b.2.1 (·.relate b.2.2 id)) a).KnownAgree
      (l.foldl (fun s b => s.update b.1 b.2.1 (·.relate b.2.2 id)) b) := by
  induction l generalizing a b with
  | nil => exact h
  | cons t rest ih => exact ih (h.update _ _ _)

theorem knownAgree_enter (h : a.KnownAgree b) (id : SymbolId) (e : Entry) :
    (enter entries a id e).KnownAgree (enter entries b id e) := by
  rw [enter, enter]
  split
  next => exact h.update _ _ _
  next =>
    split
    next => exact h
    next => exact knownAgree_foldl_backward (h.update _ _ _) id _

theorem knownAgree_enter_unsigned {id : SymbolId} (hid : id.isUnknown = true) (e : Entry) :
    (enter entries a id e).KnownAgree a := by
  rw [enter, if_pos hid]
  exact Snapshot.KnownAgree.update_unknown a _ _

/-- The entries with a signature, under their ids. -/
def signed (entries : Identified) : Identified := entries.filter fun e => !e.1.isUnknown

theorem knownAgree_foldl_enter (items : Identified) (h : a.KnownAgree b) :
    (items.foldl (fun s e => enter entries s e.1 e.2) a).KnownAgree
      ((signed items).foldl (fun s e => enter entries s e.1 e.2) b) := by
  induction items generalizing a b with
  | nil => exact h
  | cons e rest ih =>
    rw [List.foldl_cons, signed, List.filter_cons]
    cases hu : e.1.isUnknown with
    | true => exact ih ((knownAgree_enter_unsigned hu e.2).trans h)
    | false => exact ih (knownAgree_enter h e.1 e.2)

theorem claimed?_signed (id : SymbolId) : claimed? (signed entries) id = claimed? entries id := by
  rw [claimed?, claimed?]
  split
  next => rfl
  next hu =>
    rw [signed, List.find?_filter]
    refine congrArg (Option.map _) (congrArg (List.find? · entries) (funext fun e => ?_))
    refine decide_eq_decide.mpr ⟨fun h => of_decide_eq_true h.2, fun h => ?_⟩
    subst h
    simp [hu]

theorem target?_entry (h : (entries.map (·.2.index)).Nodup) {i : UInt32} {t : SymbolId} :
    target? entries (.entry i) = some t ↔
      t.isUnknown = false ∧ ∃ e ∈ entries, e.2.index = i ∧ e.1 = t := by
  rw [← atIndex?_eq_some_iff h, target?, resolve]
  cases atIndex? entries i with
  | none => simp [Resolution.target?]
  | some id =>
    rw [Option.some.injEq]
    exact target?_ofId

/-- A reference to an entry without a signature leads nowhere, whether the entry is there or not. -/
theorem target?_signed (h : (entries.map (·.2.index)).Nodup) (ref : Reference) :
    target? (signed entries) ref = target? entries ref := by
  cases ref with
  | signature text => rfl
  | builtin name => rfl
  | entry i =>
    have hsigned : ((signed entries).map (·.2.index)).Nodup :=
      h.sublist (List.filter_sublist.map _)
    ext t
    rw [target?_entry h, target?_entry hsigned]
    refine and_congr_right fun ht => exists_congr fun e => ?_
    rw [signed, List.mem_filter, and_assoc]
    refine and_congr_right fun _ => ⟨fun hs => hs.2, fun hs => ⟨?_, hs⟩⟩
    rw [hs.2, ht]
    rfl

theorem foldl_enter_signed (h : (entries.map (·.2.index)).Nodup) (items : Identified)
    (s : Snapshot) :
    items.foldl (fun s e => enter (signed entries) s e.1 e.2) s =
      items.foldl (fun s e => enter entries s e.1 e.2) s := by
  refine List.foldl_ext _ _ _ fun s e _ => ?_
  have hlinked := enter_relink (f := id) (g := id) (e := e.2) claimed?_signed
    (fun ref _ => target?_signed h ref) s e.1
  rwa [Entry.relink_id] at hlinked

theorem known_of_mem_backward {e : Entry} {b : Category × SymbolId × RelationKind}
    (h : b ∈ backward entries e) : b.2.1.isUnknown = false := by
  obtain ⟨c, t, kind⟩ := b
  have hone : ∀ {ref? : Option Reference}, ref?.bind (target? entries) = some t →
      t.isUnknown = false := by
    intro ref? ht
    obtain ⟨ref, -, href⟩ := Option.bind_eq_some_iff.mp ht
    exact known_of_target? href
  rcases mem_backward.mp h with ⟨-, -, ht⟩ | ⟨-, -, ht⟩ | ⟨-, -, ht⟩ | ⟨-, -, -, ht⟩
  · exact known_of_mem_filterMap ht
  · exact known_of_mem_filterMap ht
  · exact hone ht
  · exact hone ht

theorem find?_unknown_update {id : SymbolId} (hid : id.isUnknown = false) (s : Snapshot)
    (c d : Category) (f : SymbolView → SymbolView) :
    (s.update c id f).find? d .unknown = s.find? d .unknown := by
  rw [Snapshot.find?_update, if_neg]
  rintro ⟨-, rfl⟩
  cases hid

theorem find?_unknown_foldl_backward (id : SymbolId)
    {l : List (Category × SymbolId × RelationKind)} (hl : ∀ b ∈ l, b.2.1.isUnknown = false)
    (s : Snapshot) (c : Category) :
    (l.foldl (fun s b => s.update b.1 b.2.1 (·.relate b.2.2 id)) s).find? c .unknown =
      s.find? c .unknown := by
  induction l generalizing s with
  | nil => rfl
  | cons b rest ih =>
    rw [List.foldl_cons, ih fun b' hb' => hl b' (List.mem_cons_of_mem _ hb'),
      find?_unknown_update (hl b (by simp))]

/-- Add an entry's uses to what is held. -/
def gather (held : Option SymbolView) (e : Entry) : Option SymbolView :=
  let v := held.getD .empty
  some { v with uses := v.uses.insertAll e.uses }

/-- Only an entry without a signature reaches the unknown id, with its uses. -/
theorem find?_unknown_enter (s : Snapshot) (id : SymbolId) (e : Entry) (c : Category) :
    (enter entries s id e).find? c .unknown =
      if id.isUnknown = true ∧ e.category = c then gather (s.find? c .unknown) e
      else s.find? c .unknown := by
  rcases enter_cases entries s id e with ⟨hu, h⟩ | ⟨hu, -, h⟩ | ⟨hu, -, h⟩ <;> rw [h]
  · rw [Snapshot.find?_update]
    simp only [hu, true_and, and_true, eq_comm (a := c)]
    split
    next h =>
      subst h
      rfl
    next => rfl
  · simp [hu]
  · rw [find?_unknown_foldl_backward id fun b hb => known_of_mem_backward (List.mem_of_mem_filter hb),
      find?_unknown_update hu]
    simp [hu]

theorem find?_unknown_foldl_enter (items : Identified) (s : Snapshot) (c : Category) :
    (items.foldl (fun s e => enter entries s e.1 e.2) s).find? c .unknown =
      ((items.filter fun e => e.1.isUnknown = true ∧ e.2.category = c).map (·.2)).foldl gather
        (s.find? c .unknown) := by
  induction items generalizing s with
  | nil => rfl
  | cons e rest ih =>
    rw [List.foldl_cons, ih, find?_unknown_enter, List.filter_cons]
    simp only [decide_eq_true_eq]
    split
    next => rfl
    next => rfl

theorem foldl_gather (items : List Entry) :
    items.foldl gather none =
      if items = [] then none else some { uses := .ofList (items.flatMap (·.uses)) } := by
  have hheld : ∀ (items : List Entry) (v : SymbolView), items.foldl gather (some v) =
      some { v with uses := v.uses.insertAll (items.flatMap (·.uses)) } := by
    intro items
    induction items with
    | nil => exact fun _ => rfl
    | cons e rest ih =>
      intro v
      rw [List.foldl_cons, gather, ih, List.flatMap_cons]
      simp only [OrderedSet.insertAll, List.foldl_append, Option.getD_some]
  cases items with
  | nil => rfl
  | cons e rest =>
    rw [List.foldl_cons, gather, hheld, if_neg (List.cons_ne_nil _ _), List.flatMap_cons]
    simp only [OrderedSet.ofList, OrderedSet.insertAll, List.foldl_append]
    rfl

end Remap

namespace Record

/-- The record without the entries that have no signature. -/
def signed (r : Record) : Record := { r with entries := r.entries.filter fun e => e.signature ≠ "" }

/-- The entries of a category that have no signature. -/
def unsigned (r : Record) (c : Category) : List Entry :=
  r.entries.filter fun e => e.signature = "" ∧ e.category = c

end Record

namespace Remap

theorem identified_signed (r : Record) : identified r.signed = signed (identified r) := by
  rw [identified, identified, Record.signed, signed, List.filter_map]
  refine congrArg (List.map _) (List.filter_congr fun e _ => ?_)
  rw [Function.comp_apply, ← Bool.not_inj_iff, Bool.not_not, Bool.eq_iff_iff,
    SymbolId.isUnknown_ofSignature]
  simp

theorem map_unsigned (r : Record) (c : Category) :
    ((identified r).filter fun e => e.1.isUnknown = true ∧ e.2.category = c).map (·.2) =
      r.unsigned c := by
  rw [identified, Record.unsigned, List.filter_map, List.map_map]
  simp only [Function.comp_def, SymbolId.isUnknown_ofSignature, List.map_id']

end Remap

/-- Entries without a signature do not disturb the rest. With distinct indices, taking them out of a record,
so that references to them are dangling, changes nothing that its snapshot says of any known symbol or of the
file; and what the full snapshot holds under the unknown id of a category are the uses of the category's
entries without a signature, and nothing if there are none. -/
theorem Record.remap_signed (r : Record) (h : (r.entries.map (·.index)).Nodup) (cwd : Option Path)
    (known : SymbolId → Option Category) :
    let full := (r.remap cwd known).1
    let rest := (r.signed.remap cwd known).1
    (rest.path = full.path ∧ rest.modified = full.modified ∧ rest.args = full.args ∧
      rest.dependencies = full.dependencies) ∧
    (∀ c id, id ≠ .unknown → rest.find? c id = full.find? c id) ∧
    ∀ c, full.find? c .unknown = if r.unsigned c = [] then none else
      some {
        info := none
        declarations := ∅
        uses := .ofList ((r.unsigned c).flatMap (·.uses))
        relations := ∅ } := by
  refine ⟨?_, fun c id hid => ?_, fun c => ?_⟩
  · obtain ⟨_, hfull⟩ := r.relabeled_remap cwd known
    obtain ⟨_, hrest⟩ := r.signed.relabeled_remap cwd known
    rw [hfull, hrest]
    exact ⟨rfl, rfl, rfl, rfl⟩
  · rw [← Remap.map_index_identified] at h
    rw [Record.remap, Record.remap, Remap.identified_signed, Remap.foldl_enter_signed h]
    exact (Remap.knownAgree_foldl_enter _ (.refl _) c id (decide_eq_false hid)).symm
  · rw [Record.remap, Remap.find?_unknown_foldl_enter, Snapshot.find?_of_no_symbols rfl,
      Remap.map_unsigned, Remap.foldl_gather]

/-- A class without a signature between a derived class and a variable of it: its use stays, under the unknown
id of the types, and the two others are held as if it were not there. -/
theorem remap_signed_nameless_base :
    let use : Use := ⟨.onLine 3 1 2, ⟨4⟩⟩
    let r : Record := {
      path := ⟨"/src/b.cc"⟩
      modified := 10
      entries := [
        { index := 0, category := .type, signature := "D", bases := [.entry 1] },
        { index := 1, category := .type, signature := "", uses := [use],
          declarations := [.onLine 1 1 9], bases := [.entry 0] },
        { index := 2, category := .var, signature := "v", valueType := some (.entry 1) }] }
    let full := (r.remap (some ⟨"/"⟩) fun _ => none).1
    let rest := (r.signed.remap (some ⟨"/"⟩) fun _ => none).1
    (r.entries.map (·.index)).Nodup ∧
      (∀ c id, id ≠ .unknown → rest.find? c id = full.find? c id) ∧
      full.find? .type .unknown = some { uses := .ofList [use] } ∧
      full.find? .func .unknown = none ∧ rest.find? .type .unknown = none := by
  intro use r full rest
  have hnodup : (r.entries.map (·.index)).Nodup := by decide
  obtain ⟨-, hknown, hunknown⟩ := r.remap_signed hnodup (some ⟨"/"⟩) fun _ => none
  obtain ⟨-, -, hrest⟩ := r.signed.remap_signed (by decide) (some ⟨"/"⟩) fun _ => none
  exact ⟨hnodup, hknown, hunknown .type, hunknown .func, hrest .type⟩

end SymbolIndex
