import SymbolIndex.Proofs.Database.Includes
import SymbolIndex.Proofs.History

/-! Which nodes the include graph holds. Setting the includes of a file adds nodes and drops none
(`hasNode_setIncludes`); removing a file drops the nodes among the file and its includes that are left
without an edge (`hasNode_remove`). So a path that a new list leaves out keeps its node, although no
file includes it and it is no file itself. Those are the only nodes that stand for nothing
(`orphan_iff_stranded`). -/

namespace SymbolIndex

namespace IncludeGraph

variable {g : IncludeGraph} {p q file : Path}

/-- Whether the graph has a node for a path. -/
def hasNode (g : IncludeGraph) (p : Path) : Bool := g.targets.contains p

/-- No edge starts or ends at a path. -/
def Isolated (g : IncludeGraph) (p : Path) : Prop :=
  ∀ q, g.hasEdge p q = false ∧ g.hasEdge q p = false

section Nodes

theorem hasNode_congr (h : p.same q = true) (g : IncludeGraph) : g.hasNode p = g.hasNode q := by
  rw [hasNode, hasNode, OrderedMap.contains, OrderedMap.contains,
    OrderedMap.find?_congr _ (Path.compare_eq_iff.mpr h)]

theorem hasNode_insert (m : OrderedMap Path (OrderedSet Path)) (node : Path)
    (targets : OrderedSet Path) (p : Path) :
    hasNode ⟨m.insert node targets⟩ p = (node.same p || hasNode ⟨m⟩ p) := by
  rw [hasNode, OrderedMap.contains, OrderedMap.find?_insert]
  by_cases hp : node.same p = true
  · rw [if_pos (Path.compare_eq_iff.mpr (by rwa [Path.same_comm])), hp]
    rfl
  · rw [if_neg fun h => hp (by rw [Path.same_comm]; exact Path.compare_eq_iff.mp h),
      Bool.eq_false_iff.mpr hp]
    rfl

theorem hasNode_addNode (g : IncludeGraph) (node p : Path) :
    (g.addNode node).hasNode p = (node.same p || g.hasNode p) := by
  rw [addNode, OrderedMap.insertNew]
  split
  next hnode =>
    by_cases hp : node.same p = true
    · rw [hp, ← hasNode_congr hp]
      exact hnode
    · rw [Bool.eq_false_iff.mpr hp]
      rfl
  next => exact hasNode_insert _ node ∅ p

theorem hasNode_addEdge (g : IncludeGraph) (file target p : Path) :
    (g.addEdge file target).hasNode p = (file.same p || (target.same p || g.hasNode p)) := by
  rw [← hasNode_addNode]
  exact hasNode_insert _ file _ p

theorem hasNode_setIncludes (g : IncludeGraph) (file : Path) (includes : List Path) (p : Path) :
    (g.setIncludes file includes).hasNode p =
      (file.same p || (includes.any (·.same p) || g.hasNode p)) := by
  -- The file is a node before its edges are added, so an edge adds at most the node of its target.
  have hfold : ∀ g : IncludeGraph, (file.same p || g.hasNode p) = g.hasNode p →
      (includes.foldl (fun g target => g.addEdge file target) g).hasNode p =
        (includes.any (·.same p) || g.hasNode p) := by
    induction includes with
    | nil => exact fun _ _ => rfl
    | cons target rest ih =>
      intro g hfile
      have hstep : (g.addEdge file target).hasNode p = (target.same p || g.hasNode p) := by
        rw [hasNode_addEdge, Bool.or_left_comm, hfile]
      rw [List.foldl_cons, ih _ (by rw [hstep, Bool.or_left_comm, hfile]), hstep, List.any_cons,
        Bool.or_left_comm, Bool.or_assoc]
  have hbase : hasNode ⟨(g.addNode file).targets.insert file ∅⟩ p = (file.same p || g.hasNode p) := by
    rw [hasNode_insert]
    refine (congrArg _ (hasNode_addNode g file p)).trans ?_
    rw [← Bool.or_assoc, Bool.or_self]
  rw [setIncludes, hfold _ (by rw [hbase, ← Bool.or_assoc, Bool.or_self]), hbase, Bool.or_left_comm]

theorem hasNode_of_hasEdge (h : g.hasEdge p q = true) : g.hasNode p = true := by
  rw [hasEdge] at h
  rw [hasNode, OrderedMap.contains]
  cases hf : g.targets.find? p with
  | none =>
    rw [hf] at h
    cases h
  | some _ => rfl

theorem exists_key_of_hasNode (h : g.hasNode p = true) :
    ∃ q ∈ g.targets.keys, q.same p = true := by
  obtain ⟨targets, hf⟩ := Option.isSome_iff_exists.mp h
  obtain ⟨q, hq, hm⟩ := OrderedMap.exists_mem_of_find? hf
  exact ⟨q, List.mem_map_of_mem hm, by rw [Path.same_comm]; exact Path.compare_eq_iff.mp hq⟩

theorem isolated_congr {g' : IncludeGraph} (h : ∀ p q, g.hasEdge p q = g'.hasEdge p q) :
    g.Isolated p ↔ g'.Isolated p := by
  simp only [Isolated, h]

theorem isolated_iff :
    ((g.includesOf p).isEmpty && (g.includersOf p).isEmpty) = true ↔ g.Isolated p := by
  rw [Bool.and_eq_true, List.isEmpty_iff, List.isEmpty_iff]
  constructor
  · rintro ⟨hincludes, hincluders⟩ q
    refine ⟨Bool.eq_false_iff.mpr fun hq => ?_, Bool.eq_false_iff.mpr fun hq => ?_⟩
    · obtain ⟨r, hr, -⟩ := OrderedSet.exists_mem_toList (s := g.includesAt p) hq
      rw [← includesOf_eq, hincludes] at hr
      exact absurd hr List.not_mem_nil
    · obtain ⟨r, hr, -⟩ := exists_includer hq
      rw [hincluders] at hr
      exact absurd hr List.not_mem_nil
  · intro h
    refine ⟨List.eq_nil_iff_forall_not_mem.mpr fun q hq => ?_,
      List.eq_nil_iff_forall_not_mem.mpr fun q hq => ?_⟩
    · have hedge : g.hasEdge p q = true := OrderedSet.mem_of_mem_toList hq
      rw [(h q).1] at hedge
      cases hedge
    · have hedge := (mem_includersOf.mp hq).2
      rw [(h q).2] at hedge
      cases hedge

theorem hasEdge_prune (g : IncludeGraph) (node p q : Path) :
    (g.prune node).hasEdge p q = g.hasEdge p q := by
  rw [hasEdge_eq, includesAt_prune, hasEdge_eq]

theorem hasNode_prune (g : IncludeGraph) (node p : Path) :
    (g.prune node).hasNode p = true ↔
      g.hasNode p = true ∧ ¬ (node.same p = true ∧ g.Isolated p) := by
  have hsame : node.same p = true → (g.Isolated node ↔ g.Isolated p) := fun h => by
    simp only [Isolated, hasEdge_congr g h (Path.same_self _), hasEdge_congr g (Path.same_self _) h]
  rw [prune]
  split
  next h =>
    have hiso := isolated_iff.mp h
    rw [hasNode, OrderedMap.contains, OrderedMap.find?_erase]
    by_cases hp : node.same p = true
    · rw [if_pos (Path.compare_eq_iff.mpr hp)]
      exact iff_of_false Bool.false_ne_true fun hnot => hnot.2 ⟨hp, (hsame hp).mp hiso⟩
    · rw [if_neg fun hc => hp (Path.compare_eq_iff.mp hc)]
      exact ⟨fun hnode => ⟨hnode, fun hpruned => hp hpruned.1⟩, And.left⟩
  next h =>
    refine ⟨fun hnode => ⟨hnode, fun hpruned => ?_⟩, And.left⟩
    exact h (isolated_iff.mpr ((hsame hpruned.1).mpr hpruned.2))

/-- Pruning moves no edge, so it makes no difference in which order nodes are pruned. -/
theorem hasNode_foldl_prune (nodes : List Path) (g : IncludeGraph) (p : Path) :
    (nodes.foldl prune g).hasNode p = true ↔
      g.hasNode p = true ∧ ¬ ((∃ node ∈ nodes, node.same p = true) ∧ g.Isolated p) := by
  induction nodes generalizing g with
  | nil => simp
  | cons node rest ih =>
    rw [List.foldl_cons, ih, hasNode_prune, isolated_congr (hasEdge_prune g node), and_assoc,
      ← not_or, ← or_and_right, List.exists_mem_cons_iff]

theorem hasNode_remove (g : IncludeGraph) (file p : Path) :
    (g.remove file).hasNode p = true ↔ g.hasNode p = true ∧
      ¬ ((file.same p = true ∨ g.hasEdge file p = true) ∧ (g.remove file).Isolated p) := by
  by_cases hfile : g.hasNode file = true
  · let cleared : IncludeGraph := ⟨g.targets.insert file ∅⟩
    have hremove : g.remove file = (file :: g.includesOf file).foldl prune cleared := if_pos hfile
    have hiso : (g.remove file).Isolated p ↔ cleared.Isolated p := by
      refine isolated_congr fun a b => ?_
      rw [hasEdge_remove, hasEdge_eq cleared, includesAt_insert]
      cases file.same a <;> rfl
    have hnode : cleared.hasNode p = true ↔ g.hasNode p = true := by
      rw [hasNode_insert, Bool.or_eq_true]
      refine or_iff_right_of_imp fun hp => ?_
      rwa [← hasNode_congr hp]
    have hnamed : (∃ node ∈ file :: g.includesOf file, node.same p = true) ↔
        file.same p = true ∨ g.hasEdge file p = true := by
      rw [List.exists_mem_cons_iff]
      exact or_congr_right ((g.includesAt file).enumerates_toList.2 p)
    rw [hiso, hremove, hasNode_foldl_prune, hnode, hnamed]
  · have hremove : g.remove file = g := if_neg hfile
    rw [hremove]
    refine ⟨fun hnode => ⟨hnode, ?_⟩, And.left⟩
    rintro ⟨hp | hedge, -⟩
    · exact hfile (by rwa [hasNode_congr hp])
    · exact hfile (hasNode_of_hasEdge hedge)

theorem eq_empty_iff : g = empty ↔ ∀ p, g.hasNode p = false := by
  constructor
  · rintro rfl p
    rfl
  · intro h
    have hempty : g.targets.isEmpty = true := OrderedMap.isEmpty_iff.mpr fun p => by
      have hp := h p
      rwa [hasNode, OrderedMap.contains, Option.isSome_eq_false_iff, Option.isNone_iff_eq_none] at hp
    cases g with
    | mk targets =>
      exact congrArg IncludeGraph.mk (OrderedMap.ext_entries (List.isEmpty_iff.mp hempty))

end Nodes

section Histories

variable {changes : List Change} {includes files : List Path}

def Change.sets (p : Path) : Change → Bool
  | .set file _ => file.same p
  | .remove _ => false

def Change.removes (p : Path) : Change → Bool
  | .set _ _ => false
  | .remove file => file.same p

/-- Whether a change speaks of a path, as the file or among its includes. -/
def Change.names (p : Path) : Change → Bool
  | .set file includes => file.same p || includes.any (·.same p)
  | .remove file => file.same p

/-- The includes of a file were set, and it was not removed since. -/
def Entered (changes : List Change) (p : Path) : Prop :=
  Since (fun _ c => c.sets p = true) (fun c => c.removes p = false) changes

/-- A path is among the includes set last for a file. -/
def Includes (changes : List Change) (file p : Path) : Prop :=
  ∃ d ∈ lastSet changes file, d.same p = true

/-- A node for a path that is neither an entered file nor included by one. -/
structure Orphan (changes : List Change) (p : Path) : Prop where
  node : (after changes).hasNode p = true
  not_entered : ¬ Entered changes p
  not_included : ∀ f, Entered changes f → ¬ Includes changes f p

/-- A new list for a file leaves out a path that was in its list and in no other, and that is no
entered file. -/
def Drops (before : List Change) (p : Path) : Change → Prop
  | .set file includes => Includes before file p ∧
      Change.names p (.set file includes) = false ∧ ¬ Entered before p ∧
      ∀ f, file.same f = false → ¬ Includes before f p
  | .remove _ => False

/-- A path was dropped, and no change spoke of it since. -/
def Stranded (changes : List Change) (p : Path) : Prop :=
  Since (fun before c => Drops before p c) (fun c => c.names p = false) changes

section Steps

theorem after_concat (changes : List Change) (c : Change) :
    after (changes ++ [c]) = (after changes).change c := by
  rw [after, List.foldl_append]
  rfl

theorem lastSet_concat (changes : List Change) (c : Change) (f : Path) :
    lastSet (changes ++ [c]) f = c.track f (lastSet changes f) := by
  rw [lastSet, List.foldl_append]
  rfl

theorem entered_set : Entered (changes ++ [.set file includes]) p ↔
    file.same p = true ∨ Entered changes p :=
  since_concat.trans (or_congr_right (and_iff_right rfl))

theorem entered_remove : Entered (changes ++ [.remove file]) p ↔
    file.same p = false ∧ Entered changes p :=
  since_concat.trans (or_iff_right Bool.false_ne_true)

theorem includes_set : Includes (changes ++ [.set file includes]) q p ↔
    if file.same q then includes.any (·.same p) = true else Includes changes q p := by
  rw [Includes, lastSet_concat, Change.track]
  split
  next => rw [List.any_eq_true]
  next => rfl

theorem includes_remove : Includes (changes ++ [.remove file]) q p ↔
    file.same q = false ∧ Includes changes q p := by
  rw [Includes, lastSet_concat, Change.track]
  split
  next h => simp [h]
  next h => exact (and_iff_right (Bool.eq_false_iff.mpr h)).symm

theorem hasEdge_after_iff : (after changes).hasEdge file p = true ↔ Includes changes file p := by
  rw [hasEdge_after, List.any_eq_true]
  rfl

theorem isolated_after : (after changes).Isolated p ↔
    (∀ q, ¬ Includes changes p q) ∧ ∀ q, ¬ Includes changes q p := by
  simp only [Isolated, ← Bool.not_eq_true, hasEdge_after_iff, forall_and]

theorem hasNode_after_set : (after (changes ++ [.set file includes])).hasNode p = true ↔
    Change.names p (.set file includes) = true ∨ (after changes).hasNode p = true := by
  rw [after_concat, change, hasNode_setIncludes, Change.names, ← Bool.or_assoc, Bool.or_eq_true]

theorem hasNode_after_remove : (after (changes ++ [.remove file])).hasNode p = true ↔
    (after changes).hasNode p = true ∧ ¬ ((file.same p = true ∨ Includes changes file p) ∧
      (after (changes ++ [.remove file])).Isolated p) := by
  rw [after_concat, change, hasNode_remove, hasEdge_after_iff]

end Steps

theorem Includes.congr (h : Includes changes q p) (hs : file.same q = true) :
    Includes changes file p := by
  refine hasEdge_after_iff.mp ?_
  rw [hasEdge_congr _ hs (Path.same_self p)]
  exact hasEdge_after_iff.mpr h

theorem Includes.entered (h : Includes changes file p) : Entered changes file := by
  induction changes using List.reverseRecOn with
  | nil =>
    obtain ⟨d, hd, -⟩ := h
    exact absurd hd List.not_mem_nil
  | append_singleton changes c ih =>
    cases c with
    | set other includes =>
      rw [includes_set] at h
      split at h
      next hsame => exact entered_set.mpr (.inl hsame)
      next => exact entered_set.mpr (.inr (ih h))
    | remove other =>
      obtain ⟨hother, h⟩ := includes_remove.mp h
      exact entered_remove.mpr ⟨hother, ih h⟩

theorem Entered.exists_sets (h : Entered changes p) : ∃ c ∈ changes, c.sets p = true := by
  obtain ⟨before, c, later, rfl, hsets, -⟩ := h
  exact ⟨c, by simp, hsets⟩

/-- What a file includes has a node. -/
theorem Includes.hasNode (h : Includes changes file p) : (after changes).hasNode p = true := by
  induction changes using List.reverseRecOn with
  | nil =>
    obtain ⟨d, hd, -⟩ := h
    exact absurd hd List.not_mem_nil
  | append_singleton changes c ih =>
    cases c with
    | set other includes =>
      rw [hasNode_after_set]
      rw [includes_set] at h
      split at h
      next => exact .inl (by rw [Change.names, h, Bool.or_true])
      next => exact .inr (ih h)
    | remove other =>
      refine hasNode_after_remove.mpr ⟨ih (includes_remove.mp h).2, fun hpruned => ?_⟩
      exact (isolated_after.mp hpruned.2).2 file h

theorem orphan_iff : Orphan changes p ↔
    (after changes).hasNode p = true ∧ ¬ Entered changes p ∧ ∀ f, ¬ Includes changes f p := by
  constructor
  · exact fun h => ⟨h.node, h.not_entered, fun f hf => h.not_included f hf.entered hf⟩
  · exact fun ⟨hnode, hfree, hunlisted⟩ => ⟨hnode, hfree, fun f _ => hunlisted f⟩

theorem orphan_of_includersOf (hnode : (after changes).hasNode p = true)
    (hsets : ¬ ∃ c ∈ changes, c.sets p = true) (hincluders : (after changes).includersOf p = []) :
    Orphan changes p := by
  refine ⟨hnode, fun h => hsets h.exists_sets, fun f _ hf => ?_⟩
  obtain ⟨r, hr, -⟩ := exists_includer (hasEdge_after_iff.mpr hf)
  rw [hincluders] at hr
  exact absurd hr List.not_mem_nil

theorem unlisted_set (h : includes.any (·.same p) = false) :
    (∀ f, ¬ Includes (changes ++ [.set file includes]) f p) ↔
      ∀ f, file.same f = false → ¬ Includes changes f p := by
  refine forall_congr' fun f => ?_
  rw [includes_set, h]
  cases file.same f <;> simp

/-- A new list for a file makes an orphan of what it drops, and of nothing else. -/
theorem orphan_set : Orphan (changes ++ [.set file includes]) p ↔
    Drops changes p (.set file includes) ∨
      Change.names p (.set file includes) = false ∧ Orphan changes p := by
  rw [orphan_iff, orphan_iff, hasNode_after_set, entered_set, Drops]
  cases hname : Change.names p (.set file includes) with
  | true =>
    refine iff_of_false ?_ (by simp)
    rintro ⟨-, hfree, hunlisted⟩
    rcases Bool.or_eq_true_iff.mp hname with hsame | hany
    · exact hfree (.inl hsame)
    · exact hunlisted file (includes_set.mpr (by rwa [if_pos (Path.same_self file)]))
  | false =>
    obtain ⟨hne, hany⟩ := Bool.or_eq_false_iff.mp hname
    -- The nodes, the entered files and the lists of the other files are as before for `p`.
    rw [unlisted_set hany, or_iff_right Bool.false_ne_true, hne, or_iff_right Bool.false_ne_true]
    constructor
    · rintro ⟨hnode, hfree, hothers⟩
      by_cases hheld : Includes changes file p
      · exact .inl ⟨hheld, rfl, hfree, hothers⟩
      · refine .inr ⟨rfl, hnode, hfree, fun f hf => ?_⟩
        cases hsame : file.same f with
        | true => exact hheld (hf.congr hsame)
        | false => exact hothers f hsame hf
    · rintro (⟨hheld, -, hfree, hothers⟩ | ⟨-, hnode, hfree, hunlisted⟩)
      · exact ⟨hheld.hasNode, hfree, hothers⟩
      · exact ⟨hnode, hfree, fun f _ => hunlisted f⟩

/-- A removal makes no orphan: what it leaves without an edge goes. -/
theorem orphan_remove : Orphan (changes ++ [.remove file]) p ↔
    file.same p = false ∧ Orphan changes p := by
  rw [orphan_iff, orphan_iff, hasNode_after_remove]
  constructor
  · rintro ⟨⟨hnode, hkept⟩, hfree, hunlisted⟩
    -- An orphan has no edge, so the removal would have pruned it if it had come to it.
    have hisolated : (after (changes ++ [.remove file])).Isolated p :=
      isolated_after.mpr ⟨fun q hq => hfree hq.entered, hunlisted⟩
    obtain ⟨hne, hheld⟩ := not_or.mp fun hnamed => hkept ⟨hnamed, hisolated⟩
    have hne : file.same p = false := Bool.eq_false_iff.mpr hne
    refine ⟨hne, hnode, fun hold => hfree (entered_remove.mpr ⟨hne, hold⟩), fun f hf => ?_⟩
    cases hsame : file.same f with
    | true => exact hheld (hf.congr hsame)
    | false => exact hunlisted f (includes_remove.mpr ⟨hsame, hf⟩)
  · rintro ⟨hne, hnode, hfree, hunlisted⟩
    refine ⟨⟨hnode, ?_⟩, fun hnew => hfree (entered_remove.mp hnew).2,
      fun f hf => hunlisted f (includes_remove.mp hf).2⟩
    rintro ⟨hsame | hheld, -⟩
    · exact Bool.false_ne_true (hne.symm.trans hsame)
    · exact hunlisted file hheld

theorem orphan_iff_stranded : Orphan changes p ↔ Stranded changes p := by
  induction changes using List.reverseRecOn with
  | nil => exact iff_of_false (fun h => Bool.false_ne_true h.node) not_since_nil
  | append_singleton changes c ih =>
    rw [Stranded, since_concat, ← Stranded, ← ih]
    cases c with
    | set file includes => exact orphan_set
    | remove file => exact orphan_remove.trans (or_iff_right id).symm

section Removals

theorem since_removals {P : List Change → Change → Prop} {Q : Change → Prop}
    (hP : ∀ before file, ¬ P before (.remove file)) :
    Since P Q (changes ++ files.map .remove) ↔ (∀ f ∈ files, Q (.remove f)) ∧ Since P Q changes := by
  have hmore : ∀ c ∈ files.map Change.remove, ∀ before, ¬ P before c := by
    intro c hc before
    obtain ⟨f, -, rfl⟩ := List.mem_map.mp hc
    exact hP before f
  rw [since_append hmore, List.forall_mem_map]

theorem entered_removals : Entered (changes ++ files.map .remove) p ↔
    (∀ f ∈ files, f.same p = false) ∧ Entered changes p :=
  since_removals fun _ _ => Bool.false_ne_true

theorem stranded_removals : Stranded (changes ++ files.map .remove) p ↔
    (∀ f ∈ files, f.same p = false) ∧ Stranded changes p :=
  since_removals fun _ _ => id

theorem hasNode_of_removals (h : (after (changes ++ files.map .remove)).hasNode p = true) :
    (after changes).hasNode p = true := by
  induction files using List.reverseRecOn with
  | nil => simpa using h
  | append_singleton files file ih =>
    rw [List.map_append, ← List.append_assoc] at h
    exact ih (hasNode_after_remove.mp h).1

section Covering

variable (hfiles : ∀ f, Entered changes f → (after changes).hasNode f = true →
  ∃ q ∈ files, q.same f = true)

include hfiles

theorem not_entered_of_removals (h : (after (changes ++ files.map .remove)).hasNode p = true) :
    ¬ Entered (changes ++ files.map .remove) p := by
  intro hentered
  obtain ⟨hkept, hentered⟩ := entered_removals.mp hentered
  obtain ⟨q, hq, hsame⟩ := hfiles p hentered (hasNode_of_removals h)
  exact Bool.false_ne_true ((hkept q hq).symm.trans hsame)

theorem not_includes_of_removals : ¬ Includes (changes ++ files.map .remove) file p := fun h =>
  not_entered_of_removals hfiles (hasNode_of_hasEdge (hasEdge_after_iff.mpr h)) h.entered

theorem edgeCount_of_removals : (after (changes ++ files.map .remove)).edgeCount = 0 := by
  rw [← length_edges, List.length_eq_zero_iff, List.eq_nil_iff_forall_not_mem]
  intro e he
  obtain ⟨f, d, hedge, -⟩ := mem_edges.mp he
  exact not_includes_of_removals hfiles (hasEdge_after_iff.mp hedge)

/-- What is left when the entered files are removed are orphans, so they were dropped before. -/
theorem eq_empty_iff_of_removals : after (changes ++ files.map .remove) = empty ↔
    ∀ p, Stranded changes p → ∃ q ∈ files, q.same p = true := by
  rw [eq_empty_iff]
  refine forall_congr' fun p => ?_
  have horphan : (after (changes ++ files.map .remove)).hasNode p = true ↔
      Orphan (changes ++ files.map .remove) p :=
    ⟨fun h => ⟨h, not_entered_of_removals hfiles h, fun _ _ => not_includes_of_removals hfiles⟩,
      Orphan.node⟩
  rw [← Bool.not_eq_true, horphan, orphan_iff_stranded, stranded_removals, not_and']
  simp

end Covering

end Removals

/-- The orphans are the paths that a new list dropped and that no change spoke of since. When every
entered file is removed, the edges go, and the nodes too but for the paths that were dropped before and
are not removed with the files. When every node is removed, nothing is left. -/
theorem no_orphan_unless_stranded (changes : List Change) :
    (∀ p, Orphan changes p ↔ Stranded changes p) ∧
    (∀ files : List Path, (∀ f, Entered changes f → ∃ q ∈ files, q.same f = true) →
      (after (changes ++ files.map .remove)).edgeCount = 0 ∧
      (after (changes ++ files.map .remove) = empty ↔
        ∀ p, Stranded changes p → ∃ q ∈ files, q.same p = true)) ∧
    ∀ files : List Path, (∀ p, (after changes).hasNode p = true → ∃ q ∈ files, q.same p = true) →
      after (changes ++ files.map .remove) = empty := by
  refine ⟨fun p => orphan_iff_stranded, fun files h => ?_, fun files h => ?_⟩
  · exact ⟨edgeCount_of_removals fun f hf _ => h f hf, eq_empty_iff_of_removals fun f hf _ => h f hf⟩
  · exact (eq_empty_iff_of_removals fun f _ hf => h f hf).mpr fun p hp =>
      h p (orphan_iff_stranded.mpr hp).node

/-- A file stops including one of two headers; the other one includes itself and a third. -/
def shortenedList : List Change :=
  [.set ⟨"/w/b.cc"⟩ [⟨"/w/a.h"⟩, ⟨"/w//x.h"⟩], .set ⟨"/w/a.h"⟩ [⟨"/w/y.h"⟩, ⟨"/w/a.h"⟩],
    .set ⟨"/w/b.cc"⟩ [⟨"/w/a.h"⟩]]

theorem no_orphan_unless_stranded_shortened :
    let files : List Path := [⟨"/w/a.h"⟩, ⟨"/w/b.cc"⟩]
    let nodes : List Path := [⟨"/w/a.h"⟩, ⟨"/w/b.cc"⟩, ⟨"/w//x.h"⟩, ⟨"/w/y.h"⟩]
    Orphan shortenedList ⟨"/w/x.h"⟩ ∧ Stranded shortenedList ⟨"/w/x.h"⟩ ∧
      (∀ f, Entered shortenedList f → ∃ q ∈ files, q.same f = true) ∧
      (after (shortenedList ++ files.map .remove)).edgeCount = 0 ∧
      after (shortenedList ++ files.map .remove) ≠ empty ∧
      (∀ p, (after shortenedList).hasNode p = true → ∃ q ∈ nodes, q.same p = true) ∧
      after (shortenedList ++ nodes.map .remove) = empty := by
  intro files nodes
  obtain ⟨hstranded, hfiles, hnodes⟩ := no_orphan_unless_stranded shortenedList
  have horphan : Orphan shortenedList ⟨"/w/x.h"⟩ :=
    orphan_of_includersOf (by decide) (by decide) (by decide)
  have hentered : ∀ f, Entered shortenedList f → ∃ q ∈ files, q.same f = true := by
    intro f hf
    obtain ⟨c, hc, hsets⟩ := hf.exists_sets
    simp only [shortenedList, List.mem_cons, List.not_mem_nil, or_false] at hc
    rcases hc with rfl | rfl | rfl
    · exact ⟨_, by simp [files], hsets⟩
    · exact ⟨_, by simp [files], hsets⟩
    · exact ⟨_, by simp [files], hsets⟩
  have hkeys : (after shortenedList).targets.keys = nodes := by decide
  have hheld : ∀ p, (after shortenedList).hasNode p = true → ∃ q ∈ nodes, q.same p = true :=
    fun p hp => hkeys ▸ exists_key_of_hasNode hp
  obtain ⟨hedges, hempty⟩ := hfiles files hentered
  have hx := (hstranded ⟨"/w/x.h"⟩).mp horphan
  exact ⟨horphan, hx, hentered, hedges, fun h => absurd (hempty.mp h _ hx) (by decide), hheld,
    hnodes nodes hheld⟩

/-- A file stops including its only header. -/
def emptiedList : List Change :=
  [.set ⟨"/w/b.cc"⟩ [⟨"/w//x.h"⟩], .set ⟨"/w/b.cc"⟩ []]

/-- The header keeps its node, also when the file is removed, and so is shown under its old spelling
when another file includes it. -/
theorem emptied_list_keeps_node :
    (¬ ∀ changes p, (after changes).hasNode p = true →
      Entered changes p ∨ ∃ f, Entered changes f ∧ Includes changes f p) ∧
    (¬ ∀ (changes : List Change) (files : List Path),
      (∀ f, Entered changes f → ∃ q ∈ files, q.same f = true) →
        after (changes ++ files.map .remove) = empty) ∧
    (after (emptiedList ++ [.remove ⟨"/w/b.cc"⟩, .set ⟨"/w/c.cc"⟩ [⟨"/w/x.h"⟩]])).includesOf
      ⟨"/w/c.cc"⟩ = [⟨"/w//x.h"⟩] ∧
    (empty.setIncludes ⟨"/w/c.cc"⟩ [⟨"/w/x.h"⟩]).includesOf ⟨"/w/c.cc"⟩ = [⟨"/w/x.h"⟩] := by
  refine ⟨fun h => ?_, fun h => ?_, by decide, by decide⟩
  · have horphan : Orphan emptiedList ⟨"/w/x.h"⟩ :=
      orphan_of_includersOf (by decide) (by decide) (by decide)
    rcases h emptiedList _ horphan.node with hentered | ⟨f, hf, hincludes⟩
    · exact horphan.not_entered hentered
    · exact horphan.not_included f hf hincludes
  · have hentered : ∀ f, Entered emptiedList f → ∃ q ∈ [⟨"/w/b.cc"⟩], Path.same q f = true := by
      intro f hf
      obtain ⟨c, hc, hsets⟩ := hf.exists_sets
      simp only [emptiedList, List.mem_cons, List.not_mem_nil, or_false] at hc
      rcases hc with rfl | rfl
      · exact ⟨_, by simp, hsets⟩
      · exact ⟨_, by simp, hsets⟩
    exact absurd (h emptiedList [⟨"/w/b.cc"⟩] hentered) (by decide)

end Histories

end IncludeGraph

end SymbolIndex
