import SymbolIndex.IncludeGraph

/-! Edges and walks of the include graph. Entering or forgetting the includes of a file changes the
edges that start at it and no other (`hasEdge_setIncludes`, `hasEdge_remove`). A file reaches another
when it includes it, directly or through others. The walk that looks for the dependents of a path
finds every file that reaches it and nothing else; every file enters the queue once, so its fuel is
enough. -/

namespace SymbolIndex

open Std

namespace IncludeGraph

variable {g : IncludeGraph} {p q r : Path}

def Reaches (g : IncludeGraph) : Path → Path → Prop :=
  Relation.TransGen fun a b => g.hasEdge a b = true

theorem hasEdge_congr (g : IncludeGraph) {p p' q q' : Path} (hp : p.same p' = true)
    (hq : q.same q' = true) : g.hasEdge p q = g.hasEdge p' q' := by
  rw [hasEdge, hasEdge, OrderedMap.find?_congr _ (Path.compare_eq_iff.mpr hp)]
  exact Bool.eq_iff_iff.mpr (OrderedSet.mem_congr (Path.compare_eq_iff.mpr hq))

theorem Reaches.congr_right (h : g.Reaches p q) (hq : q.same r = true) : g.Reaches p r := by
  cases h with
  | single h => exact .single (by rwa [← hasEdge_congr g (Path.same_self p) hq])
  | tail h h' => exact .tail h (by rwa [← hasEdge_congr g (Path.same_self _) hq])

theorem Reaches.congr_left (h : g.Reaches p q) (hp : p.same r = true) : g.Reaches r q := by
  induction h with
  | single h => exact .single (by rwa [← hasEdge_congr g hp (Path.same_self _)])
  | tail _ h' ih => exact .tail ih h'

theorem Reaches.head (h : g.hasEdge p q = true) (hq : g.Reaches q r) : g.Reaches p r := by
  induction hq with
  | single h' => exact .tail (.single h) h'
  | tail _ h' ih => exact .tail ih h'

section Edges

/-- The direct includes of a path, as a set. -/
def includesAt (g : IncludeGraph) (p : Path) : OrderedSet Path := (g.targets.find? p).getD ∅

theorem includesOf_eq (g : IncludeGraph) (p : Path) : g.includesOf p = (g.includesAt p).toList := rfl

theorem hasEdge_eq (g : IncludeGraph) (p q : Path) : g.hasEdge p q = (g.includesAt p).contains q :=
  rfl

theorem includesAt_congr (g : IncludeGraph) (h : p.same q = true) :
    g.includesAt p = g.includesAt q := by
  rw [includesAt, includesAt, OrderedMap.find?_congr _ (Path.compare_eq_iff.mpr h)]

theorem includesAt_insert (m : OrderedMap Path (OrderedSet Path)) (file : Path)
    (targets : OrderedSet Path) (p : Path) :
    includesAt ⟨m.insert file targets⟩ p = if file.same p then targets else includesAt ⟨m⟩ p := by
  rw [includesAt, OrderedMap.find?_insert]
  by_cases hp : file.same p = true
  · rw [if_pos hp, if_pos (Path.compare_eq_iff.mpr (by rwa [Path.same_comm])), Option.getD_some]
  · rw [if_neg hp, if_neg fun h => hp (by rw [Path.same_comm]; exact Path.compare_eq_iff.mp h)]
    rfl

theorem includesAt_addNode (g : IncludeGraph) (node p : Path) :
    (g.addNode node).includesAt p = g.includesAt p := by
  rw [addNode, OrderedMap.insertNew]
  split
  next => rfl
  next hnew =>
    have hnone : g.targets.find? node = none := by
      simpa [OrderedMap.contains] using hnew
    rw [includesAt_insert]
    split
    next hp =>
      rw [← includesAt_congr g hp, includesAt, hnone]
      rfl
    next => rfl

theorem includesAt_addEdge (g : IncludeGraph) (file target p : Path) :
    (g.addEdge file target).includesAt p =
      if file.same p then
        (g.includesAt p).insert (((g.addNode target).node? target).getD target)
      else g.includesAt p := by
  rw [← includesAt_addNode g target p]
  refine (includesAt_insert _ file _ p).trans ?_
  split
  next hp =>
    rw [← includesAt_congr _ hp]
    rfl
  next => rfl

theorem includesAt_setIncludes_of_ne (g : IncludeGraph) {file : Path} (includes : List Path)
    (h : file.same p = false) : (g.setIncludes file includes).includesAt p = g.includesAt p := by
  have hfold : ∀ g : IncludeGraph,
      (includes.foldl (fun g target => g.addEdge file target) g).includesAt p = g.includesAt p := by
    induction includes with
    | nil => exact fun _ => rfl
    | cons target rest ih =>
      intro g
      rw [List.foldl_cons, ih, includesAt_addEdge, h]
      rfl
  rw [setIncludes, hfold, includesAt_insert, h]
  exact includesAt_addNode g file p

theorem includesAt_prune (g : IncludeGraph) (node p : Path) :
    (g.prune node).includesAt p = g.includesAt p := by
  rw [prune]
  split
  next hisolated =>
    rw [Bool.and_eq_true, includesOf_eq, OrderedSet.toList, OrderedMap.keys, List.isEmpty_iff,
      List.map_eq_nil_iff] at hisolated
    have hempty : g.includesAt node = ∅ := by
      cases hm : g.includesAt node with
      | mk members =>
        rw [hm] at hisolated
        exact congrArg OrderedSet.mk (OrderedMap.ext_entries hisolated.1)
    rw [includesAt, OrderedMap.find?_erase]
    split
    next hp =>
      rw [← includesAt_congr g (Path.compare_eq_iff.mp hp), hempty]
      rfl
    next => rfl
  next => rfl

theorem includesAt_remove (g : IncludeGraph) (file p : Path) :
    (g.remove file).includesAt p = if file.same p then ∅ else g.includesAt p := by
  have hfold : ∀ (nodes : List Path) (g : IncludeGraph),
      (nodes.foldl prune g).includesAt p = g.includesAt p := by
    intro nodes
    induction nodes with
    | nil => exact fun _ => rfl
    | cons node rest ih => exact fun g => (ih _).trans (includesAt_prune g node p)
  rw [remove]
  split
  next => exact (hfold _ _).trans (includesAt_insert _ file ∅ p)
  next hnew =>
    have hnone : g.targets.find? file = none := by
      simpa [OrderedMap.contains] using hnew
    split
    next hp =>
      rw [← includesAt_congr g hp, includesAt, hnone]
      rfl
    next => rfl

theorem same_of_node? {node : Path} (h : g.node? p = some node) : node.same p = true := by
  obtain ⟨e, he, rfl⟩ := Option.map_eq_some_iff.mp h
  exact List.find?_some (p := fun e : Path × OrderedSet Path => e.1.same p) he

theorem hasEdge_addEdge (g : IncludeGraph) (file target p q : Path) :
    (g.addEdge file target).hasEdge p q =
      (file.same p && target.same q || g.hasEdge p q) := by
  let node := ((g.addNode target).node? target).getD target
  have hnode : node.same target = true := by
    cases hn : (g.addNode target).node? target with
    | none => simp [node, hn]
    | some n => simpa [node, hn] using same_of_node? hn
  have hcontains : ((g.includesAt p).insert node).contains q =
      (target.same q || (g.includesAt p).contains q) := by
    rw [Bool.eq_iff_iff, Bool.or_eq_true]
    refine OrderedSet.mem_insert.trans (or_congr_left ?_)
    rw [Path.compare_eq_iff, Path.same_comm, Path.same_congr hnode]
  rw [hasEdge_eq, includesAt_addEdge, hasEdge_eq]
  cases file.same p with
  | true => exact hcontains
  | false => rfl

theorem hasEdge_setIncludes (g : IncludeGraph) (file : Path) (includes : List Path) (p q : Path) :
    (g.setIncludes file includes).hasEdge p q =
      if file.same p then includes.any (·.same q) else g.hasEdge p q := by
  have hfold : ∀ g : IncludeGraph,
      (includes.foldl (fun g target => g.addEdge file target) g).hasEdge p q =
        (file.same p && includes.any (·.same q) || g.hasEdge p q) := by
    induction includes with
    | nil => intro g; simp
    | cons target rest ih =>
      intro g
      rw [List.foldl_cons, ih, hasEdge_addEdge, List.any_cons]
      cases file.same p <;> cases target.same q <;> simp
  split
  next hp =>
    rw [setIncludes, hfold, hasEdge_eq, includesAt_insert, if_pos hp, hp]
    exact Bool.or_false _
  next hp => rw [hasEdge_eq, includesAt_setIncludes_of_ne g _ (Bool.eq_false_iff.mpr hp), hasEdge_eq]

theorem hasEdge_remove (g : IncludeGraph) (file p q : Path) :
    (g.remove file).hasEdge p q = (!file.same p && g.hasEdge p q) := by
  rw [hasEdge_eq, includesAt_remove]
  cases file.same p <;> rfl

end Edges

theorem mem_includersOf : q ∈ g.includersOf p ↔ q ∈ g.targets.keys ∧ g.hasEdge q p = true := by
  rw [includersOf, OrderedMap.keys, List.mem_map, List.mem_map]
  constructor
  · rintro ⟨e, he, rfl⟩
    obtain ⟨he, hp⟩ := List.mem_filter.mp he
    refine ⟨⟨e, he, rfl⟩, ?_⟩
    rw [hasEdge, OrderedMap.find?_eq_some_of_mem he]
    exact hp
  · rintro ⟨⟨e, he, rfl⟩, hp⟩
    rw [hasEdge, OrderedMap.find?_eq_some_of_mem he] at hp
    exact ⟨e, List.mem_filter.mpr ⟨he, hp⟩, rfl⟩

theorem exists_includer (h : g.hasEdge q p = true) : ∃ r ∈ g.includersOf p, q.same r = true := by
  rw [hasEdge] at h
  cases hf : g.targets.find? q with
  | none =>
    rw [hf] at h
    cases h
  | some targets =>
    obtain ⟨r, hr, hm⟩ := OrderedMap.exists_mem_of_find? hf
    rw [hf] at h
    exact ⟨r, List.mem_map.mpr ⟨(r, targets), List.mem_filter.mpr ⟨hm, h⟩, rfl⟩,
      Path.compare_eq_iff.mp hr⟩

/-- The state of a walk from `p`. -/
structure Walk (g : IncludeGraph) (p : Path) (queue : List Path) (seen : OrderedSet Path) :
    Prop where
  listed : ∀ x ∈ seen.toList, x = p ∨ x ∈ g.targets.keys
  start : p ∈ seen
  queued : ∀ x ∈ queue, x ∈ seen
  closed : ∀ x ∈ seen, (∃ y ∈ queue, x.same y = true) ∨ ∀ q, g.hasEdge q x = true → q ∈ seen
  reached : ∀ x ∈ seen, x.same p = true ∨ g.Reaches x p

/-- The nodes a walk has not come to yet. -/
def unseen (g : IncludeGraph) (seen : OrderedSet Path) : List Path :=
  g.targets.keys.filter fun q => !seen.contains q

theorem walk_start (g : IncludeGraph) (p : Path) : g.Walk p [p] (.ofList [p]) := by
  have hmem : ∀ x, x ∈ OrderedSet.ofList [p] ↔ x.same p = true := by
    intro x
    rw [OrderedSet.ofList, OrderedSet.exists_eq_of_mem_insertAll]
    simp [OrderedSet.not_mem_empty, Path.compare_eq_iff]
  refine ⟨fun x hx => .inl ?_, ?_, ?_, ?_, ?_⟩
  · exact List.mem_singleton.mp hx
  · exact (hmem p).mpr (Path.same_self p)
  · intro x hx
    exact (hmem x).mpr (by rw [List.mem_singleton.mp hx, Path.same_self])
  · intro x hx
    exact .inl ⟨p, by simp, (hmem x).mp hx⟩
  · intro x hx
    exact .inl ((hmem x).mp hx)

section Step

variable {queue : List Path} {seen : OrderedSet Path}

/-- The nodes that the walk comes to when it takes `p` off the queue. -/
def fresh (g : IncludeGraph) (p : Path) (seen : OrderedSet Path) : List Path :=
  (g.includersOf p).filter fun q => !seen.contains q

theorem mem_fresh : q ∈ g.fresh p seen ↔
    (q ∈ g.targets.keys ∧ g.hasEdge q p = true) ∧ q ∉ seen := by
  rw [fresh, List.mem_filter, mem_includersOf, Bool.not_eq_true', ← Bool.not_eq_true]
  rfl

theorem Walk.step (h : g.Walk p (r :: queue) seen) :
    g.Walk p (queue ++ g.fresh r seen) (seen.insertAll (g.fresh r seen)) := by
  have hmem : ∀ x, x ∈ seen.insertAll (g.fresh r seen) ↔
      (∃ y ∈ g.fresh r seen, x.same y = true) ∨ x ∈ seen := by
    intro x
    rw [OrderedSet.exists_eq_of_mem_insertAll]
    simp only [Path.compare_eq_iff]
  refine ⟨fun x hx => ?_, ?_, fun x hx => ?_, fun x hx => ?_, fun x hx => ?_⟩
  · rcases OrderedSet.mem_toList_insertAll hx with hx | hx
    · exact .inr (mem_fresh.mp hx).1.1
    · exact h.listed x hx
  · exact (hmem p).mpr (.inr h.start)
  · rcases List.mem_append.mp hx with hx | hx
    · exact (hmem x).mpr (.inr (h.queued x (List.mem_cons_of_mem _ hx)))
    · exact (hmem x).mpr (.inl ⟨x, hx, Path.same_self x⟩)
  · rcases (hmem x).mp hx with ⟨y, hy, hxy⟩ | hx
    · exact .inl ⟨y, List.mem_append_right _ hy, hxy⟩
    · rcases h.closed x hx with ⟨y, hy, hxy⟩ | hc
      · rcases List.mem_cons.mp hy with rfl | hy
        · -- The includers of what leaves the queue were seen before or are fresh.
          refine .inr fun q hq => ?_
          rw [hasEdge_congr g (Path.same_self q) hxy] at hq
          obtain ⟨q', hq', hqq⟩ := exists_includer hq
          by_cases hs : q' ∈ seen
          · exact (hmem q).mpr (.inr ((OrderedSet.mem_congr (Path.compare_eq_iff.mpr hqq)).mpr hs))
          · exact (hmem q).mpr (.inl ⟨q', mem_fresh.mpr ⟨mem_includersOf.mp hq', hs⟩, hqq⟩)
        · exact .inl ⟨y, List.mem_append_left _ hy, hxy⟩
      · exact .inr fun q hq => (hmem q).mpr (.inr (hc q hq))
  · rcases (hmem x).mp hx with ⟨y, hy, hxy⟩ | hx
    · have hyr : g.hasEdge x r = true := by
        rw [hasEdge_congr g hxy (Path.same_self r)]
        exact (mem_fresh.mp hy).1.2
      rcases h.reached r (h.queued r (by simp)) with hr | hr
      · exact .inr (Reaches.congr_right (.single hyr) hr)
      · exact .inr (Reaches.head hyr hr)
    · exact h.reached x hx

/-- A step takes as many nodes out of the unseen ones as it puts into the queue. -/
theorem length_unseen_insertAll (g : IncludeGraph) (r : Path) (seen : OrderedSet Path) :
    (g.fresh r seen).length + (g.unseen (seen.insertAll (g.fresh r seen))).length ≤
      (g.unseen seen).length := by
  let seen' := seen.insertAll (g.fresh r seen)
  have hmem : ∀ x, x ∈ seen' ↔ (∃ y ∈ g.fresh r seen, compare x y = .eq) ∨ x ∈ seen :=
    fun x => OrderedSet.exists_eq_of_mem_insertAll
  have hrest : g.unseen seen' = (g.unseen seen).filter fun q => !seen'.contains q := by
    rw [unseen, unseen, List.filter_filter]
    refine List.filter_congr fun q _ => ?_
    by_cases hq : q ∈ seen
    · have hq' : q ∈ seen' := (hmem q).mpr (.inr hq)
      rw [show seen'.contains q = true from hq', show seen.contains q = true from hq]
      rfl
    · rw [show seen.contains q = false from Bool.eq_false_iff.mpr hq]
      simp
  have hsub : (g.fresh r seen).Sublist ((g.unseen seen).filter fun q => seen'.contains q) := by
    have hself : (g.fresh r seen).filter (fun q => seen'.contains q) = g.fresh r seen :=
      List.filter_eq_self.mpr fun q hq =>
        (hmem q).mpr (.inl ⟨q, hq, Path.compare_eq_iff.mpr (Path.same_self q)⟩)
    rw [← hself]
    refine (List.Sublist.filter _ ?_).filter _
    exact (List.filter_sublist).map _
  have hlen := List.length_eq_countP_add_countP (fun q => seen'.contains q) (l := g.unseen seen)
  rw [List.countP_eq_length_filter, List.countP_eq_length_filter] at hlen
  have := hsub.length_le
  rw [hrest]
  simp only [Bool.not_eq_true, Bool.decide_eq_false] at hlen
  omega

theorem walk_walkBack (fuel : Nat) (h : g.Walk p queue seen)
    (hf : queue.length + (g.unseen seen).length ≤ fuel) :
    g.Walk p [] (walkBack g fuel queue seen) := by
  induction fuel generalizing queue seen with
  | zero =>
    have : queue = [] := List.eq_nil_of_length_eq_zero (by omega)
    rw [this] at h
    exact h
  | succ fuel ih =>
    cases queue with
    | nil => exact h
    | cons r queue =>
      have hle := length_unseen_insertAll g r seen
      have hf' : (queue ++ g.fresh r seen).length +
          (g.unseen (seen.insertAll (g.fresh r seen))).length ≤ fuel := by
        simp only [List.length_cons, List.length_append] at hf ⊢
        omega
      exact ih h.step hf'

end Step

theorem Walk.mem_of_reaches {seen : OrderedSet Path} (h : g.Walk p [] seen) (hq : g.Reaches q r)
    (hr : r ∈ seen) : q ∈ seen := by
  have hclosed : ∀ x ∈ seen, ∀ y, g.hasEdge y x = true → y ∈ seen := by
    intro x hx
    rcases h.closed x hx with ⟨y, hy, _⟩ | hc
    · cases hy
    · exact hc
  induction hq with
  | single h' => exact hclosed _ hr _ h'
  | tail _ h' ih => exact ih (hclosed _ hr _ h')

theorem mem_dependents :
    q ∈ g.dependents p ↔ q ∈ g.targets.keys ∧ ¬ q.same p = true ∧ g.Reaches q p := by
  have hfuel : [p].length + (g.unseen (.ofList [p])).length ≤ g.targets.size + 1 := by
    have hle : (g.unseen (.ofList [p])).length ≤ g.targets.keys.length := List.length_filter_le _ _
    rw [OrderedMap.keys, List.length_map] at hle
    rw [OrderedMap.size]
    simp only [List.length_singleton]
    omega
  have hwalk := walk_walkBack (g.targets.size + 1) (walk_start g p) hfuel
  rw [dependents]
  generalize walkBack g (g.targets.size + 1) [p] (.ofList [p]) = seen at hwalk
  have herase : q ∈ (seen.erase p).toList ↔ q ∈ seen.toList ∧ ¬ q.same p = true := by
    rw [OrderedSet.toList, OrderedSet.erase, OrderedMap.erase, OrderedMap.filter, OrderedMap.keys,
      List.mem_map, OrderedSet.toList, OrderedMap.keys, List.mem_map]
    simp only [List.mem_filter, bne_iff_ne, ne_eq, Path.compare_eq_iff, Path.same_comm p]
    constructor
    · rintro ⟨e, ⟨he, hn⟩, rfl⟩
      exact ⟨⟨e, he, rfl⟩, hn⟩
    · rintro ⟨⟨e, he, rfl⟩, hn⟩
      exact ⟨e, ⟨he, hn⟩, rfl⟩
  rw [herase]
  constructor
  · rintro ⟨hq, hn⟩
    refine ⟨?_, hn, ?_⟩
    · rcases hwalk.listed q hq with rfl | hk
      · exact absurd (Path.same_self q) hn
      · exact hk
    · rcases hwalk.reached q (OrderedSet.mem_of_mem_toList hq) with hs | hr
      · exact absurd hs hn
      · exact hr
  · rintro ⟨hk, hn, hr⟩
    obtain ⟨x, hx, hqx⟩ := OrderedSet.exists_mem_toList (hwalk.mem_of_reaches hr hwalk.start)
    refine ⟨?_, hn⟩
    rcases hwalk.listed x hx with rfl | hxk
    · exact absurd (Path.compare_eq_iff.mp hqx) hn
    · rwa [OrderedMap.eq_of_mem_keys hk hxk hqx]

theorem Reaches.exists_node (h : g.Reaches p q) : ∃ r ∈ g.targets.keys, p.same r = true := by
  induction h with
  | single h =>
    obtain ⟨r, hr, hs⟩ := exists_includer h
    exact ⟨r, (mem_includersOf.mp hr).1, hs⟩
  | tail _ _ ih => exact ih

/-- What reaches a path is among its dependents, under the spelling of its node. -/
theorem exists_dependent (h : g.Reaches q p) (hne : ¬ q.same p = true) :
    ∃ r ∈ g.dependents p, q.same r = true := by
  obtain ⟨r, hr, hs⟩ := h.exists_node
  refine ⟨r, mem_dependents.mpr ⟨hr, ?_, h.congr_left hs⟩, hs⟩
  rwa [← Path.same_congr hs]

end IncludeGraph

end SymbolIndex
