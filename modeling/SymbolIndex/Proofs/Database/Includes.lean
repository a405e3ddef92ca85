import Mathlib.Data.Set.Card
import SymbolIndex.Proofs.Database.Locality

/-! What the include graph shows. Its edges are those that were set last for each file
(`hasEdge_after`), or, in a database, those of the snapshots on record (`Reachable.linked`). All that
the graph answers follows from its edges, in whatever order the nodes came and went
(`shows_of_hasEdge`). -/

namespace SymbolIndex

open Std

/-- A list of the paths with a property, ascending, each under one spelling. -/
def Enumerates (paths : List Path) (P : Path → Prop) : Prop :=
  paths.Pairwise (fun p q => compare p q = .lt) ∧ ∀ p, (∃ q ∈ paths, q.same p = true) ↔ P p

theorem OrderedSet.enumerates_toList (s : OrderedSet Path) : Enumerates s.toList (· ∈ s) := by
  refine ⟨List.pairwise_map.mpr s.members.ascending, fun p => ⟨?_, fun hp => ?_⟩⟩
  · rintro ⟨q, hq, hs⟩
    exact (OrderedSet.mem_congr (Path.compare_eq_iff.mpr hs)).mp (OrderedSet.mem_of_mem_toList hq)
  · obtain ⟨q, hq, hs⟩ := OrderedSet.exists_mem_toList hp
    exact ⟨q, hq, by rw [Path.same_comm]; exact Path.compare_eq_iff.mp hs⟩

namespace IncludeGraph

variable {g : IncludeGraph} {included : Path → List Path}

/-- A file and what it includes, whatever their spelling. -/
abbrev Pair := List (Lexical.Component Char) × List (Lexical.Component Char)

def pairs (included : Path → List Path) : Set Pair :=
  { e | ∃ f, ∃ d ∈ included f, e = (f.components, d.components) }

/-- What a graph answers when `included` is what the files include. -/
structure Shows (g : IncludeGraph) (included : Path → List Path) : Prop where
  hasEdge : ∀ f d, g.hasEdge f d = true ↔ ∃ x ∈ included f, x.same d = true
  includesOf : ∀ f, Enumerates (g.includesOf f) fun d => ∃ x ∈ included f, x.same d = true
  edgeCount : (pairs included).encard = g.edgeCount
  dependents : ∀ p, Enumerates (g.dependents p) fun f => f.same p = false ∧
    Relation.TransGen (fun a b => ∃ x ∈ included a, x.same b = true) f p

section Answers

/-- The edges of a graph, in the order in which `edgeCount` counts them. -/
def edges (g : IncludeGraph) : List Pair :=
  g.targets.entries.flatMap fun e => e.2.toList.map fun d => (e.1.components, d.components)

theorem length_edges (g : IncludeGraph) : g.edges.length = g.edgeCount := by
  rw [edges, edgeCount, OrderedMap.values, List.length_flatMap, List.length_flatMap, List.map_map]
  exact congrArg List.sum (List.map_congr_left fun e _ => List.length_map _)

theorem mem_edges {e : Pair} :
    e ∈ g.edges ↔ ∃ f d, g.hasEdge f d = true ∧ e = (f.components, d.components) := by
  rw [edges, List.mem_flatMap]
  constructor
  · rintro ⟨⟨f, targets⟩, hf, he⟩
    obtain ⟨d, hd, rfl⟩ := List.mem_map.mp he
    refine ⟨f, d, ?_, rfl⟩
    rw [hasEdge, OrderedMap.find?_eq_some_of_mem hf]
    exact OrderedSet.mem_of_mem_toList hd
  · rintro ⟨f, d, h, rfl⟩
    rw [hasEdge_eq, includesAt] at h
    cases hf : g.targets.find? f with
    | none =>
      rw [hf] at h
      cases h
    | some targets =>
      rw [hf] at h
      obtain ⟨f', hf', hm⟩ := OrderedMap.exists_mem_of_find? hf
      obtain ⟨d', hd', hdd⟩ := OrderedSet.exists_mem_toList h
      refine ⟨(f', targets), hm, List.mem_map.mpr ⟨d', hd', ?_⟩⟩
      rw [Path.same_iff.mp (Path.compare_eq_iff.mp hf'),
        Path.same_iff.mp (Path.compare_eq_iff.mp hdd)]

theorem nodup_edges (g : IncludeGraph) : g.edges.Nodup := by
  have hcomponents : ∀ {p q : Path}, compare p q = .lt → p.components ≠ q.components := by
    intro p q hlt he
    rw [Path.compare_eq_iff.mpr (Path.same_iff.mpr he)] at hlt
    cases hlt
  refine List.nodup_flatMap.mpr ⟨fun e _ => ?_, g.targets.ascending.imp fun {a b} hlt => ?_⟩
  · refine List.pairwise_map.mpr (e.2.enumerates_toList.1.imp fun {p q} hlt he => ?_)
    exact hcomponents hlt (Prod.mk.inj he).2
  · intro x ha hb
    obtain ⟨_, _, rfl⟩ := List.mem_map.mp ha
    obtain ⟨_, _, he⟩ := List.mem_map.mp hb
    exact hcomponents hlt (Prod.mk.inj he).1.symm

theorem enumerates_dependents (g : IncludeGraph) (p : Path) :
    Enumerates (g.dependents p) fun f => f.same p = false ∧ g.Reaches f p := by
  refine ⟨List.pairwise_map.mpr (OrderedMap.ascending _), fun f => ⟨?_, ?_⟩⟩
  · rintro ⟨q, hq, hs⟩
    obtain ⟨-, hne, hr⟩ := mem_dependents.mp hq
    exact ⟨by rw [← Path.same_congr hs]; exact Bool.eq_false_iff.mpr hne, hr.congr_left hs⟩
  · rintro ⟨hne, hr⟩
    obtain ⟨q, hq, hs⟩ := exists_dependent hr (Bool.eq_false_iff.mp hne)
    exact ⟨q, hq, by rwa [Path.same_comm]⟩

/-- The edges determine every answer. -/
theorem shows_of_hasEdge (h : ∀ f d, g.hasEdge f d = (included f).any (·.same d)) :
    g.Shows included := by
  have hedge : ∀ f d, g.hasEdge f d = true ↔ ∃ x ∈ included f, x.same d = true := fun f d => by
    rw [h, List.any_eq_true]
  have hpairs : pairs included = { e | e ∈ g.edges } := by
    ext e
    rw [Set.mem_ofPred_eq, mem_edges]
    constructor
    · rintro ⟨f, d, hd, rfl⟩
      exact ⟨f, d, (hedge f d).mpr ⟨d, hd, Path.same_self d⟩, rfl⟩
    · rintro ⟨f, d, hfd, rfl⟩
      obtain ⟨x, hx, hs⟩ := (hedge f d).mp hfd
      exact ⟨f, x, hx, by rw [Path.same_iff.mp hs]⟩
  have hsteps : (fun a b => ∃ x ∈ included a, x.same b = true) =
      fun a b => g.hasEdge a b = true :=
    funext fun a => funext fun b => propext (hedge a b).symm
  refine ⟨hedge, fun f => ?_, ?_, fun p => ?_⟩
  · obtain ⟨hasc, hmem⟩ := (g.includesAt f).enumerates_toList
    exact ⟨hasc, fun d => (hmem d).trans (hedge f d)⟩
  · rw [hpairs, ← length_edges, ← List.coe_toFinset, Set.encard_coe_eq_coe_finsetCard,
      List.toFinset_card_of_nodup g.nodup_edges]
  · rw [hsteps]
    exact g.enumerates_dependents p

end Answers

/-- A change to the includes of a file. -/
inductive Change
  | set (file : Path) (includes : List Path)
  | remove (file : Path)

def change (g : IncludeGraph) : Change → IncludeGraph
  | .set file includes => g.setIncludes file includes
  | .remove file => g.remove file

/-- The graph that changes lead to from the empty one. -/
def after (changes : List Change) : IncludeGraph := changes.foldl change empty

/-- What a file includes by a change, when it included `held` before. -/
def Change.track (f : Path) (held : List Path) : Change → List Path
  | .set file includes => if file.same f then includes else held
  | .remove file => if file.same f then [] else held

/-- The includes set last for a file, unless it was removed since. -/
def lastSet (changes : List Change) (f : Path) : List Path := changes.foldl (Change.track f) []

theorem hasEdge_change (g : IncludeGraph) (c : Change) {f d : Path} {held : List Path}
    (h : g.hasEdge f d = held.any (·.same d)) :
    (g.change c).hasEdge f d = (c.track f held).any (·.same d) := by
  cases c with
  | set file includes =>
    rw [change, hasEdge_setIncludes, h, Change.track]
    split <;> rfl
  | remove file =>
    rw [change, hasEdge_remove, h, Change.track]
    cases file.same f <;> rfl

theorem hasEdge_after (changes : List Change) (f d : Path) :
    (after changes).hasEdge f d = (lastSet changes f).any (·.same d) := by
  have run : ∀ (g : IncludeGraph) (held : List Path), g.hasEdge f d = held.any (·.same d) →
      (changes.foldl change g).hasEdge f d =
        (changes.foldl (Change.track f) held).any (·.same d) := by
    induction changes with
    | nil => exact fun _ _ h => h
    | cons c rest ih => exact fun g held h => ih _ _ (hasEdge_change g c h)
  exact run empty [] rfl

end IncludeGraph

namespace Database

/-- What the snapshot on record for a file says that it includes. -/
def recordedIncludes (db : Database) (f : Path) : List Path :=
  ((db.snapshot? f).map fun s => s.dependencies.keys).getD []

theorem Linked.hasEdge {db : Database} (h : db.Linked) (f d : Path) :
    db.includes.hasEdge f d = (db.recordedIncludes f).any (·.same d) := by
  rw [h f d, recordedIncludes]
  cases db.snapshot? f with
  | none => rfl
  | some s =>
    rw [Option.any_some, OrderedMap.contains_eq_any]
    exact congrArg (List.any _) (funext fun k => Path.same_comm d k)

end Database

/-- The graph answers by what was set last for each file, and in a database by what is on record. -/
theorem IncludeGraph.answers_last_set :
    (∀ changes, (after changes).Shows (lastSet changes)) ∧
    ∀ db : Database, db.Reachable → db.includes.Shows db.recordedIncludes :=
  ⟨fun changes => shows_of_hasEdge (hasEdge_after changes),
    fun _ h => shows_of_hasEdge h.linked.hasEdge⟩

namespace Database

/-- Two headers include each other and one of them itself; a file includes that one, and another
file stops including it and goes. -/
def cyclicBatch : Delta :=
  let file (p : Path) (includes : List Path) : FileDelta :=
    ⟨p, some { path := p, modified := 0, dependencies := .ofList (includes.map (·, none)) }, .same {}⟩
  [file ⟨"/w/a.h"⟩ [⟨"/w//b.h"⟩, ⟨"/w/a.h"⟩], file ⟨"/w/b.h"⟩ [⟨"/w/a.h"⟩],
    file ⟨"/w/c.cc"⟩ [⟨"/w/a.h"⟩], file ⟨"/w/d.cc"⟩ [⟨"/w/a.h"⟩, ⟨"/w/x.h"⟩],
    file ⟨"/w/d.cc"⟩ [⟨"/w/x.h"⟩], ⟨⟨"/w/d.cc"⟩, none, .same {}⟩]

theorem answers_last_set_cyclic :
    ∃ out, empty.apply cyclicBatch = .ok out ∧ out.1.Reachable ∧
      out.1.includes.Shows out.1.recordedIncludes ∧
      out.1.includes.dependents ⟨"/w/a.h"⟩ = [⟨"/w//b.h"⟩, ⟨"/w/c.cc"⟩] ∧
      out.1.includes.dependents ⟨"/w/b.h"⟩ = [⟨"/w/a.h"⟩, ⟨"/w/c.cc"⟩] ∧
      out.1.includes.dependents ⟨"/w/x.h"⟩ = [] ∧ out.1.includes.edgeCount = 4 := by
  obtain ⟨out, hout⟩ : ∃ out, empty.apply cyclicBatch = .ok out := ⟨_, rfl⟩
  have hreach : out.1.Reachable := .apply .empty hout
  refine ⟨out, hout, hreach, IncludeGraph.answers_last_set.2 out.1 hreach, ?_⟩
  cases hout
  decide +kernel

end Database

end SymbolIndex
