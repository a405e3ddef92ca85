import SymbolIndex.Proofs.Database.Reachable

/-! A batch that is applied a second time. Every edit leaves a fact about a contribution as it is or
decides it whatever it was before, and so does a whole batch, however often it comes back to the
same file, symbol or element (`foldl_keeps_or`). The second run thus finds all contents as the first
run left them. -/

namespace SymbolIndex

open Std

section Fold

variable {α β γ : Type} (step : β → α → β) (view : β → γ)

/-- When every step keeps a view of the state or brings any two states into a relation, a fold does
one of the two. -/
theorem foldl_keeps_or {R : γ → γ → Prop}
    (h : ∀ a, (∀ b, view (step b a) = view b) ∨ ∀ b b', R (view (step b a)) (view (step b' a)))
    (l : List α) :
    (∀ b, view (l.foldl step b) = view b) ∨
      ∀ b b', R (view (l.foldl step b)) (view (l.foldl step b')) := by
  induction l with
  | nil => exact .inl fun _ => rfl
  | cons a rest ih =>
    rcases ih with hkeep | hdecide
    · rcases h a with ha | ha
      · exact .inl fun b => (hkeep _).trans (ha b)
      · exact .inr fun b b' => by
          rw [List.foldl_cons, List.foldl_cons, hkeep, hkeep]
          exact ha b b'
    · exact .inr fun b b' => hdecide _ _

theorem foldl_settles
    (h : ∀ a, (∀ b, view (step b a) = view b) ∨ ∀ b b', view (step b a) = view (step b' a))
    (l : List α) (b : β) : view (l.foldl step (l.foldl step b)) = view (l.foldl step b) := by
  rcases foldl_keeps_or (R := Eq) step view h l with hkeep | hdecide
  · exact hkeep _
  · exact hdecide _ _

end Fold

theorem foldl_overwrite {α β : Type} (concerns : α → Prop) [DecidablePred concerns] (value : α → β)
    (l : List α) (b : β) :
    l.foldl (fun held a => if concerns a then value a else held)
        (l.foldl (fun held a => if concerns a then value a else held) b) =
      l.foldl (fun held a => if concerns a then value a else held) b := by
  refine foldl_settles _ id (fun a => ?_) l b
  by_cases ha : concerns a
  · exact .inr fun _ _ => by rw [if_pos ha, if_pos ha]
  · exact .inl fun _ => by rw [if_neg ha]

theorem ListDelta.keeps_or {α : Type} [Ord α] [TransOrd α] [LawfulEqOrd α] (d : ListDelta α)
    (a : α) : (∀ s, (a ∈ d.applyTo s) = (a ∈ s)) ∨
      ∀ s s', (a ∈ d.applyTo s) = (a ∈ d.applyTo s') := by
  by_cases ha : a ∈ d.added
  · exact .inr fun s s' => by simp [mem_applyTo, ha]
  · by_cases hr : a ∈ d.removed
    · exact .inr fun s s' => by simp [mem_applyTo, ha, hr]
    · exact .inl fun s => by simp [mem_applyTo, ha, hr]

namespace SymbolView

theorem eq_of_parts {v w : SymbolView} (hinfo : v.info = w.info)
    (hdeclarations : v.declarations = w.declarations) (huses : v.uses = w.uses)
    (hrelations : v.relations = w.relations) : v = w := by
  cases v
  cases w
  cases hinfo
  cases hdeclarations
  cases huses
  cases hrelations
  rfl

/-- Whether a relation is listed only with targets. -/
def Bare (held : Option (OrderedSet SymbolId)) : Prop :=
  ∀ targets, held = some targets → targets.isEmpty = false

theorem find?_eq_of_related {v w : SymbolView} {k : RelationKind} (h : v.related k = w.related k)
    (hv : Bare (v.relations.find? k)) (hw : Bare (w.relations.find? k)) :
    v.relations.find? k = w.relations.find? k := by
  rw [related, related] at h
  cases hx : v.relations.find? k with
  | none =>
    cases hy : w.relations.find? k with
    | none => rfl
    | some t =>
      rw [hx, hy, Option.getD_some] at h
      have := hw t hy
      rw [← h] at this
      cases this
  | some s =>
    cases hy : w.relations.find? k with
    | none =>
      rw [hx, hy, Option.getD_some] at h
      have := hv s hx
      rw [h] at this
      cases this
    | some t => rw [hx, hy] at h; exact congrArg some h

end SymbolView

namespace ViewUpdate

theorem related_applyTo (u : ViewUpdate) (v : SymbolView) (k : RelationKind) :
    (u.applyTo v).related k =
      match u.relations.find? k with
      | none => v.related k
      | some d => d.applyTo (v.related k) := by
  rw [SymbolView.related, find?_applyTo]
  cases u.relations.find? k with
  | none => rfl
  | some d =>
    dsimp only [retarget]
    split
    next he => exact (OrderedSet.eq_empty_of_isEmpty he).symm
    next => rfl

theorem bare_retarget (d : ListDelta SymbolId) (held : Option (OrderedSet SymbolId)) :
    SymbolView.Bare (retarget d held) := by
  intro targets h
  dsimp only [retarget] at h
  split at h
  next => cases h
  next he => rw [← Option.some.inj h]; exact Bool.eq_false_iff.mpr he

end ViewUpdate

namespace Edit

variable {c : Category} {id : SymbolId} {file : FileId}

/-- What a file says about a symbol after an edit, given what it said before. -/
def act (c : Category) (id : SymbolId) (file : FileId) (held : Option SymbolView) :
    Edit → Option SymbolView
  | takeBack f c' id' => if c = c' ∧ id = id' ∧ file = f then none else held
  | enter f c' u =>
    if c = c' ∧ id = u.id ∧ file = f then some (u.applyTo (held.getD .empty)) else held

theorem isSome_act_keeps_or (e : Edit) :
    (∀ v, (act c id file v e).isSome = v.isSome) ∨
      ∀ v w, (act c id file v e).isSome = (act c id file w e).isSome := by
  cases e with
  | takeBack f c' id' =>
    by_cases hk : c = c' ∧ id = id' ∧ file = f
    · exact .inr fun v w => by rw [act, act, if_pos hk, if_pos hk]
    · exact .inl fun v => by rw [act, if_neg hk]
  | enter f c' u =>
    by_cases hk : c = c' ∧ id = u.id ∧ file = f
    · exact .inr fun v w => by rw [act, act, if_pos hk, if_pos hk]; rfl
    · exact .inl fun v => by rw [act, if_neg hk]

/-- An edit does to a fact about the view of a file what an update does, or takes it back to what it
is of the empty view. -/
theorem fact_act_keeps_or {γ : Type} (fact : SymbolView → γ) {R : γ → γ → Prop}
    (hempty : R (fact .empty) (fact .empty))
    (h : ∀ u : ViewUpdate, (∀ v, fact (u.applyTo v) = fact v) ∨
      ∀ v w, R (fact (u.applyTo v)) (fact (u.applyTo w))) (e : Edit) :
    (∀ v, fact ((act c id file v e).getD .empty) = fact (v.getD .empty)) ∨
      ∀ v w, R (fact ((act c id file v e).getD .empty)) (fact ((act c id file w e).getD .empty)) := by
  cases e with
  | takeBack f c' id' =>
    by_cases hk : c = c' ∧ id = id' ∧ file = f
    · exact .inr fun v w => by rw [act, act, if_pos hk, if_pos hk]; exact hempty
    · exact .inl fun v => by rw [act, if_neg hk]
  | enter f c' u =>
    by_cases hk : c = c' ∧ id = u.id ∧ file = f
    · rcases h u with hu | hu
      · exact .inl fun v => by rw [act, if_pos hk]; exact hu _
      · exact .inr fun v w => by rw [act, act, if_pos hk, if_pos hk]; exact hu _ _
    · exact .inl fun v => by rw [act, if_neg hk]

section Twice

variable (edits : List Edit) (held : Option SymbolView)

theorem foldl_act_fact {γ : Type} (fact : SymbolView → γ)
    (h : ∀ u : ViewUpdate, (∀ v, fact (u.applyTo v) = fact v) ∨
      ∀ v w, fact (u.applyTo v) = fact (u.applyTo w)) :
    fact ((edits.foldl (act c id file) (edits.foldl (act c id file) held)).getD .empty) =
      fact ((edits.foldl (act c id file) held).getD .empty) :=
  foldl_settles _ (fun v => fact (v.getD .empty)) (fact_act_keeps_or fact rfl h) edits held

theorem foldl_act_related (k : RelationKind) :
    ((edits.foldl (act c id file) (edits.foldl (act c id file) held)).getD .empty).related k =
      ((edits.foldl (act c id file) held).getD .empty).related k := by
  refine OrderedSet.ext_mem fun t => iff_of_eq ?_
  refine foldl_act_fact edits held (fun v => t ∈ v.related k) fun u => ?_
  simp only [ViewUpdate.related_applyTo]
  cases u.relations.find? k with
  | none => exact .inl fun _ => rfl
  | some d => exact (d.keeps_or t).imp (fun h v => h _) fun h v w => h _ _

/-- The first edit that comes to a relation sees to it that it is listed only with targets, so the
targets decide whether it is listed. -/
theorem foldl_act_relations (k : RelationKind) :
    ((edits.foldl (act c id file) (edits.foldl (act c id file) held)).getD
        .empty).relations.find? k =
      ((edits.foldl (act c id file) held).getD .empty).relations.find? k := by
  let R (x y : Option (OrderedSet SymbolId)) : Prop := SymbolView.Bare x ∧ SymbolView.Bare y
  have hempty : R none none := ⟨fun _ h => (nomatch h), fun _ h => (nomatch h)⟩
  have hupdate : ∀ u : ViewUpdate,
      (∀ v : SymbolView, (u.applyTo v).relations.find? k = v.relations.find? k) ∨
        ∀ v w : SymbolView, R ((u.applyTo v).relations.find? k)
          ((u.applyTo w).relations.find? k) := by
    intro u
    simp only [ViewUpdate.find?_applyTo]
    cases u.relations.find? k with
    | none => exact .inl fun _ => rfl
    | some d =>
      exact .inr fun _ _ => ⟨ViewUpdate.bare_retarget d _, ViewUpdate.bare_retarget d _⟩
  rcases foldl_keeps_or (act c id file) (fun v => (v.getD SymbolView.empty).relations.find? k)
    (fact_act_keeps_or (fun v => v.relations.find? k) hempty hupdate) edits with hkeep | hbare
  · exact hkeep _
  · obtain ⟨hv, hw⟩ := hbare (edits.foldl (act c id file) held) held
    exact SymbolView.find?_eq_of_related (foldl_act_related edits held k) hv hw

theorem foldl_act_act :
    edits.foldl (act c id file) (edits.foldl (act c id file) held) =
      edits.foldl (act c id file) held := by
  have hsome := foldl_settles (act c id file) Option.isSome isSome_act_keeps_or edits held
  have hview : (edits.foldl (act c id file) (edits.foldl (act c id file) held)).getD .empty =
      (edits.foldl (act c id file) held).getD .empty := by
    refine SymbolView.eq_of_parts ?_ ?_ ?_ ?_
    · exact foldl_act_fact edits held (·.info) fun u => .inr fun _ _ => rfl
    · refine OrderedSet.ext_mem fun s => iff_of_eq ?_
      exact foldl_act_fact edits held (s ∈ ·.declarations) fun u =>
        (u.declarations.keeps_or s).imp (fun h v => h _) fun h v w => h _ _
    · refine OrderedSet.ext_mem fun s => iff_of_eq ?_
      exact foldl_act_fact edits held (s ∈ ·.uses) fun u =>
        (u.uses.keeps_or s).imp (fun h v => h _) fun h v w => h _ _
    · exact OrderedMap.ext_find? (foldl_act_relations edits held)
  generalize edits.foldl (act c id file) (edits.foldl (act c id file) held) = twice at hsome hview
  generalize edits.foldl (act c id file) held = once at hsome hview
  cases twice with
  | none => cases once with
    | none => rfl
    | some w => cases hsome
  | some v => cases once with
    | none => cases hsome
    | some w => exact congrArg some hview

end Twice

end Edit

namespace Database

theorem contribution?_edit (state : Database × ApplyStats) (e : Edit) (c : Category) (id : SymbolId)
    (file : FileId) :
    (edit state e).1.contribution? c id file =
      Edit.act c id file (state.1.contribution? c id file) e := by
  cases e with
  | takeBack f c' id' => exact contribution?_retract c' c id' id f file state
  | enter f c' u =>
    refine (contribution?_contribute c' c id f file u state).trans ?_
    rw [Edit.act]
    split
    next hk => rw [hk.1, hk.2.1, hk.2.2]
    next => rfl

theorem contribution?_foldl_edit (edits : List Edit) (state : Database × ApplyStats) (c : Category)
    (id : SymbolId) (file : FileId) :
    (edits.foldl edit state).1.contribution? c id file =
      edits.foldl (Edit.act c id file) (state.1.contribution? c id file) :=
  (List.foldl_hom (fun state => Prod.fst state |>.contribution? c id file) fun state e =>
    (contribution?_edit state e c id file).symm).symm

theorem Batched.contribution? {before after : Database × ApplyStats} {delta : Delta}
    (h : Batched before delta after) (c : Category) (id : SymbolId) (file : FileId) :
    after.1.contribution? c id file =
      (editsOf after.1.number delta).foldl (Edit.act c id file)
        (before.1.contribution? c id file) := by
  have hedits := contribution?_foldl_edit (editsOf after.1.number delta) (symbolsOf before) c id file
  rw [← h.symbols] at hedits
  exact hedits

theorem Sound.definitions_eq {a b : Database} (ha : a.Sound) (hb : b.Sound)
    (h : ∀ c id file, a.contribution? c id file = b.contribution? c id file) :
    a.definitions = b.definitions := by
  have missing : ∀ {a b : Database} {c : Category} {id : SymbolId}, b.Sound →
      (∀ file, a.contribution? c id file = b.contribution? c id file) →
      a.definitionIn? c id = none → b.definitionIn? c id = none := by
    intro a b c id hb h hnone
    cases hd : b.definitionIn? c id with
    | none => rfl
    | some d =>
      obtain ⟨file, v, hv⟩ := OrderedMap.exists_of_isEmpty_eq_false (hb.backed c id d hd)
      have hfile := h file
      rw [contribution?_of_definitionIn? hd, hv, Database.contribution?, hnone] at hfile
      cases hfile
  refine PerCategory.ext_get fun c => OrderedMap.ext_find? fun id => ?_
  change a.definitionIn? c id = b.definitionIn? c id
  cases hd : a.definitionIn? c id with
  | none => exact (missing hb (h c id) hd).symm
  | some d =>
    cases he : b.definitionIn? c id with
    | none =>
      rw [missing ha (fun file => (h c id file).symm) he] at hd
      cases hd
    | some e =>
      have hcontributions : d.contributions = e.contributions := OrderedMap.ext_find? fun file => by
        rw [← contribution?_of_definitionIn? hd, h, contribution?_of_definitionIn? he]
      obtain ⟨hid, hc⟩ := ha.named c id d hd
      obtain ⟨hid', hc'⟩ := hb.named c id e he
      cases d
      cases e
      cases hid
      cases hc
      cases hid'
      cases hc'
      cases hcontributions
      rfl

/-- The second run of a batch finds the contents as the first run left them. -/
theorem Batched.sameContents {before once twice : Database × ApplyStats} {delta : Delta}
    (hs : before.1.Sound) (h : Batched before delta once) (h' : Batched (once.1, {}) delta twice) :
    twice.1.SameContents once.1 := by
  have hpaths : twice.1.paths = once.1.paths :=
    h'.again fun d hd => Option.isSome_iff_exists.mpr ⟨_, h.known d hd⟩
  have hnumber := number_congr hpaths
  have hsound := h.sound hs
  refine ⟨(h'.sound hsound).definitions_eq hsound fun c id file => ?_, hpaths, ?_, fun p q => ?_⟩
  · rw [h'.contribution?, hnumber, h.contribution?]
    exact Edit.foldl_act_act _ _
  · refine OrderedMap.ext_find? fun file => ?_
    rw [h'.files, hnumber, h.files]
    exact foldl_overwrite _ _ delta _
  · rw [h'.edges, h.edges]
    exact foldl_overwrite (fun d : FileDelta => d.path.same p = true) _ delta _

/-- Applying a batch again, as long as neither time is refused, leaves the contributions of all
files, the records and the include edges as they are. -/
theorem Reachable.apply_again {db : Database} {delta : Delta} {once twice : Database × ApplyStats}
    (h : db.Reachable) (honce : db.apply delta = .ok once)
    (htwice : once.1.apply delta = .ok twice) : twice.1.SameContents once.1 :=
  (batched_apply honce).sameContents h.sound (batched_apply htwice)

/-- One file is written over twice, with a use that is both added and removed, and another one is
forgotten. -/
def muddledBatch : Delta :=
  let use : Use := ⟨.onLine 2 3 4, ⟨32⟩⟩
  let file : Snapshot :=
    { path := ⟨"/w/a.cc"⟩, modified := 0, dependencies := .ofList [(⟨"/w/a.h"⟩, none)] }
  let first : ViewUpdate :=
    { id := ⟨300⟩, uses := ⟨[use, use], [use]⟩, relations := .ofList [(.callees, ⟨[⟨301⟩], []⟩)] }
  let second : ViewUpdate :=
    { id := ⟨300⟩, uses := ⟨[], [use, use]⟩, relations := .ofList [(.callees, ⟨[], [⟨301⟩]⟩)] }
  [{ path := file.path, snapshot := some file, changes := .same ⟨[⟨300⟩], [first]⟩ },
    { path := ⟨"/w//a.cc"⟩, snapshot := some { file with dependencies := ∅ },
      changes := .same ⟨[], [second]⟩ },
    { path := ⟨"/w/b.cc"⟩, snapshot := none, changes := .same {} }]

theorem apply_again_muddled :
    ∃ once twice, empty.apply muddledBatch = .ok once ∧ once.1.apply muddledBatch = .ok twice ∧
      twice.1.SameContents once.1 := by
  obtain ⟨once, honce⟩ : ∃ once, empty.apply muddledBatch = .ok once := ⟨_, rfl⟩
  obtain ⟨twice, htwice⟩ : ∃ twice, once.1.apply muddledBatch = .ok twice := by
    cases honce
    exact ⟨_, rfl⟩
  exact ⟨once, twice, honce, htwice, Reachable.apply_again .empty honce htwice⟩

end Database

end SymbolIndex
