import SymbolIndex.Database.Query
import SymbolIndex.Proofs.Database.Convergence
import SymbolIndex.Proofs.Database.Edits

/-! Databases reached by batches of any make, as long as none is refused. They stay sound, and the
counters of a batch account for every symbol that came or went. -/

namespace SymbolIndex

open Std

namespace Database

theorem sound_symbols {db : Database} : db.symbols.Sound ↔ db.Sound :=
  ⟨fun h => h.congr rfl rfl, fun h => h.congr rfl rfl⟩

theorem Batched.sound {before after : Database × ApplyStats} {delta : Delta}
    (h : Batched before delta after) (hs : before.1.Sound) : after.1.Sound := by
  have hedits : (symbolsOf after).1.Sound := by
    rw [h.symbols]
    exact Sound.foldl_edit (sound_symbols.mpr hs) _
  exact sound_symbols.mp hedits

/-- The databases that batches lead to from the empty one. -/
inductive Reachable : Database → Prop
  | empty : Reachable empty
  | apply {db : Database} {delta : Delta} {out : Database × ApplyStats} (h : Reachable db)
    (happly : db.apply delta = .ok out) : Reachable out.1

theorem Reachable.sound {db : Database} (h : db.Reachable) : db.Sound := by
  induction h with
  | empty => exact sound_empty
  | apply _ happly ih => exact (batched_apply happly).sound ih

/-- An operation applies one batch, or leaves the database alone. -/
theorem apply_of_perform {db db' : Database} {op : DatabaseOp} (h : db.perform op = .ok db') :
    db' = db ∨ ∃ delta out, db.apply delta = .ok out ∧ db' = out.1 := by
  have hmap : ∀ {delta}, (db.apply delta).map (·.1) = .ok db' →
      ∃ delta out, db.apply delta = .ok out ∧ db' = out.1 := by
    intro delta h
    cases hout : db.apply delta with
    | error e =>
      rw [hout] at h
      cases h
    | ok out =>
      rw [hout] at h
      cases h
      exact ⟨delta, out, hout, rfl⟩
  cases op with
  | index s =>
    rw [Database.perform, index] at h
    exact .inr (hmap h)
  | remove p =>
    rw [Database.perform, removeFile] at h
    cases hs : db.snapshot? p with
    | none =>
      rw [hs] at h
      cases h
      exact .inl rfl
    | some s =>
      rw [hs] at h
      exact .inr (hmap h)

theorem Reachable.perform {db db' : Database} {op : DatabaseOp} (h : db.Reachable)
    (hop : db.perform op = .ok db') : db'.Reachable := by
  rcases apply_of_perform hop with rfl | ⟨_, _, hout, rfl⟩
  · exact h
  · exact h.apply hout

theorem Reachable.foldlM_perform (ops : List DatabaseOp) {db db' : Database} (h : db.Reachable)
    (hops : ops.foldlM Database.perform db = .ok db') : db'.Reachable := by
  induction ops generalizing db with
  | nil =>
    cases hops
    exact h
  | cons op rest ih =>
    rw [List.foldlM_cons] at hops
    cases hop : db.perform op with
    | error e =>
      rw [hop] at hops
      cases hops
    | ok next =>
      rw [hop] at hops
      exact ih (h.perform hop) hops

/-- What a history of operations leads to is reachable. -/
theorem reachable_of_after {ops : List DatabaseOp} {db : Database} (h : after ops = .ok db) : db.Reachable :=
  Reachable.empty.foldlM_perform ops h

section Tally

theorem length_allDefinitions (db : Database) :
    db.allDefinitions.length =
      db.definitions.types.size + db.definitions.funcs.size + db.definitions.vars.size := by
  simp [allDefinitions, Category.all, definitionsOf, OrderedMap.values, PerCategory.get,
    OrderedMap.size, Nat.add_assoc]

theorem length_putDefinition (db : Database) (c : Category) (id : SymbolId) (d : Definition) :
    (db.putDefinition c id d).allDefinitions.length + (db.definitionIn? c id).isSome.toNat =
      db.allDefinitions.length + (!d.contributions.isEmpty).toNat := by
  have hsize : ∀ m : OrderedMap SymbolId Definition,
      (if d.contributions.isEmpty then m.erase id else m.insert id d).size +
        (m.find? id).isSome.toNat = m.size + (!d.contributions.isEmpty).toNat := by
    intro m
    have herase : (m.erase id).size + (m.find? id).isSome.toNat = m.size := m.size_erase id
    cases d.contributions.isEmpty with
    | true => exact herase
    | false =>
      have hinsert := m.size_insert id d
      simp only [Bool.false_eq_true, if_false, Bool.not_false, Bool.toNat_true]
      omega
  have hc := hsize (db.definitions.get c)
  rw [length_allDefinitions, length_allDefinitions, definitionIn?]
  cases c <;> simp only [putDefinition, PerCategory.modify, PerCategory.set, PerCategory.get]
    at hc ⊢ <;> omega

/-- The symbols of a database, of which there were `n` when the counting began, are as many as the
counters say. -/
def Tally (n : Nat) (state : Database × ApplyStats) : Prop :=
  state.1.allDefinitions.length + state.2.symbolsRemoved = n + state.2.symbolsCreated

variable {n : Nat} {state : Database × ApplyStats}

theorem Tally.retract (h : Tally n state) (c : Category) (file : FileId) (id : SymbolId) :
    Tally n (retract c file state id) := by
  rw [Database.retract]
  cases hd : state.1.definitionIn? c id with
  | none => exact h
  | some d =>
    let rest : Definition := { d with contributions := d.contributions.erase file }
    have hput := length_putDefinition state.1 c id rest
    rw [hd, Option.isSome_some, Bool.toNat_true] at hput
    rw [Tally] at h
    dsimp only
    split
    next he =>
      rw [show rest.contributions.isEmpty = true from he, Bool.not_true, Bool.toNat_false] at hput
      change (state.1.putDefinition c id rest).allDefinitions.length +
        (state.2.symbolsRemoved + 1) = n + state.2.symbolsCreated
      omega
    next he =>
      rw [show rest.contributions.isEmpty = false from Bool.eq_false_iff.mpr he, Bool.not_false,
        Bool.toNat_true] at hput
      change (state.1.putDefinition c id rest).allDefinitions.length +
        state.2.symbolsRemoved = n + state.2.symbolsCreated
      omega

theorem Tally.contribute (h : Tally n state) (c : Category) (file : FileId) (u : ViewUpdate) :
    Tally n (contribute c file state u) := by
  let d := (state.1.definitionIn? c u.id).getD { id := u.id, category := c }
  let entered : Definition := { d with
    contributions := d.contributions.alter file fun v => some (u.applyTo (v.getD .empty)) }
  have hput := length_putDefinition state.1 c u.id entered
  have he : entered.contributions.isEmpty = false := OrderedMap.isEmpty_insert ..
  rw [he, Bool.not_false, Bool.toNat_true] at hput
  rw [Tally] at h
  change (state.1.putDefinition c u.id entered).allDefinitions.length + state.2.symbolsRemoved =
    n + (state.2.symbolsCreated + if (state.1.definitionIn? c u.id).isNone then 1 else 0)
  cases hd : state.1.definitionIn? c u.id <;> rw [hd] at hput
  case none =>
    simp only [Option.isSome_none, Bool.toNat_false, Option.isNone_none, if_true] at hput ⊢
    omega
  case some =>
    simp only [Option.isSome_some, Bool.toNat_true, Option.isNone_some, Bool.false_eq_true,
      if_false] at hput ⊢
    omega

theorem Tally.foldl_edit (h : Tally n state) (edits : List Edit) :
    Tally n (edits.foldl edit state) := by
  induction edits generalizing state with
  | nil => exact h
  | cons e rest ih =>
    refine ih ?_
    cases e with
    | takeBack file c id => exact h.retract c file id
    | enter file c u => exact h.contribute c file u

end Tally

/-- The dispatch table of a reachable database names the ids that are known and held, each with a
category that holds it; every definition sits at its own id and category and is contributed to; and
a batch that is accepted accounts for the symbols it creates and removes. -/
theorem Reachable.dispatch_exact {db : Database} (h : db.Reachable) :
    (∀ id, (db.categoryOf? id).isSome = true ↔
      id ≠ .unknown ∧ ∃ c, (db.definitionIn? c id).isSome = true) ∧
    (∀ id c, db.categoryOf? id = some c → (db.definitionIn? c id).isSome = true) ∧
    (∀ c id d, db.definitionIn? c id = some d → d.id = id ∧ d.category = c ∧ 0 < d.provenance) ∧
    ∀ delta out, db.apply delta = .ok out →
      out.1.allDefinitions.length + out.2.symbolsRemoved =
        db.allDefinitions.length + out.2.symbolsCreated := by
  have hs := h.sound
  refine ⟨hs.isSome_categoryOf?, fun id c => hs.answered c id, fun c id d hd => ?_,
    fun delta out happly => ?_⟩
  · obtain ⟨hid, hc⟩ := hs.named c id d hd
    refine ⟨hid, hc, ?_⟩
    rw [Definition.provenance, OrderedMap.size, List.length_pos_iff]
    intro hnil
    have hb := hs.backed c id d hd
    rw [OrderedMap.isEmpty, hnil] at hb
    cases hb
  · have hstart : Tally db.allDefinitions.length (symbolsOf (db, {})) := rfl
    have hend := hstart.foldl_edit (editsOf out.1.number delta)
    rw [← (batched_apply happly).symbols] at hend
    exact hend

/-- Two files hold one id in different categories, one of them the unknown id as well, and the first
file moves its symbol to another category. -/
def movingBatch : Delta :=
  let a : Snapshot := { path := ⟨"/w/a.cc"⟩, modified := 0 }
  let b : Snapshot := { path := ⟨"/w/b.cc"⟩, modified := 0 }
  let bySymbols (types funcs vars : CategoryDelta) (s : Snapshot) : FileDelta :=
    ⟨s.path, some s, ⟨types, funcs, vars⟩⟩
  [bySymbols {} ⟨[], [{ id := ⟨300⟩ }]⟩ {} a,
    bySymbols {} {} ⟨[], [{ id := ⟨300⟩ }, { id := .unknown }]⟩ b,
    bySymbols ⟨[], [{ id := ⟨300⟩ }]⟩ ⟨[⟨300⟩], []⟩ {} a]

theorem dispatch_exact_moved :
    ∃ out, empty.apply movingBatch = .ok out ∧ out.1.Reachable ∧
      ((∀ id, (out.1.categoryOf? id).isSome = true ↔
        id ≠ .unknown ∧ ∃ c, (out.1.definitionIn? c id).isSome = true) ∧
      (∀ id c, out.1.categoryOf? id = some c → (out.1.definitionIn? c id).isSome = true) ∧
      (∀ c id d, out.1.definitionIn? c id = some d →
        d.id = id ∧ d.category = c ∧ 0 < d.provenance) ∧
      ∀ delta later, out.1.apply delta = .ok later →
        later.1.allDefinitions.length + later.2.symbolsRemoved =
          out.1.allDefinitions.length + later.2.symbolsCreated) ∧
      out.1.categoryOf? ⟨300⟩ = some .type ∧ out.1.categoryOf? .unknown = none := by
  obtain ⟨out, hout⟩ : ∃ out, empty.apply movingBatch = .ok out := ⟨_, rfl⟩
  have hreach : out.1.Reachable := .apply .empty hout
  refine ⟨out, hout, hreach, hreach.dispatch_exact, ?_, ?_⟩ <;> cases hout <;> rfl

end Database

end SymbolIndex
