import SymbolIndex.Proofs.Database.Answers
import SymbolIndex.Proofs.Database.Reachable

/-! Listings of symbols. What a file declares and what a search finds is listed symbol by symbol, each with
its own name and category. The place of the definition is looked up by id, though, in the category that
answers for the id, so it belongs to the listed symbol only where that makes no difference. -/

namespace SymbolIndex

namespace Database

variable {db : Database} {x : SymbolSummary}

/-- Where the name of a symbol's own definition stands. -/
def definedAt? (db : Database) (d : Definition) : Option Location := do
  let (file, info) ← d.definition?
  db.location? file (← info.spell)

theorem definitionOf?_eq_bind (db : Database) (id : SymbolId) :
    db.definitionOf? id = (db.definition? id).bind db.definedAt? := rfl

/-- The summary is one of a file's, or of a search's. -/
inductive Lists (db : Database) (x : SymbolSummary) : Prop
  | file (p : Path) (h : x ∈ db.symbolsIn p)
  | search (text : String) (limit : Nat) (h : x ∈ db.search text limit)

theorem mem_definitionsOf {c : Category} {d : Definition} (h : d ∈ db.definitionsOf c) :
    ∃ id, db.definitionIn? c id = some d := by
  obtain ⟨⟨id, d⟩, he, rfl⟩ := List.mem_map.mp h
  exact ⟨id, OrderedMap.mem_entries_iff.mp he⟩

theorem Lists.exists_definition (h : db.Lists x) :
    ∃ c id d, db.definitionIn? c id = some d ∧ x = db.summary d := by
  cases h with
  | file p h =>
    rw [symbolsIn] at h
    split at h
    next => cases h
    next s hs =>
      obtain ⟨e, -, he⟩ := List.mem_filterMap.mp h
      obtain ⟨d, hd, rfl⟩ := Option.map_eq_some_iff.mp he
      exact ⟨e.1, e.2.1, d, hd, rfl⟩
  | search text limit h =>
    obtain ⟨d, hd, rfl⟩ := List.mem_map.mp h
    have hhit := List.mem_mergeSort.mp (List.mem_of_mem_take hd)
    obtain ⟨c, -, hc⟩ := List.mem_flatMap.mp (List.mem_filter.mp hhit).1
    obtain ⟨id, hid⟩ := mem_definitionsOf hc
    exact ⟨c, id, d, hid, rfl⟩

/-- A search whose limit is not reached leaves no hit out. -/
theorem mem_search {d : Definition} {text : String} {limit : Nat} (hd : d ∈ db.allDefinitions)
    (hname : (d.name != "" && occursIn (Lowercase.text text).toList
      (Lowercase.text d.name).toList) = true)
    (hlimit : db.allDefinitions.length ≤ limit) : db.summary d ∈ db.search text limit := by
  refine List.mem_map.mpr ⟨d, ?_, rfl⟩
  rw [List.take_of_length_le]
  · exact List.mem_mergeSort.mpr (List.mem_filter.mpr ⟨hd, hname⟩)
  · rw [List.length_mergeSort]
    exact Nat.le_trans (List.length_filter_le _ _) hlimit

/-- A listed symbol is held under the id and category that are listed, by the name that is listed. The
place that is listed for it is that of the answering category's symbol; it is the symbol's own exactly if the
two are the same, and for the unknown id, which no category answers for, if it has none. -/
theorem Reachable.listed_definition_iff (h : db.Reachable) (hx : db.Lists x) :
    ∃ d, db.definitionIn? x.category x.id = some d ∧ x.name = d.name ∧
      x.definition = (db.definition? x.id).bind db.definedAt? ∧
      (x.definition = db.definedAt? d ↔
        (x.id = .unknown → db.definedAt? d = none) ∧
        ∀ c other, db.categoryOf? x.id = some c → db.definitionIn? c x.id = some other →
          db.definedAt? other = db.definedAt? d) := by
  obtain ⟨c, id, d, hd, rfl⟩ := hx.exists_definition
  obtain ⟨rfl, rfl⟩ := h.sound.named c id d hd
  refine ⟨d, hd, rfl, db.definitionOf?_eq_bind d.id, ?_⟩
  change db.definitionOf? d.id = db.definedAt? d ↔
    (d.id = .unknown → _) ∧ ∀ c other, db.categoryOf? d.id = some c →
      db.definitionIn? c d.id = some other → _
  rw [definitionOf?_eq_bind, definition?]
  cases hc : db.categoryOf? d.id with
  | none =>
    -- Only the unknown id is held without a category that answers for it.
    have hunknown : d.id = .unknown := by
      refine Decidable.byContradiction fun hne => ?_
      have hsome := (h.sound.isSome_categoryOf? d.id).mpr ⟨hne, d.category, by rw [hd]; rfl⟩
      rw [hc] at hsome
      cases hsome
    simp [hunknown, eq_comm]
  | some c =>
    have hknown : d.id ≠ .unknown := by
      intro hu
      rw [hu, h.sound.unknown] at hc
      cases hc
    obtain ⟨other, ho⟩ := Option.isSome_iff_exists.mp (h.sound.answered c d.id hc)
    rw [Option.bind_some, ho, Option.bind_some]
    constructor
    · refine fun heq => ⟨fun hu => absurd hu hknown, fun c' other' hc' ho' => ?_⟩
      obtain rfl := Option.some.inj hc'
      obtain rfl := Option.some.inj (ho.symm.trans ho')
      exact heq
    · exact fun hown => hown.2 c other rfl ho

def rivalFile : Snapshot :=
  Snapshot.update ⟨⟨"/w/b.cc"⟩, 0, [], ∅, .same ∅⟩ .type ⟨300⟩ fun v =>
    { v with info := some { name := "T", spell := some (.onLine 2 7 8) } }

/-- Two files define one id in different categories, and the first answers for it. In the first file, the
function is listed with its own definition. -/
theorem listed_definition_answering :
    ∃ db, after [.index definingFile, .index rivalFile] = .ok db ∧ db.Reachable ∧
      ∃ x ∈ db.symbolsIn ⟨"/w/a.cc"⟩, ∃ d, db.definitionIn? x.category x.id = some d ∧
        db.definedAt? d = some ⟨⟨"/w/a.cc"⟩, .onLine 1 5 6⟩ ∧ x.definition = db.definedAt? d := by
  obtain ⟨db, hdb⟩ : ∃ db, after [.index definingFile, .index rivalFile] = .ok db := ⟨_, rfl⟩
  have hreach := reachable_of_after hdb
  have hcategory : db.categoryOf? ⟨300⟩ = some .func := by cases hdb; rfl
  have hlisted : ⟨⟨300⟩, .func, "f", some ⟨⟨"/w/a.cc"⟩, .onLine 1 5 6⟩⟩ ∈
      db.symbolsIn ⟨"/w/a.cc"⟩ := by
    cases hdb
    decide +kernel
  obtain ⟨d, hd, -, -, hown⟩ := hreach.listed_definition_iff (.file ⟨"/w/a.cc"⟩ hlisted)
  have hat : db.definedAt? d = some ⟨⟨"/w/a.cc"⟩, .onLine 1 5 6⟩ := by
    cases hdb
    cases hd
    decide +kernel
  refine ⟨db, hdb, hreach, _, hlisted, d, hd, hat, hown.mpr ⟨fun hu => ?_, fun c other hc ho => ?_⟩⟩
  · cases hu
  · obtain rfl := Option.some.inj (hcategory.symm.trans hc)
    obtain rfl := Option.some.inj (hd.symm.trans ho)
    rfl

/-- In the second file, and by a search, the type is listed with the definition of the function. -/
theorem listed_definition_of_rival :
    ∃ db, after [.index definingFile, .index rivalFile] = .ok db ∧
      ∃ x, x ∈ db.symbolsIn ⟨"/w/b.cc"⟩ ∧ x ∈ db.search "t" 10 ∧
        ∃ d, db.definitionIn? x.category x.id = some d ∧
          db.definedAt? d = some ⟨⟨"/w/b.cc"⟩, .onLine 2 7 8⟩ ∧
          x.definition = some ⟨⟨"/w/a.cc"⟩, .onLine 1 5 6⟩ := by
  obtain ⟨db, hdb⟩ : ∃ db, after [.index definingFile, .index rivalFile] = .ok db := ⟨_, rfl⟩
  obtain ⟨d, hd⟩ : ∃ d, db.definitionIn? .type ⟨300⟩ = some d := by cases hdb; exact ⟨_, rfl⟩
  have hsummary : db.summary d = ⟨⟨300⟩, .type, "T", some ⟨⟨"/w/a.cc"⟩, .onLine 1 5 6⟩⟩ := by
    cases hdb
    cases hd
    decide +kernel
  refine ⟨db, hdb, db.summary d, ?_, mem_search ?_ ?_ ?_, d, ?_, ?_, ?_⟩
  · rw [hsummary]
    cases hdb
    decide +kernel
  · cases hdb
    cases hd
    exact .head _
  · cases hdb
    cases hd
    decide +kernel
  · cases hdb
    decide +kernel
  · rw [hsummary]
    exact hd
  · cases hdb
    cases hd
    decide +kernel
  · rw [hsummary]

end Database

end SymbolIndex
