import SymbolIndex.Proofs.Database.Batches

/-! Which category answers for an id that several categories hold. The answering category stays
while it holds the id, and hands it to the first one that does when its own definition dies. Who
answers in the end depends on who held the id on the way, so a batch that takes a definition back
and enters it again can change the answer when it is applied a second time. -/

namespace SymbolIndex

open Std

namespace Database

def holds (db : Database) (id : SymbolId) (c : Category) : Bool := (db.definitionIn? c id).isSome

/-- The category that answers once the id is held by the given categories. -/
def heir (answering : Option Category) (held : Category → Bool) : Option Category :=
  if answering.any held then answering else Category.all.find? held

/-- The categories that hold an id after each of the edits. -/
def trail (id : SymbolId) (state : Database × ApplyStats) : List Edit → List (Category → Bool)
  | [] => []
  | e :: rest => (edit state e).1.holds id :: trail id (edit state e) rest

theorem heir_of_holds {answering : Option Category} {held : Category → Bool} {c : Category}
    (ha : answering = some c) (hc : held c = true) : heir answering held = some c := by
  rw [heir, ha, Option.any_some, if_pos hc]

theorem Sound.heir_categoryOf? {db : Database} (h : db.Sound) {id : SymbolId}
    (hid : id.isUnknown = false) : heir (db.categoryOf? id) (db.holds id) = db.categoryOf? id := by
  cases ha : db.categoryOf? id with
  | some c => exact heir_of_holds rfl (h.answered c id ha)
  | none =>
    refine List.find?_eq_none.mpr fun c _ hc => ?_
    have := h.dispatched c id hid hc
    rw [ha] at this
    cases this

theorem heir_of_gone {answering : Option Category} {held : Category → Bool}
    (h : ∀ c, answering = some c → held c = false) :
    heir answering held = Category.all.find? held := by
  cases answering with
  | none => rfl
  | some c => rw [heir, Option.any_some, h c rfl]; rfl

theorem categoryOf?_retract {state : Database × ApplyStats} (h : state.1.Sound) (c : Category)
    (file : FileId) (id' : SymbolId) {id : SymbolId} (hid : id.isUnknown = false) :
    (retract c file state id').1.categoryOf? id =
      heir (state.1.categoryOf? id) ((retract c file state id').1.holds id) := by
  have hkeep : (retract c file state id').1.categoryOf? id = state.1.categoryOf? id →
      (retract c file state id').1.categoryOf? id =
        heir (state.1.categoryOf? id) ((retract c file state id').1.holds id) := by
    intro hsame
    rw [← hsame, (h.retract c file id').heir_categoryOf? hid]
  rcases retract_cases c file state id' with ⟨_, hr⟩ | ⟨d, rest, _, _, _, ⟨_, hr⟩ | ⟨he, hr⟩⟩
  · exact hkeep (by rw [hr])
  · exact hkeep (by rw [hr]; rfl)
  · let dropped := state.1.putDefinition c id' rest
    have hdef : (retract c file state id').1.definitionIn? = dropped.definitionIn? :=
      definitionIn?_congr (by rw [hr])
    have hcat : (retract c file state id').1.categoryOf? id =
        if id = id' ∧ state.1.categoryOf? id' = some c then
          Category.all.find? fun c => (dropped.definitionIn? c id').isSome
        else state.1.categoryOf? id := by
      rw [hr]
      exact find?_redispatch dropped c id' id
    by_cases hmoved : id = id' ∧ state.1.categoryOf? id' = some c
    · have hanswering : state.1.categoryOf? id = some c := hmoved.1 ▸ hmoved.2
      have hgone : (retract c file state id').1.holds id c = false := by
        rw [holds, hdef, definitionIn?_putDefinition, if_pos ⟨rfl, hmoved.1⟩, if_pos he]
        rfl
      rw [hcat, if_pos hmoved, heir_of_gone fun c' hc' => ?_, hmoved.1]
      · exact congrArg (fun p => Category.all.find? p) (funext fun c => by rw [holds, hdef])
      · rw [hanswering] at hc'
        exact Option.some.inj hc' ▸ hgone
    · exact hkeep (hcat.trans (if_neg hmoved))

theorem categoryOf?_contribute {state : Database × ApplyStats} (h : state.1.Sound) (c : Category)
    (file : FileId) (u : ViewUpdate) {id : SymbolId} (hid : id.isUnknown = false) :
    (contribute c file state u).1.categoryOf? id =
      heir (state.1.categoryOf? id) ((contribute c file state u).1.holds id) := by
  have hsound := h.contribute c file u
  have hcat : (contribute c file state u).1.categoryOf? id = _ :=
    find?_claimId state.1.dispatch c u.id id
  by_cases hnew : id = u.id ∧ u.id.isUnknown = false ∧ state.1.dispatch.find? u.id = none
  · have hanswering : state.1.categoryOf? id = none := hnew.1 ▸ hnew.2.2
    -- nobody held the id before, so the category of the entry is the only one that does
    have honly : ∀ c', (contribute c file state u).1.holds id c' = true → c' = c := by
      intro c' hc'
      refine Decidable.byContradiction fun hne => ?_
      have hdef := definitionIn?_putDefinition state.1 c c' u.id id
      rw [holds] at hc'
      have hold : (state.1.definitionIn? c' id).isSome = true := by
        rw [← hc']
        exact congrArg Option.isSome ((hdef _).trans (if_neg fun hk => hne hk.1)).symm
      have := h.dispatched c' id hid hold
      rw [hanswering] at this
      cases this
    rw [hanswering, hcat, if_pos hnew]
    change some c = Category.all.find? _
    have hheld := hsound.answered c id (hcat.trans (if_pos hnew))
    obtain ⟨c', hfound⟩ := Option.isSome_iff_exists.mp
      (List.find?_isSome (p := (contribute c file state u).1.holds id)
        |>.mpr ⟨c, Category.mem_all c, hheld⟩)
    rw [hfound, honly c' (List.find?_some hfound)]
  · have hsame : (contribute c file state u).1.categoryOf? id = state.1.categoryOf? id :=
      hcat.trans (if_neg hnew)
    rw [← hsame, hsound.heir_categoryOf? hid]

theorem categoryOf?_edit {state : Database × ApplyStats} (h : state.1.Sound) (e : Edit)
    {id : SymbolId} (hid : id.isUnknown = false) :
    (edit state e).1.categoryOf? id =
      heir (state.1.categoryOf? id) ((edit state e).1.holds id) := by
  cases e with
  | takeBack file c id' => exact categoryOf?_retract h c file id' hid
  | enter file c u => exact categoryOf?_contribute h c file u hid

/-- A run of edits hands the answer on along its trail. -/
theorem categoryOf?_foldl_edit {state : Database × ApplyStats} (h : state.1.Sound)
    (edits : List Edit) {id : SymbolId} (hid : id.isUnknown = false) :
    (edits.foldl edit state).1.categoryOf? id =
      (trail id state edits).foldl heir (state.1.categoryOf? id) := by
  induction edits generalizing state with
  | nil => rfl
  | cons e rest ih =>
    rw [List.foldl_cons, ih (h.edit e), trail, List.foldl_cons, categoryOf?_edit h e hid]

theorem holds_of_contribution? {db : Database} {c : Category} {id : SymbolId} {file : FileId}
    (h : (db.contribution? c id file).isSome = true) : db.holds id c = true := by
  rw [holds]
  cases hd : db.definitionIn? c id with
  | some d => rfl
  | none =>
    rw [contribution?, hd] at h
    cases h

theorem categoryOf?_kept {state : Database × ApplyStats} (h : state.1.Sound) {c : Category}
    {id : SymbolId} {file : FileId} {edits : List Edit} (hc : state.1.categoryOf? id = some c)
    (hv : (state.1.contribution? c id file).isSome = true)
    (hstays : .takeBack file c id ∉ edits) :
    (edits.foldl edit state).1.categoryOf? id = some c := by
  have hid : id.isUnknown = false :=
    decide_eq_false ((h.isSome_categoryOf? id).mp (by rw [hc]; rfl)).1
  induction edits generalizing state with
  | nil => exact hc
  | cons e rest ih =>
    rw [List.mem_cons, not_or] at hstays
    have hv' : ((edit state e).1.contribution? c id file).isSome = true := by
      rw [contribution?_edit]
      cases e with
      | takeBack f c' id' =>
        rw [Edit.act, if_neg fun hk => hstays.1 (by rw [hk.1, hk.2.1, hk.2.2])]
        exact hv
      | enter f c' u =>
        rw [Edit.act]
        split
        next => rfl
        next => exact hv
    refine ih (h.edit e) ?_ hv' hstays.2
    rw [categoryOf?_edit h e hid]
    exact heir_of_holds hc (holds_of_contribution? hv')

theorem Batched.categoryOf? {before after : Database × ApplyStats} {delta : Delta}
    (h : Batched before delta after) (id : SymbolId) :
    after.1.categoryOf? id =
      ((editsOf after.1.number delta).foldl edit before).1.categoryOf? id :=
  congrArg (fun state => state.1.categoryOf? id)
    (h.symbols.trans (symbolsOf_foldl_edit _ before).symm)

structure AnswersAs (a b : Database) (id : SymbolId) : Prop where
  category : a.categoryOf? id = b.categoryOf? id
  definition : a.definition? id = b.definition? id
  uses : a.usesOf id = b.usesOf id
  place : a.definitionOf? id = b.definitionOf? id

theorem SameContents.answersAs {a b : Database} (h : a.SameContents b) {id : SymbolId}
    (hc : a.categoryOf? id = b.categoryOf? id) : a.AnswersAs b id := by
  have hd : a.definition? id = b.definition? id := by
    rw [definition?, definition?, hc, definitionIn?_congr h.definitions]
  have hpath : a.pathOf? = b.pathOf? := by
    funext file
    rw [pathOf?, pathOf?, h.paths]
  refine ⟨hc, hd, ?_, ?_⟩
  · rw [usesOf, usesOf, hd, hpath]
  · have hlocation : a.location? = b.location? := by
      funext file span
      rw [location?, location?, hpath]
    rw [definitionOf?, definitionOf?, hd, hlocation]

theorem SameContents.isSome_categoryOf? {a b : Database} (h : a.SameContents b) (ha : a.Sound)
    (hb : b.Sound) (id : SymbolId) : (a.categoryOf? id).isSome = (b.categoryOf? id).isSome := by
  rw [Bool.eq_iff_iff, ha.isSome_categoryOf?, hb.isSome_categoryOf?, definitionIn?_congr h.definitions]

theorem SameContents.categoryOf?_eq {a b : Database} (h : a.SameContents b) (ha : a.Sound)
    (hb : b.Sound) {id : SymbolId}
    (hone : ∀ c c', b.holds id c = true → b.holds id c' = true → c = c') :
    a.categoryOf? id = b.categoryOf? id := by
  have hsome := h.isSome_categoryOf? ha hb id
  cases hc' : b.categoryOf? id with
  | none =>
    rw [hc'] at hsome
    exact Option.not_isSome_iff_eq_none.mp (Bool.eq_false_iff.mp hsome)
  | some c' =>
    rw [hc'] at hsome
    obtain ⟨c, hc⟩ := Option.isSome_iff_exists.mp hsome
    have hheld : b.holds id c = true := by
      rw [holds, ← definitionIn?_congr h.definitions]
      exact ha.answered c id hc
    rw [hc, hone c c' hheld (hb.answered c' id hc')]

/-- Where no file is operated on twice, no delta takes back what its file still contributes. -/
theorem Batched.not_mem_editsOf {before after : Database × ApplyStats} {delta : Delta}
    (h : Batched before delta after) (hc : after.1.Consistent)
    (hsettled : ∀ d ∈ delta, d.SettledIn after.1) {c : Category} {id : SymbolId} {file : FileId}
    (hv : (after.1.contribution? c id file).isSome = true) :
    .takeBack file c id ∉ editsOf after.1.number delta := by
  intro hmem
  obtain ⟨d, hd, he⟩ := List.mem_flatMap.mp hmem
  obtain ⟨c', _, he⟩ := List.mem_flatMap.mp he
  have hremoved : after.1.number d.path = file ∧ id ∈ (d.changes.get c).removed := by
    rcases List.mem_append.mp he with he | he
    · obtain ⟨id', hid', heq⟩ := List.mem_map.mp he
      cases heq
      exact ⟨rfl, hid'⟩
    · obtain ⟨_, _, heq⟩ := List.mem_map.mp he
      cases heq
  have hrecord : after.1.snapshotAt? file = d.snapshot := by
    rw [← (hsettled d hd).recorded, snapshot?_eq_bind, h.known d hd, hremoved.1]
    rfl
  rw [hc.views, hrecord, (hsettled d hd).kept c id hremoved.2] at hv
  cases hv

/-- A batch that follows a history is accepted. When it is applied again, and not refused, the
answering category of an id is handed on along the trail of the edits; it stays if no other
category holds the id, or if a file keeps its contribution to the answering definition all the time.
With no file operated on twice, the batch is accepted again and all queries are answered alike. -/
theorem dispatch_again (earlier ops : List DatabaseOp) :
    ∃ db once, after earlier = .ok db ∧ db.apply (deltasOf earlier ops) = .ok once ∧
      (∀ twice, once.1.apply (deltasOf earlier ops) = .ok twice → ∀ id,
        (id ≠ .unknown → twice.1.categoryOf? id =
          (trail id (once.1, {}) (editsOf once.1.number (deltasOf earlier ops))).foldl heir
            (once.1.categoryOf? id)) ∧
        ((∀ c c', once.1.holds id c = true → once.1.holds id c' = true → c = c') →
          twice.1.AnswersAs once.1 id) ∧
        ∀ c file, once.1.categoryOf? id = some c →
          (once.1.contribution? c id file).isSome = true →
          .takeBack file c id ∉ editsOf once.1.number (deltasOf earlier ops) →
          twice.1.AnswersAs once.1 id) ∧
      (Apart ops → ∃ twice, once.1.apply (deltasOf earlier ops) = .ok twice ∧
        ∀ id, twice.1.AnswersAs once.1 id) := by
  obtain ⟨db, hdb, h⟩ := after_ok earlier
  have hstart : ((db, {}) : Database × ApplyStats).1.Reflects earlier := h
  obtain ⟨once, honce, h'⟩ := hstart.apply_deltasOf ops
  have hbegin : ((once.1, {}) : Database × ApplyStats).1.Consistent := h'.consistent
  have hsound := hbegin.sound
  have hfirst := batched_apply honce
  have hagain : ∀ twice, once.1.apply (deltasOf earlier ops) = .ok twice →
      twice.1.Sound ∧ twice.1.SameContents once.1 ∧ ∀ id, twice.1.categoryOf? id =
        ((editsOf once.1.number (deltasOf earlier ops)).foldl edit (once.1, {})).1.categoryOf? id := by
    intro twice htwice
    have hsecond := batched_apply htwice
    have hsame := hfirst.sameContents h.consistent.sound hsecond
    refine ⟨hsecond.sound hsound, hsame, fun id => ?_⟩
    rw [← number_congr hsame.paths]
    exact hsecond.categoryOf? id
  have hkept : ∀ twice, once.1.apply (deltasOf earlier ops) = .ok twice → ∀ id c file,
      once.1.categoryOf? id = some c → (once.1.contribution? c id file).isSome = true →
      .takeBack file c id ∉ editsOf once.1.number (deltasOf earlier ops) →
      twice.1.AnswersAs once.1 id := by
    intro twice htwice id c file hc hv hstays
    obtain ⟨_, hsame, hcategory⟩ := hagain twice htwice
    refine hsame.answersAs ?_
    rw [hcategory, hc]
    exact categoryOf?_kept hsound hc hv hstays
  refine ⟨db, once, hdb, honce, fun twice htwice id => ⟨fun hid => ?_, fun hone => ?_,
    hkept twice htwice id⟩, fun hapart => ?_⟩
  · rw [(hagain twice htwice).2.2]
    exact categoryOf?_foldl_edit hsound _ (decide_eq_false hid)
  · obtain ⟨hsound', hsame, _⟩ := hagain twice htwice
    exact hsame.answersAs (hsame.categoryOf?_eq hsound' hsound hone)
  · have hsettled : ∀ d ∈ deltasOf earlier ops, d.SettledIn once.1 :=
      fun d hd => h'.settledIn hapart hd
    obtain ⟨twice, htwice⟩ := hbegin.apply_settled hsettled
    refine ⟨twice, htwice, fun id => ?_⟩
    obtain ⟨hsound', hsame, _⟩ := hagain twice htwice
    cases hc : once.1.categoryOf? id with
    | none =>
      have hsome := hsame.isSome_categoryOf? hsound' hsound id
      rw [hc] at hsome
      refine hsame.answersAs ?_
      rw [hc, Option.not_isSome_iff_eq_none.mp (Bool.eq_false_iff.mp hsome)]
    | some c =>
      obtain ⟨d, hd⟩ := Option.isSome_iff_exists.mp (hsound.answered c id hc)
      obtain ⟨file, v, hv⟩ := OrderedMap.exists_of_isEmpty_eq_false (hsound.backed c id d hd)
      have hv : (once.1.contribution? c id file).isSome = true := by
        rw [contribution?_of_definitionIn? hd, hv]
        rfl
      exact hkept twice htwice id c file hc hv (hfirst.not_mem_editsOf h'.consistent hsettled hv)

def mentioning (path : String) (c : Category) : Snapshot :=
  Snapshot.update ⟨⟨path⟩, 0, [], ∅, .same ∅⟩ c ⟨300⟩ fun v => v

def sharedBefore : List DatabaseOp :=
  [.index (mentioning "/w/x.cc" .func), .index (mentioning "/w/a.cc" .func),
    .index (mentioning "/w/b.cc" .type)]

/-- One file drops the function and has it again, and the other one is removed. -/
def sharedAfter : List DatabaseOp :=
  [.index ⟨⟨"/w/a.cc"⟩, 0, [], ∅, .same ∅⟩, .index (mentioning "/w/a.cc" .func),
    .remove ⟨"/w/x.cc"⟩]

/-- In the first run some file has the function all the time; in the second run nobody has when the
first delta takes it back, and the type answers from then on. -/
theorem dispatch_again_differs :
    ∃ db once twice, after sharedBefore = .ok db ∧
      db.apply (deltasOf sharedBefore sharedAfter) = .ok once ∧
      once.1.apply (deltasOf sharedBefore sharedAfter) = .ok twice ∧
      once.1.categoryOf? ⟨300⟩ = some .func ∧ twice.1.categoryOf? ⟨300⟩ = some .type := by
  obtain ⟨db, hdb⟩ : ∃ db, after sharedBefore = .ok db := ⟨_, rfl⟩
  obtain ⟨once, honce⟩ : ∃ once, db.apply (deltasOf sharedBefore sharedAfter) = .ok once := by
    cases hdb
    exact ⟨_, rfl⟩
  obtain ⟨twice, htwice⟩ : ∃ twice,
      once.1.apply (deltasOf sharedBefore sharedAfter) = .ok twice := by
    cases hdb
    cases honce
    exact ⟨_, rfl⟩
  refine ⟨db, once, twice, hdb, honce, htwice, ?_, ?_⟩
  · cases hdb
    cases honce
    rfl
  · cases hdb
    cases honce
    cases htwice
    rfl

end Database

end SymbolIndex
