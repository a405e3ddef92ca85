import SymbolIndex.Proofs.Remap.Categories

/-! The fields of a remapped symbol that name a type, and the edges that the type keeps of them. Every
entry of a symbol adds its edges, but not every entry has a say in the fields: the first definition takes
the place of all that was said before, and what comes later fills gaps only. -/

namespace SymbolIndex

namespace Snapshot

/-- What the snapshot says about a symbol. -/
def info? (s : Snapshot) (c : Category) (id : SymbolId) : Option SymbolInfo :=
  (s.find? c id).bind (·.info)

theorem info?_update (s : Snapshot) (c d : Category) (id t : SymbolId)
    (f : SymbolView → SymbolView) :
    (s.update c id f).info? d t =
      if d = c ∧ t = id then (f ((s.find? c id).getD .empty)).info else s.info? d t := by
  rw [info?, find?_update]
  split
  next => rfl
  next => rfl

theorem info?_update_of_info (s : Snapshot) (c d : Category) (id t : SymbolId)
    {f : SymbolView → SymbolView} (hf : ∀ v, (f v).info = v.info) :
    (s.update c id f).info? d t = s.info? d t := by
  rw [info?_update]
  split
  next h =>
    obtain ⟨rfl, rfl⟩ := h
    rw [hf, info?]
    cases s.find? d t <;> rfl
  next => rfl

end Snapshot

/-- The fields of a symbol that name a type: the type that declares it and the type of its values. -/
inductive TypeField
  | owner
  | value
  deriving DecidableEq

namespace TypeField

def reference? : TypeField → Entry → Option Reference
  | owner => (·.declaringType)
  | value => (·.valueType)

def known? : TypeField → SymbolInfo → Option SymbolId
  | owner => (·.declaringType)
  | value => (·.valueType)

/-- The relation of the type to the symbol. -/
def backward : TypeField → RelationKind
  | owner => .members
  | value => .instances

end TypeField

namespace Remap

variable {entries : Identified}

/-- The type that an entry names in a field. -/
def named? (entries : Identified) (field : TypeField) (e : Entry) : Option SymbolId :=
  (field.reference? e).bind (target? entries)

section Merging

variable {held incoming : SymbolInfo}

theorem mergeInfo_of_definition (hheld : held.isDefinition = false)
    (hincoming : incoming.isDefinition = true) :
    mergeInfo (some held) incoming = incoming := by
  rw [mergeInfo, hheld, hincoming]
  rfl

/-- What is no replacement by a definition fills the gaps. -/
theorem known?_mergeInfo (field : TypeField)
    (h : held.isDefinition = true ∨ incoming.isDefinition = false) :
    field.known? (mergeInfo (some held) incoming) =
      (field.known? held <|> field.known? incoming) := by
  have hkeep : ¬ (!held.isDefinition && incoming.isDefinition) = true := by
    rcases h with h | h <;> simp [h]
  rw [mergeInfo, if_neg hkeep]
  cases field <;> rfl

theorem isDefinition_mergeInfo (h : held.isDefinition = true ∨ incoming.isDefinition = false) :
    (mergeInfo (some held) incoming).isDefinition = held.isDefinition := by
  have hkeep : ¬ (!held.isDefinition && incoming.isDefinition) = true := by
    rcases h with h | h <;> simp [h]
  rw [mergeInfo, if_neg hkeep, SymbolInfo.isDefinition]
  dsimp only
  split <;> rfl

end Merging

section Account

variable (entries)

theorem known?_info (field : TypeField) (e : Entry) :
    field.known? (info entries e) = named? entries field e := by
  cases field <;> rfl

theorem isDefinition_info (e : Entry) :
    (info entries e).isDefinition = e.definition.isSome := by
  rw [SymbolInfo.isDefinition, info]
  cases e.definition <;> rfl

/-- What entries of one symbol, taken in order, make of what is held of it. -/
def account (entries : Identified) (held : Option SymbolInfo) (items : List Entry) :
    Option SymbolInfo :=
  items.foldl (fun held e => some (mergeInfo held (info entries e))) held

/-- Entries that no definition among them can set aside fill the gaps, in their order. -/
theorem account_filling (field : TypeField) (items : List Entry) (held : SymbolInfo)
    (h : held.isDefinition = true ∨ ∀ e ∈ items, e.definition = none) :
    ∃ i, account entries (some held) items = some i ∧ i.isDefinition = held.isDefinition ∧
      field.known? i = (field.known? held <|> items.findSome? (named? entries field)) := by
  induction items generalizing held with
  | nil => exact ⟨held, rfl, rfl, by simp⟩
  | cons e rest ih =>
    have hstep : held.isDefinition = true ∨ (info entries e).isDefinition = false := by
      refine h.imp id fun hnone => ?_
      rw [isDefinition_info, hnone e (by simp)]
      rfl
    have hdef := isDefinition_mergeInfo hstep
    obtain ⟨i, hi, hidef, hknown⟩ := ih (mergeInfo (some held) (info entries e)) (by
      rw [hdef]
      exact h.imp id fun hnone e' he' => hnone e' (List.mem_cons_of_mem _ he'))
    refine ⟨i, hi, hidef.trans hdef, ?_⟩
    rw [hknown, known?_mergeInfo field hstep, known?_info, List.findSome?_cons]
    cases field.known? held <;> cases named? entries field e <;> rfl

/-- The first entry starts the account if no later definition sets it aside. -/
theorem account_first (field : TypeField) (e : Entry) (rest : List Entry)
    (h : e.definition.isSome = true ∨ ∀ e' ∈ rest, e'.definition = none) :
    ∃ i, account entries none (e :: rest) = some i ∧
      i.isDefinition = e.definition.isSome ∧
      field.known? i = (e :: rest).findSome? (named? entries field) := by
  rw [← isDefinition_info entries] at h ⊢
  obtain ⟨i, hi, hdef, hknown⟩ := account_filling entries field rest (info entries e) h
  refine ⟨i, hi, hdef, ?_⟩
  rw [hknown, known?_info, List.findSome?_cons]
  cases named? entries field e <;> rfl

/-- A definition sets aside what entries without one made up. -/
theorem account_definition {before : List Entry} (hbefore : ∀ e ∈ before, e.definition = none)
    {e : Entry} (he : e.definition.isSome = true) (rest : List Entry) :
    account entries none (before ++ e :: rest) = account entries none (e :: rest) := by
  have hreplace : mergeInfo (account entries none before) (info entries e) = info entries e := by
    cases before with
    | nil => rfl
    | cons a later =>
      obtain ⟨held, hheld, hdef, -⟩ := account_first entries .owner a later
        (.inr fun e' he' => hbefore e' (List.mem_cons_of_mem _ he'))
      rw [hbefore a (by simp)] at hdef
      rw [hheld]
      exact mergeInfo_of_definition hdef ((isDefinition_info entries e).trans he)
  rw [account, List.foldl_append, List.foldl_cons, ← account, ← account, hreplace]
  rfl

/-- The entries of a symbol that have a say in its fields: those from the first definition on, or all of
them when none is a definition. -/
def deciding (items : List Entry) : List Entry :=
  match items.dropWhile (·.definition.isNone) with
  | [] => items
  | e :: rest => e :: rest

theorem known?_account (field : TypeField) {items : List Entry} (h : items ≠ []) :
    ∃ i, account entries none items = some i ∧
      field.known? i = (deciding items).findSome? (named? entries field) := by
  have hsplit := List.takeWhile_append_dropWhile (p := (·.definition.isNone)) (l := items)
  have hbefore : ∀ e ∈ items.takeWhile (·.definition.isNone), e.definition = none := fun e he =>
    Option.isNone_iff_eq_none.mp (List.all_eq_true.mp List.all_takeWhile e he)
  rw [deciding]
  split
  next hrest =>
    rw [hrest, List.append_nil] at hsplit
    rw [hsplit] at hbefore
    obtain ⟨e, rest, rfl⟩ := List.exists_cons_of_ne_nil h
    obtain ⟨i, hi, -, hknown⟩ := account_first entries field e rest
      (.inr fun e' he' => hbefore e' (List.mem_cons_of_mem _ he'))
    exact ⟨i, hi, hknown⟩
  next e rest hrest =>
    have he : e.definition.isSome = true := by
      have hhead := List.head?_dropWhile_not (·.definition.isNone) items
      rw [hrest] at hhead
      simpa using hhead
    obtain ⟨i, hi, -, hknown⟩ := account_first entries field e rest (.inl he)
    rw [← hsplit, hrest, account_definition entries hbefore he]
    exact ⟨i, hi, hknown⟩

end Account

/-- What the entries that are kept under an id say of it, in their order. -/
def accounts (entries : Identified) (id : SymbolId) : List Entry :=
  ((kept entries).filter fun e => e.1 = id).map (·.2)

theorem info_describe (e : Entry) (v : SymbolView) :
    (describe entries e v).info = some (mergeInfo v.info (info entries e)) := by
  have hrelate : ∀ (kind : RelationKind) (targets : List SymbolId) (v : SymbolView),
      (targets.foldl (fun v t => v.relate kind t) v).info = v.info := by
    intro kind targets
    induction targets with
    | nil => exact fun _ => rfl
    | cons t rest ih => exact fun v => ih (v.relate kind t)
  rw [describe, hrelate, hrelate]

theorem info?_foldl_backward (id : SymbolId) (l : List (Category × SymbolId × RelationKind))
    (s : Snapshot) (c : Category) (t : SymbolId) :
    (l.foldl (fun s b => s.update b.1 b.2.1 (·.relate b.2.2 id)) s).info? c t = s.info? c t := by
  induction l generalizing s with
  | nil => rfl
  | cons b rest ih =>
    rw [List.foldl_cons, ih]
    exact s.info?_update_of_info _ _ _ _ fun _ => rfl

theorem info?_enter (s : Snapshot) (e : SymbolId × Entry) (c : Category) (t : SymbolId) :
    (enter entries s e.1 e.2).info? c t =
      if (e.1.isUnknown = false ∧ claimed? entries e.1 = some e.2.category) ∧
          e.2.category = c ∧ e.1 = t then
        some (mergeInfo (s.info? c t) (info entries e.2))
      else s.info? c t := by
  rcases enter_cases entries s e.1 e.2 with ⟨hu, h⟩ | ⟨hu, hc, h⟩ | ⟨hu, hc, h⟩ <;> rw [h]
  · have huses : ∀ v : SymbolView, { v with uses := v.uses.insertAll e.2.uses }.info = v.info :=
      fun _ => rfl
    rw [s.info?_update_of_info _ _ _ _ huses]
    simp [hu]
  · simp [hc]
  · rw [info?_foldl_backward, Snapshot.info?_update, info_describe]
    simp only [hu, hc, true_and, eq_comm (a := c), eq_comm (a := t)]
    split
    next h =>
      obtain ⟨rfl, rfl⟩ := h
      rw [Snapshot.info?]
      cases s.find? e.2.category e.1 <;> rfl
    next => rfl

theorem info?_foldl_enter (items : Identified) (s : Snapshot) (c : Category) (t : SymbolId) :
    (items.foldl (fun s e => enter entries s e.1 e.2) s).info? c t =
      account entries (s.info? c t) ((items.filter fun e =>
        (e.1.isUnknown = false ∧ claimed? entries e.1 = some e.2.category) ∧
          e.2.category = c ∧ e.1 = t).map (·.2)) := by
  induction items generalizing s with
  | nil => rfl
  | cons e rest ih =>
    rw [List.foldl_cons, ih, info?_enter, List.filter_cons]
    simp only [decide_eq_true_eq]
    split
    next => rfl
    next => rfl

end Remap

theorem Record.info?_remap (r : Record) (cwd : Option Path) (known : SymbolId → Option Category)
    {c : Category} {x : SymbolId} (hx : x.isUnknown = false)
    (hc : Remap.firstCategory? (Remap.identified r) x = some c) :
    (r.remap cwd known).1.info? c x = Remap.account (Remap.identified r) none
      (Remap.accounts (Remap.identified r) x) := by
  have hstart : ∀ s : Snapshot, s.symbols = .same ∅ → s.info? c x = none := by
    intro s hs
    rw [Snapshot.info?, s.find?_of_no_symbols hs]
    rfl
  rw [Record.remap]
  dsimp only
  rw [Remap.info?_foldl_enter, hstart _ rfl]
  generalize Remap.identified r = entries at hc ⊢
  rw [Remap.accounts, Remap.kept, List.filter_filter]
  congr 2
  refine List.filter_congr fun e _ => ?_
  by_cases he : e.1 = x
  · subst he
    rw [Remap.claimed?_of_known hx, hc]
    by_cases hcat : c = e.2.category
    · simp [hx, hcat]
    · simp [hcat]
  · simp [he]

/-- Where a type lists a symbol as its member or instance, the symbol is held in one category, and what
is known of the field there is the first that the deciding entries name: nothing, exactly when none of them
names a type. -/
theorem Record.remap_field_known (r : Record) (cwd : Option Path)
    (known : SymbolId → Option Category) (field : TypeField) {t x : SymbolId}
    (h : (r.remap cwd known).1.Relates .type t field.backward x) :
    ∃ c i, (∀ d, (r.remap cwd known).1.Holds d x ↔ d = c) ∧
      (r.remap cwd known).1.info? c x = some i ∧
      field.known? i = (Remap.deciding (Remap.accounts (Remap.identified r) x)).findSome?
        (Remap.named? (Remap.identified r) field) ∧
      (field.known? i = none ↔ ∀ e ∈ Remap.deciding (Remap.accounts (Remap.identified r) x),
        Remap.named? (Remap.identified r) field e = none) := by
  obtain ⟨e, he, hcontributes⟩ := (r.relates_remap cwd known _ _ _ _).mp h
  obtain ⟨hmem, hknown, hclaimed⟩ := Remap.mem_kept.mp he
  -- The edges of a type come from backward relations, which name the entry's own id.
  obtain rfl : x = e.1 := by
    rcases hcontributes with ⟨-, -, hforward⟩ | ⟨hx, -⟩
    · cases field <;> simp [Remap.mem_forward, TypeField.backward] at hforward
    · exact hx
  rw [Remap.claimed?_of_known hknown] at hclaimed
  have hne : Remap.accounts (Remap.identified r) e.1 ≠ [] :=
    List.ne_nil_of_mem (List.mem_map.mpr ⟨e, List.mem_filter.mpr ⟨he, by simp⟩, rfl⟩)
  obtain ⟨i, hi, hfield⟩ := Remap.known?_account (Remap.identified r) field hne
  refine ⟨e.2.category, i, fun d => ?_, ?_, hfield, ?_⟩
  · rw [r.holds_remap cwd known d hknown, hclaimed, Option.some.injEq, eq_comm]
    simp
  · rw [r.info?_remap cwd known hknown hclaimed, hi]
  · rw [hfield, List.findSome?_eq_none_iff]

/-- A method that is defined out of line and declared in its class afterwards: the declaration fills in the
class that the definition does not name. -/
theorem owner_filled_in :
    let r : Record := {
      path := ⟨"/src/b.cc"⟩
      modified := 10
      entries := [
        { index := 0, category := .type, signature := "S" },
        { index := 1, category := .func, signature := "S::f",
          definition := some ⟨.onLine 5 6 7, .onLine 5 1 20⟩ },
        { index := 2, category := .func, signature := "S::f", declaringType := some (.entry 0) }] }
    let s := (r.remap (some ⟨"/"⟩) fun _ => none).1
    let owner := SymbolId.ofSignature "S"
    let method := SymbolId.ofSignature "S::f"
    s.Relates .type owner .members method ∧
      ∃ c i, (∀ d, s.Holds d method ↔ d = c) ∧ s.info? c method = some i ∧
        i.declaringType = some owner := by
  intro r s owner method
  have h : s.Relates .type owner .members method := Snapshot.relates_iff.mpr (by decide +kernel)
  obtain ⟨c, i, hc, hi, hfield, -⟩ := r.remap_field_known (some ⟨"/"⟩) (fun _ => none) .owner h
  have hfirst : (Remap.deciding (Remap.accounts (Remap.identified r) method)).findSome?
      (Remap.named? (Remap.identified r) .owner) = some owner := by decide +kernel
  exact ⟨h, c, i, hc, hi, hfield.trans hfirst⟩

/-- The same method declared first: the class lists it as a member, and the definition has set aside what
the declaration said of the class. -/
theorem owner_set_aside :
    let r : Record := {
      path := ⟨"/src/b.cc"⟩
      modified := 10
      entries := [
        { index := 0, category := .type, signature := "S" },
        { index := 1, category := .func, signature := "S::f", declaringType := some (.entry 0) },
        { index := 2, category := .func, signature := "S::f",
          definition := some ⟨.onLine 5 6 7, .onLine 5 1 20⟩ }] }
    let s := (r.remap (some ⟨"/"⟩) fun _ => none).1
    let owner := SymbolId.ofSignature "S"
    let method := SymbolId.ofSignature "S::f"
    s.Relates .type owner .members method ∧ (∀ d, s.Holds d method ↔ d = .func) ∧
      (s.info? .func method).map (·.declaringType) = some none := by
  refine ⟨Snapshot.relates_iff.mpr (by decide +kernel), fun d => ?_, by decide +kernel⟩
  unfold Snapshot.Holds
  cases d <;> decide +kernel

end SymbolIndex
