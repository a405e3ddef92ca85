import SymbolIndex.Proofs.Json.Shape
import SymbolIndex.Snapshot.Json

/-! Symbols and snapshots are read back from JSON, field after field. -/

namespace SymbolIndex

open Json

theorem restores_symbolId : Restores SymbolId.toJson SymbolId.ofJson? where
  writable id := restores_u64.writable id.value
  reads id := by
    rw [SymbolId.ofJson?, SymbolId.toJson, restores_u64.reads id.value]
    rfl

theorem restores_path : Restores Path.toJson Path.ofJson? where
  writable p := restores_text.writable p.text
  reads p := by
    rw [Path.ofJson?, Path.toJson, restores_text.reads]
    rfl

theorem restores_storageClass :
    Restores (fun s : StorageClass => ofText s.name) StorageClass.ofJson? where
  writable s := restores_text.writable s.name
  reads s := by
    rw [StorageClass.ofJson?, ofText, bareChoice?, choice?, bodyText?_escape]
    cases s <;> decide

theorem restores_span : Restores Span.toJson Span.ofJson? where
  writable s := writable_ofFields (by simp [writable_ofNat])
  reads s := by
    rw [Span.ofJson?, Span.toJson, members?_record]
    · simp [Members.required, List.lookup_cons, restores_u32.reads]
    · rfl
    · decide

theorem restores_use : Restores Use.toJson Use.ofJson? where
  writable u := writable_ofFields (by simp [writable_ofNat, restores_span.writable])
  reads u := by
    rw [Use.ofJson?, Use.toJson, members?_record]
    · simp [Members.required, List.lookup_cons, restores_span.reads, restores_u16.reads]
    · rfl
    · decide

theorem restores_spans : Restores (ofOption Span.toJson) (option? Span.ofJson?) :=
  restores_span.option fun _ => Json.noConfusion

theorem restores_symbolIds : Restores (ofOption SymbolId.toJson) (option? SymbolId.ofJson?) :=
  restores_symbolId.option fun _ => Json.noConfusion

theorem restores_symbolInfo : Restores SymbolInfo.toJson SymbolInfo.ofJson? where
  writable info := writable_ofFields (by
    simp [writable_ofNat, restores_text.writable, restores_spans.writable,
      restores_symbolIds.writable])
  reads info := by
    rw [SymbolInfo.ofJson?, SymbolInfo.toJson, members?_record]
    -- a step for each field: the congruence lemma for binds makes simp go over the rest each time
    · dsimp only [Members.required, Members.optional, Option.pure_def, Option.bind_eq_bind,
        Option.bind_some, List.lookup_cons, String.reduceBEq]
      rw [restores_text.reads, Option.bind_some, restores_u16.reads, Option.bind_some,
        restores_u16.reads, Option.bind_some, restores_spans.reads, Option.bind_some,
        restores_spans.reads, Option.bind_some, restores_storageClass.reads, Option.bind_some,
        restores_symbolIds.reads, Option.bind_some, restores_symbolIds.reads, Option.bind_some]
    · rfl
    · decide

theorem relationOfKey?_escape (k : RelationKind) :
    SymbolView.relationOfKey? (escape k.name) = some k := by
  rw [SymbolView.relationOfKey?, bodyText?_escape]
  cases k <;> decide

theorem restores_relations : Restores SymbolView.relationsToJson
    (map? SymbolView.relationOfKey? (set? SymbolId.ofJson?)) := by
  have h := restores_symbolId.set.map (fun k : RelationKind => quotable_escape k.name)
    relationOfKey?_escape
  refine ⟨fun m => ?_, fun m => ?_⟩
  · have hw := h.writable m
    simpa [SymbolView.relationsToJson, ofFields, Function.comp_def] using hw
  · have hr := h.reads m
    simpa [SymbolView.relationsToJson, ofFields, Function.comp_def] using hr

theorem restores_symbolView : Restores SymbolView.toJson SymbolView.ofJson? where
  writable v := writable_ofFields (by
    have hinfo : Restores (ofOption SymbolInfo.toJson) (option? SymbolInfo.ofJson?) :=
      restores_symbolInfo.option fun _ => Json.noConfusion
    simp [hinfo.writable, restores_span.set.writable, restores_use.set.writable,
      restores_relations.writable])
  reads v := by
    have hinfo : Restores (ofOption SymbolInfo.toJson) (option? SymbolInfo.ofJson?) :=
      restores_symbolInfo.option fun _ => Json.noConfusion
    rw [SymbolView.ofJson?, SymbolView.toJson, members?_record]
    · simp [Members.required, Members.optional, List.lookup_cons, hinfo.reads, restores_span.set.reads,
        restores_use.set.reads, restores_relations.reads]
    · rfl
    · decide

theorem restores_symbols : Restores Snapshot.symbolsToJson Snapshot.symbolsOfJson? :=
  restores_symbolView.map (fun id : SymbolId => quotable_key64 id.value) fun id => by
    rw [SymbolId.ofKey?, SymbolId.key, ofKey64?_key64]
    rfl

theorem restores_times : Restores (ofOption Snapshot.timeToJson) (option? i64?) :=
  restores_i64.option fun _ => Json.noConfusion

theorem pathOfKey?_escape (p : Path) : Snapshot.pathOfKey? (escape p.text) = some p := by
  rw [Snapshot.pathOfKey?, bodyText?_escape]
  rfl

theorem restores_dependencies : Restores
    (fun m : OrderedMap Path (Option Timestamp) => .ofFields (m.entries.map fun e =>
      (e.1.text, ofOption Snapshot.timeToJson e.2)))
    (map? Snapshot.pathOfKey? (option? i64?)) := by
  have h := restores_times.map (fun p : Path => quotable_escape p.text) pathOfKey?_escape
  refine ⟨fun m => ?_, fun m => ?_⟩
  · have hw := h.writable m
    simpa [ofFields, Function.comp_def] using hw
  · have hr := h.reads m
    simpa [ofFields, Function.comp_def] using hr

theorem restores_snapshot : Restores Snapshot.toJson Snapshot.ofJson? where
  writable s := writable_ofFields (by
    simp [restores_path.writable, restores_text.list.writable, restores_dependencies.writable,
      restores_symbols.writable, Snapshot.timeToJson, writable_ofInt])
  reads s := by
    rw [Snapshot.ofJson?, Snapshot.toJson, members?_record]
    · simp [Members.required, Snapshot.timeToJson, List.lookup_cons, restores_path.reads,
        restores_i64.reads, restores_text.list.reads, restores_dependencies.reads,
        restores_symbols.reads]
    · rfl
    · decide

end SymbolIndex
