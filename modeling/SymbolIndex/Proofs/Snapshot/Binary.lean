import SymbolIndex.Proofs.Binary
import SymbolIndex.Snapshot.Binary

/-! Symbols and snapshots are read back from their binary form, field after field. -/

namespace SymbolIndex

open Binary

theorem reads_symbolId : Reads SymbolId.toBinary SymbolId.ofBinary where
  nonempty id := reads_u64.nonempty id.value
  reads id rest h := by
    rw [SymbolId.ofBinary, SymbolId.toBinary, reads_u64.reads _ _ h]
    rfl

theorem reads_path : Reads Path.toBinary Path.ofBinary where
  nonempty p := reads_text.nonempty p.text
  reads p rest h := by
    rw [Path.ofBinary, Path.toBinary, reads_text.reads _ _ h]
    rfl

theorem readChoice_ctorIdx {α : Type} {all : List α} {i : Nat} {a : α} (h : all[i]? = some a)
    (hi : i < UInt32.size) (rest : Bytes) :
    readChoice all (u32 (.ofNat i) ++ rest) = some (a, rest) := by
  have hlen : (u32 (.ofNat i)).length < UInt64.size := by
    rw [u32, length_natBytes]
    decide
  have hn : (UInt32.ofNat i).toNat = i := UInt32.toNat_ofNat_of_lt' hi
  rw [readChoice, reads_u32.reads _ _ hlen]
  simp [hn, h]

theorem reads_storageClass : Reads StorageClass.toBinary StorageClass.ofBinary where
  nonempty s := reads_u32.nonempty _
  reads s rest _ := by
    cases s <;> exact readChoice_ctorIdx rfl (by decide) rest

theorem reads_relationKind : Reads RelationKind.toBinary RelationKind.ofBinary where
  nonempty k := reads_u32.nonempty _
  reads k rest _ := by
    cases k <;> exact readChoice_ctorIdx rfl (by decide) rest

theorem reads_span : Reads Span.toBinary Span.ofBinary where
  nonempty s := by
    have h := reads_u32.nonempty s.startLine
    simp only [Span.toBinary, List.length_append]
    omega
  reads s rest h := by
    simp only [Span.toBinary, List.length_append] at h
    simp (disch := omega) [Span.toBinary, Span.ofBinary, reads_u32.reads]

theorem reads_use : Reads Use.toBinary Use.ofBinary where
  nonempty u := by
    have h := reads_span.nonempty u.span
    simp only [Use.toBinary, List.length_append]
    omega
  reads u rest h := by
    simp only [Use.toBinary, List.length_append] at h
    simp (disch := omega) [Use.toBinary, Use.ofBinary, reads_span.reads, reads_u16.reads]

theorem reads_symbolInfo : Reads SymbolInfo.toBinary SymbolInfo.ofBinary where
  nonempty info := by
    have h := reads_text.nonempty info.name
    simp only [SymbolInfo.toBinary, List.length_append]
    omega
  reads info rest h := by
    simp only [SymbolInfo.toBinary, List.length_append] at h
    simp (disch := omega) [SymbolInfo.toBinary, SymbolInfo.ofBinary, reads_text.reads,
      reads_u16.reads, reads_span.option.reads, reads_storageClass.reads,
      reads_symbolId.option.reads]

theorem reads_symbolView : Reads SymbolView.toBinary SymbolView.ofBinary where
  nonempty v := by
    have h := reads_symbolInfo.option.nonempty v.info
    simp only [SymbolView.toBinary, List.length_append]
    omega
  reads v rest h := by
    simp only [SymbolView.toBinary, List.length_append] at h
    simp (disch := omega) [SymbolView.toBinary, SymbolView.ofBinary, reads_symbolInfo.option.reads,
      reads_span.set.reads, reads_use.set.reads,
      (reads_relationKind.map reads_symbolId.set).reads]

theorem reads_symbols : Reads Snapshot.symbolsToBinary Snapshot.symbolsOfBinary :=
  reads_symbolId.map reads_symbolView

theorem reads_snapshot : Reads Snapshot.toBinary Snapshot.ofBinary where
  nonempty s := by
    have h := reads_path.nonempty s.path
    simp only [Snapshot.toBinary, List.length_append]
    omega
  reads s rest h := by
    simp only [Snapshot.toBinary, List.length_append] at h
    simp (disch := omega) [Snapshot.toBinary, Snapshot.ofBinary, reads_path.reads, reads_i64.reads,
      reads_text.list.reads, (reads_path.map reads_i64.option).reads, reads_symbols.reads]

end SymbolIndex
