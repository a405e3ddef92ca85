import SymbolIndex.Proofs.Snapshot.Binary

/-! A reader of the binary form does not look past what it takes (`Stable`). So no value is written as
the front of another, and what a value was cut down to is not the form of any. -/

namespace SymbolIndex

namespace Binary

variable {α β : Type}

/-- Bytes that come after what a reader took are left to the next one. -/
def Stable (read : Reader α) : Prop :=
  ∀ ⦃bytes a rest⦄, read bytes = some (a, rest) → ∀ more, read (bytes ++ more) = some (a, rest ++ more)

theorem stable_pure (a : α) : Stable fun bytes => pure (a, bytes) := by
  intro bytes b rest h more
  cases h
  rfl

/-- A value that is looked up rather than read. -/
theorem stable_lift (found : Option α) : Stable fun bytes => found >>= fun a => pure (a, bytes) := by
  cases found with
  | none =>
    intro bytes a rest h
    cases h
  | some a => exact stable_pure a

theorem Stable.bind {read : Reader α} {next : α × Bytes → Option (β × Bytes)} (h : Stable read)
    (hnext : ∀ a, Stable fun bytes => next (a, bytes)) : Stable fun bytes => read bytes >>= next := by
  intro bytes b rest hread more
  obtain ⟨⟨a, between⟩, ha, hb⟩ := Option.bind_eq_some_iff.mp hread
  dsimp only
  rw [h ha more]
  exact hnext a hb more

theorem Stable.map {read : Reader α} (h : Stable read) (f : α → β) :
    Stable fun bytes => (read bytes).map fun r => (f r.1, r.2) := by
  intro bytes b rest hread more
  obtain ⟨⟨a, between⟩, ha, hb⟩ := Option.map_eq_some_iff.mp hread
  cases hb
  dsimp only
  rw [h ha more]
  rfl

theorem stable_readNat (width : Nat) : Stable (readNat width) := by
  induction width with
  | zero => exact stable_pure 0
  | succ width ih =>
    intro bytes n rest h more
    cases bytes with
    | nil => cases h
    | cons b bytes => exact ih.map (fun n => b.toNat + 256 * n) h more

theorem stable_readU16 : Stable readU16 := (stable_readNat 2).map _

theorem stable_readU32 : Stable readU32 := (stable_readNat 4).map _

theorem stable_readU64 : Stable readU64 := (stable_readNat 8).map _

theorem stable_readI64 : Stable readI64 := stable_readU64.map _

theorem stable_readBytes (n : Nat) : Stable (readBytes n) := by
  intro bytes front rest h more
  rw [readBytes] at h ⊢
  split at h
  next hn =>
    cases h
    rw [if_pos (by rw [List.length_append]; omega), List.take_append_of_le_length hn,
      List.drop_append_of_le_length hn]
  next => cases h

theorem stable_readText : Stable readText :=
  (stable_readNat 8).bind fun n => (stable_readBytes n).bind fun _ => stable_lift _

section Combinators

variable {read : Reader α} {read' : Reader β} (h : Stable read) (h' : Stable read')

include h

theorem Stable.option : Stable (readOption read) := by
  intro bytes a rest hread more
  unfold readOption at hread
  split at hread
  next => cases hread; rfl
  next rest' => exact h.map some hread more
  next => cases hread

theorem Stable.many (count : Nat) : Stable (readMany read count) := by
  induction count with
  | zero => exact stable_pure []
  | succ count ih =>
    intro bytes items rest hread more
    rw [readMany] at hread ⊢
    split at hread
    next => cases hread
    next a between ha =>
      rw [h ha more]
      exact ih.map (a :: ·) hread more

theorem Stable.list : Stable (readList read) :=
  (stable_readNat 8).bind fun n => h.many n

theorem Stable.set [Ord α] [Std.TransOrd α] : Stable (readSet read) := h.list.map _

include h'

theorem Stable.pair : Stable (readPair read read') :=
  h.bind fun _ => h'.bind fun _ => stable_pure _

theorem Stable.table [Ord α] [Std.TransOrd α] : Stable (readMap read read') :=
  (h.pair h').list.map _

end Combinators

section Decode

variable {write : α → Bytes} {read : Reader α} (hr : Reads write read) (hs : Stable read)
  {a : α} (ha : (write a).length < UInt64.size)

include hr ha

/-- Nothing can follow a value. -/
theorem decode?_extension {more : Bytes} (hmore : more ≠ []) : decode? read (write a ++ more) = none := by
  obtain ⟨b, more, rfl⟩ := List.exists_cons_of_ne_nil hmore
  rw [decode?, hr.reads a _ ha]

include hs

/-- A value that was cut short cannot be read: the reader that would be content with less would leave
the rest of the value where nothing is left. -/
theorem decode?_truncation {bytes more : Bytes} (hcut : write a = bytes ++ more) (hmore : more ≠ []) :
    decode? read bytes = none := by
  have hwhole := hr.reads a [] ha
  rw [List.append_nil, hcut] at hwhole
  cases hread : read bytes with
  | none => rw [decode?, hread]
  | some result =>
    obtain ⟨b, rest⟩ := result
    rw [hs hread more, Option.some.injEq, Prod.mk.injEq] at hwhole
    exact absurd (List.append_eq_nil_iff.mp hwhole.2).2 hmore

end Decode

end Binary

open Binary

theorem stable_symbolId : Stable SymbolId.ofBinary := stable_readU64.map _

theorem stable_path : Stable Path.ofBinary := stable_readText.map _

theorem stable_readChoice {α : Type} (all : List α) : Stable (readChoice all) :=
  stable_readU32.bind fun _ => stable_lift _

theorem stable_span : Stable Span.ofBinary :=
  stable_readU32.bind fun _ => stable_readU32.bind fun _ => stable_readU32.bind fun _ =>
    stable_readU32.bind fun _ => stable_pure _

theorem stable_use : Stable Use.ofBinary :=
  stable_span.bind fun _ => stable_readU16.bind fun _ => stable_pure _

theorem stable_symbolInfo : Stable SymbolInfo.ofBinary :=
  stable_readText.bind fun _ => stable_readU16.bind fun _ => stable_readU16.bind fun _ =>
    stable_span.option.bind fun _ => stable_span.option.bind fun _ =>
    (stable_readChoice _).bind fun _ => stable_symbolId.option.bind fun _ =>
    stable_symbolId.option.bind fun _ => stable_pure _

theorem stable_symbolView : Stable SymbolView.ofBinary :=
  stable_symbolInfo.option.bind fun _ => stable_span.set.bind fun _ => stable_use.set.bind fun _ =>
    ((stable_readChoice _).table stable_symbolId.set).bind fun _ => stable_pure _

theorem stable_symbols : Stable Snapshot.symbolsOfBinary := stable_symbolId.table stable_symbolView

theorem stable_snapshot : Stable Snapshot.ofBinary :=
  stable_path.bind fun _ => stable_readI64.bind fun _ => stable_readText.list.bind fun _ =>
    (stable_path.table stable_readI64.option).bind fun _ => stable_symbols.bind fun _ =>
    stable_symbols.bind fun _ => stable_symbols.bind fun _ => stable_pure _

end SymbolIndex
