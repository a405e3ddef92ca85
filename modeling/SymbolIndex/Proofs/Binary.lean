import SymbolIndex.Binary

/-! The binary form is read back. A reader takes what its writer wrote off the front of any input, as
long as the length of what was written fits into eight bytes. -/

namespace SymbolIndex.Binary

variable {α β : Type} {f : α → Bytes} {g : β → Bytes} {read : Reader α} {read' : Reader β}

structure Reads (write : α → Bytes) (read : Reader α) : Prop where
  nonempty : ∀ a, 0 < (write a).length
  reads : ∀ a rest, (write a).length < UInt64.size → read (write a ++ rest) = some (a, rest)

theorem length_natBytes (width n : Nat) : (natBytes width n).length = width := by
  induction width generalizing n with
  | zero => rfl
  | succ width ih => rw [natBytes, List.length_cons, ih]

theorem readNat_natBytes {width n : Nat} (h : n < Nat.pow 256 width) (rest : Bytes) :
    readNat width (natBytes width n ++ rest) = some (n, rest) := by
  induction width generalizing n with
  | zero =>
    have hn : n = 0 := Nat.lt_one_iff.mp h
    rw [hn]
    rfl
  | succ width ih =>
    have hdiv : n / 256 < Nat.pow 256 width := Nat.div_lt_of_lt_mul (by
      rw [Nat.mul_comm]
      exact h)
    rw [natBytes, List.cons_append, readNat, ih hdiv]
    simp only [Option.map_some, UInt8.toNat_ofNat']
    congr 2
    omega

theorem readNat_length {n : Nat} (h : n < UInt64.size) (rest : Bytes) :
    readNat 8 (length n ++ rest) = some (n, rest) :=
  readNat_natBytes h rest

theorem reads_u16 : Reads u16 readU16 where
  nonempty x := by simp [u16, length_natBytes]
  reads x rest _ := by
    have hx : x.toNat < Nat.pow 256 2 := x.toNat_lt
    rw [readU16, u16, readNat_natBytes hx]
    simp

theorem reads_u32 : Reads u32 readU32 where
  nonempty x := by simp [u32, length_natBytes]
  reads x rest _ := by
    have hx : x.toNat < Nat.pow 256 4 := x.toNat_lt
    rw [readU32, u32, readNat_natBytes hx]
    simp

theorem reads_u64 : Reads u64 readU64 where
  nonempty x := by simp [u64, length_natBytes]
  reads x rest _ := by
    have hx : x.toNat < Nat.pow 256 8 := x.toNat_lt
    rw [readU64, u64, readNat_natBytes hx]
    simp

theorem reads_i64 : Reads i64 readI64 where
  nonempty x := reads_u64.nonempty x.toUInt64
  reads x rest h := by
    rw [readI64, i64, reads_u64.reads _ _ h]
    simp

theorem reads_text : Reads text readText where
  nonempty s := by
    rw [text, length, List.length_append, length_natBytes]
    omega
  reads s rest h := by
    rw [text, List.length_append] at h
    have hn : (Bytes.ofText s).length < UInt64.size := by omega
    have hbody : readBytes (Bytes.ofText s).length (Bytes.ofText s ++ rest) =
        some (Bytes.ofText s, rest) := by
      rw [readBytes, if_pos (by simp), List.take_left, List.drop_left]
    rw [readText, text, List.append_assoc, readNat_length hn]
    simp [hbody]

theorem Reads.option (h : Reads f read) : Reads (option f) (readOption read) where
  nonempty a := by cases a <;> simp [Binary.option]
  reads a rest hlen := by
    cases a with
    | none => rfl
    | some a =>
      rw [Binary.option, List.length_cons] at hlen
      rw [Binary.option, List.cons_append, readOption, h.reads a rest (by omega)]
      rfl

theorem Reads.length_le (h : Reads f read) (items : List α) :
    items.length ≤ (items.flatMap f).length := by
  induction items with
  | nil => exact Nat.le_refl _
  | cons a rest ih =>
    have ha := h.nonempty a
    rw [List.flatMap_cons, List.length_append, List.length_cons]
    omega

theorem Reads.many (h : Reads f read) (items : List α) (rest : Bytes)
    (hlen : (items.flatMap f).length < UInt64.size) :
    readMany read items.length (items.flatMap f ++ rest) = some (items, rest) := by
  induction items with
  | nil => rfl
  | cons a items ih =>
    rw [List.flatMap_cons, List.length_append] at hlen
    rw [List.flatMap_cons, List.append_assoc, List.length_cons, readMany,
      h.reads a _ (by omega)]
    dsimp only
    rw [ih (by omega)]
    rfl

theorem Reads.list (h : Reads f read) : Reads (list f) (readList read) where
  nonempty items := by
    rw [Binary.list, length, List.length_append, length_natBytes]
    omega
  reads items rest hlen := by
    rw [Binary.list, List.length_append] at hlen
    have hle := h.length_le items
    rw [Binary.list, List.append_assoc, readList, readNat_length (by omega), Option.bind_some,
      h.many items rest (by omega)]

theorem Reads.pair (h : Reads f read) (h' : Reads g read') :
    Reads (fun e : α × β => f e.1 ++ g e.2) (readPair read read') where
  nonempty e := by
    have he := h.nonempty e.1
    rw [List.length_append]
    omega
  reads e rest hlen := by
    rw [List.length_append] at hlen
    rw [readPair, List.append_assoc, h.reads e.1 _ (by omega)]
    simp [h'.reads e.2 rest (by omega)]

theorem Reads.set [Ord α] [Std.TransOrd α] (h : Reads f read) :
    Reads (set f) (readSet read) where
  nonempty s := h.list.nonempty s.toList
  reads s rest hlen := by
    rw [readSet, Binary.set, h.list.reads _ _ hlen, Option.map_some, OrderedSet.ofList_toList]

theorem Reads.map [Ord α] [Std.TransOrd α] (h : Reads f read) (h' : Reads g read') :
    Reads (map f g) (readMap read read') where
  nonempty m := (h.pair h').list.nonempty m.entries
  reads m rest hlen := by
    rw [readMap, Binary.map, (h.pair h').list.reads _ _ hlen, Option.map_some,
      OrderedMap.ofList_entries]

theorem limit_lt : limit < UInt64.size := by decide

/-- A value that is too long is written and cannot be read back. -/
theorem Reads.decode (h : Reads f read) (a : α) :
    decode? read (f a) = if (f a).length ≤ limit then some a else none := by
  by_cases hlen : (f a).length ≤ limit
  · have hread := h.reads a [] (Nat.lt_of_le_of_lt hlen limit_lt)
    rw [List.append_nil] at hread
    rw [decode?, hread]
  · rw [decode?]
    split
    next => rw [if_neg hlen, if_neg hlen]
    next => rw [if_neg hlen]

theorem Reads.decodeFront (h : Reads f read) (a : α) (rest : Bytes)
    (hlen : (f a).length ≤ limit) : decodeFront? read (f a ++ rest) = some a := by
  rw [decodeFront?, h.reads a rest (Nat.lt_of_le_of_lt hlen limit_lt)]
  dsimp only
  rw [List.length_append, if_pos (by omega)]

end SymbolIndex.Binary
