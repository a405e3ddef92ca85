import SymbolIndex.Json.Shape
import SymbolIndex.Proofs.Json.Document

/-! Values of known shape are read back from the documents they are written as. -/

namespace SymbolIndex.Json

structure Restores {α : Type} (write : α → Json) (read : Json → Option α) : Prop where
  writable : ∀ a, Writable (write a)
  reads : ∀ a, read (write a) = some a

variable {α κ : Type} {f : α → Json} {read : Json → Option α}

theorem numeric_toString (n : Int) : Numeric (Bytes.ofText (toString n)) where
  reads _ := readNumber_toString n
  head := by
    rw [ofText_toString_int]
    split
    next =>
      obtain ⟨b, rest, h, hb⟩ := exists_digits n.toNat
      exact ⟨b, rest, h, .inr hb⟩
    next => exact ⟨0x2d, _, rfl, .inl rfl⟩

theorem writable_ofInt (n : Int) : Writable (ofInt n) := .number (numeric_toString n)

theorem writable_ofNat (n : Nat) : Writable (ofNat n) := writable_ofInt n

theorem int?_ofInt (n : Int) : (ofInt n).int? = some n := intLiteral?_toString n

theorem natBelow?_ofNat {n bound : Nat} (h : n < bound) : (ofNat n).natBelow? bound = some n := by
  have hint : (ofNat n).int? = some (n : Int) := int?_ofInt n
  rw [natBelow?, hint, Option.bind_some, if_pos ⟨by omega, by omega⟩, Int.toNat_natCast]

theorem restores_u64 : Restores (fun x : UInt64 => ofNat x.toNat) u64? where
  writable x := writable_ofNat _
  reads x := by rw [u64?, natBelow?_ofNat x.toNat_lt, Option.map_some, UInt64.ofNat_toNat]

theorem restores_u32 : Restores (fun x : UInt32 => ofNat x.toNat) u32? where
  writable x := writable_ofNat _
  reads x := by rw [u32?, natBelow?_ofNat x.toNat_lt, Option.map_some, UInt32.ofNat_toNat]

theorem restores_u16 : Restores (fun x : UInt16 => ofNat x.toNat) u16? where
  writable x := writable_ofNat _
  reads x := by rw [u16?, natBelow?_ofNat x.toNat_lt, Option.map_some, UInt16.ofNat_toNat]

theorem restores_i64 : Restores (fun x : Int64 => ofInt x.toInt) i64? where
  writable x := writable_ofInt _
  reads x := by
    rw [i64?, int?_ofInt, Option.bind_some, if_pos ⟨x.minValue_le_toInt, x.toInt_le⟩,
      Int64.ofInt_toInt]

theorem quotable_escape (s : String) : Quotable (escape s) := readBody_escape s

theorem restores_text : Restores ofText text? where
  writable s := .string (quotable_escape s)
  reads := bodyText?_escape

theorem Restores.option (h : Restores f read) (hn : ∀ a, f a ≠ .null) :
    Restores (ofOption f) (option? read) where
  writable a := by
    cases a with
    | none => exact .null
    | some a => exact h.writable a
  reads a := by
    cases a with
    | none => rfl
    | some a =>
      rw [ofOption, option?, h.reads]
      · rfl
      · exact fun he => hn a he

theorem mapM_map {β γ : Type} {g : β → γ} {k : γ → Option α} {k' : β → α} {items : List β}
    (h : ∀ b ∈ items, k (g b) = some (k' b)) : (items.map g).mapM k = some (items.map k') := by
  induction items with
  | nil => rfl
  | cons b items ih =>
    obtain ⟨hb, hitems⟩ := List.forall_mem_cons.mp h
    rw [List.map_cons, List.mapM_cons, hb, ih hitems]
    rfl

theorem Restores.list (h : Restores f read) : Restores (ofList f) (list? read) where
  writable items := .array fun j hj => by
    obtain ⟨a, _, rfl⟩ := List.mem_map.mp hj
    exact h.writable a
  reads items := by
    rw [ofList, list?, mapM_map fun a _ => h.reads a]
    exact congrArg some (List.map_id items)

theorem Restores.set [Ord α] [Std.TransOrd α] (h : Restores f read) :
    Restores (fun s : OrderedSet α => ofList f s.toList) (set? read) where
  writable s := h.list.writable s.toList
  reads s := by rw [set?, h.list.reads, Option.map_some, OrderedSet.ofList_toList]

theorem Restores.map [Ord κ] [Std.TransOrd κ] {key : κ → Bytes} {readKey : Bytes → Option κ}
    (h : Restores f read) (hq : ∀ k, Quotable (key k)) (hk : ∀ k, readKey (key k) = some k) :
    Restores (fun m : OrderedMap κ α => .object (m.entries.map fun e => (key e.1, f e.2)))
      (map? readKey read) where
  writable m := by
    refine .object (fun e he => ?_) fun e he => ?_
    · obtain ⟨e, _, rfl⟩ := List.mem_map.mp he
      exact hq e.1
    · obtain ⟨e, _, rfl⟩ := List.mem_map.mp he
      exact h.writable e.2
  reads m := by
    have hentry : ∀ e ∈ m.entries, ((readKey (key e.1)).bind fun k =>
        (read (f e.2)).map (k, ·)) = some e := by
      intro e _
      rw [hk, h.reads]
      rfl
    rw [map?, mapM_map hentry, List.map_id', Option.map_some, OrderedMap.ofList_entries]

theorem literal_of_isDigit {b : UInt8} (h : isDigit b = true) : Literal b := by
  refine ⟨?_, ?_, fun hlt => ?_⟩
  · rintro rfl
    exact absurd h (by decide)
  · rintro rfl
    exact absurd h (by decide)
  · rw [isDigit, decide_eq_true_eq, UInt8.le_iff_toNat_le] at h
    have hlow : 48 ≤ b.toNat := h.1
    have hhigh : b.toNat < 32 := UInt8.lt_iff_toNat_lt.mp hlt
    omega

theorem quotable_key64 (n : UInt64) : Quotable (key64 n) := by
  intro rest
  rw [key64, ofText_toString_nat, readBody_append fun b hb =>
    literal_of_isDigit (isDigit_of_mem_digits b hb)]
  simp [readBody]

theorem ofKey64?_key64 (n : UInt64) : ofKey64? (key64 n) = some n := by
  rw [ofKey64?, key64, ofText_toString_nat, natLiteral?_digits, Option.bind_some,
    if_pos n.toNat_lt, UInt64.ofNat_toNat]

theorem writable_ofFields {fields : List (String × Json)} (h : ∀ e ∈ fields, Writable e.2) :
    Writable (ofFields fields) := by
  refine .object (fun e he => ?_) fun e he => ?_
  · obtain ⟨e', _, rfl⟩ := List.mem_map.mp he
    exact quotable_escape e'.1
  · obtain ⟨e', he', rfl⟩ := List.mem_map.mp he
    exact h e' he'

/-- The fields of a record are found again, and others are passed over. -/
theorem members?_ofFields {names : List String} {fields : List (String × Json)}
    (h : ((fields.filter fun e => names.contains e.1).map (·.1)).Nodup) :
    (ofFields fields).members? names =
      some ⟨false, fields.filter fun e => names.contains e.1⟩ := by
  have hnamed : ∀ e ∈ fields, (bodyText? (escape e.1)).map (·, e.2) = some e := by
    intro e _
    rw [bodyText?_escape]
    rfl
  rw [ofFields, members?, mapM_map hnamed, List.map_id']
  exact if_pos h

theorem members?_record {names : List String} {fields : List (String × Json)}
    (hf : fields.map (·.1) = names) (h : names.Nodup) :
    (ofFields fields).members? names = some ⟨false, fields⟩ := by
  have hfilter : fields.filter (fun e => names.contains e.1) = fields := by
    refine List.filter_eq_self.mpr fun e he => ?_
    rw [← hf]
    simpa using ⟨e.2, he⟩
  rw [members?_ofFields, hfilter]
  rw [hfilter, hf]
  exact h

end SymbolIndex.Json
