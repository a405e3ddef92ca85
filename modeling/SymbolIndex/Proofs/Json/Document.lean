import SymbolIndex.Proofs.Json

/-! A document is read back from its text. The values of a document may stand next to each other
because each ends where a comma or a closing bracket begins. -/

namespace SymbolIndex.Json

/-- What stands between quotes is read as a whole. -/
def Quotable (body : Bytes) : Prop :=
  ∀ rest, readBody (body ++ 0x22 :: rest) = some (body, rest)

structure Numeric (literal : Bytes) : Prop where
  reads : ∀ rest, Stops rest → readNumber (literal ++ rest) = some (literal, rest)
  head : ∃ b rest, literal = b :: rest ∧ (b = 0x2d ∨ isDigit b = true)

inductive Writable : Json → Prop
  | null : Writable .null
  | bool (b : Bool) : Writable (.bool b)
  | number {literal : Bytes} (h : Numeric literal) : Writable (.number literal)
  | string {body : Bytes} (h : Quotable body) : Writable (.string body)
  | array {items : List Json} (h : ∀ j ∈ items, Writable j) : Writable (.array items)
  | object {fields : List (Bytes × Json)} (hn : ∀ e ∈ fields, Quotable e.1)
    (h : ∀ e ∈ fields, Writable e.2) : Writable (.object fields)

/-- Items with commas between them and a bracket at the end. -/
def joined {α : Type} (write : α → Bytes) (close : UInt8) : List α → Bytes
  | [] => [close]
  | [a] => write a ++ [close]
  | a :: b :: items => write a ++ 0x2c :: joined write close (b :: items)

def renderField (e : Bytes × Json) : Bytes := 0x22 :: (e.1 ++ 0x22 :: 0x3a :: render e.2)

theorem renderItems_eq (items : List Json) : renderItems items = joined render 0x5d items := by
  induction items with
  | nil => simp [renderItems, joined]
  | cons item items ih => cases items <;> simp_all [renderItems, joined]

theorem renderFields_eq (fields : List (Bytes × Json)) :
    renderFields fields = joined renderField 0x7d fields := by
  induction fields with
  | nil => simp [renderFields, joined]
  | cons e fields ih => cases fields <;> simp_all [renderFields, joined, renderField]

section Joined

variable {α : Type} {write : α → Bytes} {close : UInt8}

theorem length_joined {items : List α} : items.length ≤ (joined write close items).length ∧
    ∀ a ∈ items, (write a).length < (joined write close items).length := by
  induction items with
  | nil => exact ⟨Nat.zero_le _, fun _ h => absurd h List.not_mem_nil⟩
  | cons a items ih =>
    cases items with
    | nil =>
      rw [joined]
      refine ⟨by simp, fun b hb => ?_⟩
      rw [List.mem_singleton.mp hb]
      simp
    | cons c items =>
      rw [joined]
      simp only [List.length_append, List.length_cons] at ih ⊢
      refine ⟨by omega, fun b hb => ?_⟩
      rcases List.mem_cons.mp hb with rfl | hb
      · omega
      · have hlt := ih.2 b hb
        omega

theorem skipBlanks_cons {b : UInt8} (h : isBlank b = false) (rest : Bytes) :
    skipBlanks (b :: rest) = b :: rest := by
  rw [skipBlanks, List.dropWhile_cons_of_neg (by simp [h])]

theorem stops_close (hc : close = 0x5d ∨ close = 0x7d ∨ close = 0x2c) (rest : Bytes) :
    Stops (close :: rest) := by
  rcases hc with rfl | rfl | rfl <;> exact ⟨by decide, by decide, by decide, by decide⟩

theorem readSeparated_joined {item : Bytes → Option (α × Bytes)}
    (hc : close = 0x5d ∨ close = 0x7d) {items : List α} (hne : items ≠ [])
    (hitem : ∀ a ∈ items, ∀ rest, Stops rest → item (write a ++ rest) = some (a, rest))
    (fuel : Nat) (hf : items.length ≤ fuel) (rest : Bytes) :
    readSeparated item close fuel (joined write close items ++ rest) = some (items, rest) := by
  have hblank : isBlank close = false := by rcases hc with rfl | rfl <;> decide
  induction items generalizing fuel with
  | nil => exact absurd rfl hne
  | cons a items ih =>
    obtain ⟨fuel, rfl⟩ := Nat.exists_eq_add_one.mpr (Nat.lt_of_lt_of_le (Nat.succ_pos _) hf)
    obtain ⟨ha, hitems⟩ := List.forall_mem_cons.mp hitem
    cases items with
    | nil =>
      rw [joined, readSeparated, List.append_assoc, List.singleton_append,
        ha _ (stops_close (hc.imp_right .inl) _)]
      dsimp only
      rw [skipBlanks_cons hblank]
      dsimp only
      rw [if_pos rfl]
    | cons b items =>
      have hcomma : (0x2c : UInt8) ≠ close := by rcases hc with rfl | rfl <;> decide
      rw [joined, readSeparated, List.append_assoc, List.cons_append,
        ha _ (stops_close (.inr (.inr rfl)) _)]
      dsimp only
      rw [skipBlanks_cons (by decide)]
      dsimp only
      rw [if_neg hcomma, if_pos rfl,
        ih (by simp) hitems fuel (by rw [List.length_cons] at hf; omega)]
      rfl

end Joined

theorem readField_renderField {value : Bytes → Option (Json × Bytes)} {e : Bytes × Json}
    (hn : Quotable e.1) {rest : Bytes} (hv : value (render e.2 ++ rest) = some (e.2, rest)) :
    readField value (renderField e ++ rest) = some (e, rest) := by
  have hread := hn (0x3a :: (render e.2 ++ rest))
  rw [readField, renderField, List.cons_append, skipBlanks_cons (by decide), List.append_assoc,
    List.cons_append, List.cons_append]
  simp only [hread, bind, Option.bind_some]
  rw [skipBlanks_cons (by decide)]
  simp only [hv, Option.map_some]

theorem readValue_string (fuel : Nat) (rest : Bytes) : readValue (fuel + 1) (0x22 :: rest) =
    (readBody rest).map fun r => (.string r.1, r.2) := rfl

theorem readValue_array (fuel : Nat) {b : UInt8} {rest : Bytes} (h : isBlank b = false)
    (hb : b ≠ 0x5d) : readValue (fuel + 1) (0x5b :: b :: rest) =
      (readSeparated (readValue fuel) 0x5d fuel (b :: rest)).map fun r => (.array r.1, r.2) := by
  rw [readValue, skipBlanks_cons (by decide)]
  simp only [skipBlanks_cons h]
  split
  next he => exact absurd (List.cons.inj he).1 hb
  next => rfl

theorem readValue_object (fuel : Nat) (rest : Bytes) : readValue (fuel + 1) (0x7b :: 0x22 :: rest) =
    (readSeparated (readField (readValue fuel)) 0x7d fuel (0x22 :: rest)).map fun r =>
      (.object r.1, r.2) := rfl

theorem isBlank_head {b : UInt8} (h : b = 0x2d ∨ isDigit b = true) : isBlank b = false := by
  refine Bool.eq_false_iff.mpr fun hb => ?_
  rw [isBlank, decide_eq_true_eq] at hb
  rcases hb with rfl | rfl | rfl | rfl <;> exact absurd h (by decide)

theorem readValue_number (fuel : Nat) {b : UInt8} {rest : Bytes} (h : b = 0x2d ∨ isDigit b = true) :
    readValue (fuel + 1) (b :: rest) = (readNumber (b :: rest)).map fun r => (.number r.1, r.2) := by
  rw [readValue, skipBlanks_cons (isBlank_head h)]
  split
  next he => cases he; exact absurd h (by decide)
  next he => cases he; exact absurd h (by decide)
  next he => cases he; exact absurd h (by decide)
  next he => cases he; exact absurd h (by decide)
  next he => cases he; exact absurd h (by decide)
  next he => cases he; exact absurd h (by decide)
  next => rfl

theorem Writable.head {j : Json} (h : Writable j) :
    ∃ b rest, render j = b :: rest ∧ isBlank b = false ∧ b ≠ 0x5d := by
  cases h with
  | null => exact ⟨0x6e, _, rfl, by decide, by decide⟩
  | bool b => cases b <;> exact ⟨_, _, rfl, by decide, by decide⟩
  | number h =>
    obtain ⟨b, rest, hb, hhead⟩ := h.head
    refine ⟨b, rest, by rw [render, hb], isBlank_head hhead, fun he => ?_⟩
    rw [he] at hhead
    exact absurd hhead (by decide)
  | string h => exact ⟨0x22, _, by rw [render], by decide, by decide⟩
  | array h => exact ⟨0x5b, _, by rw [render], by decide, by decide⟩
  | object hn h => exact ⟨0x7b, _, by rw [render], by decide, by decide⟩

theorem joined_front {α : Type} {write : α → Bytes} {b : UInt8} {a : α} {more : Bytes}
    (hb : write a = b :: more) (close : UInt8) (items : List α) (rest : Bytes) :
    ∃ after, joined write close (a :: items) ++ rest = b :: after := by
  cases items <;> exact ⟨_, by rw [joined, hb]; rfl⟩

theorem readValue_render_array {items : List Json} (h : ∀ j ∈ items, Writable j) {fuel : Nat}
    (hf : items.length ≤ fuel)
    (hitem : ∀ j ∈ items, ∀ rest, Stops rest → readValue fuel (render j ++ rest) = some (j, rest))
    (rest : Bytes) :
    readValue (fuel + 1) (render (.array items) ++ rest) = some (.array items, rest) := by
  rw [render, renderItems_eq]
  cases items with
  | nil => rfl
  | cons item items =>
    have hread := readSeparated_joined (.inl rfl) (List.cons_ne_nil item items) hitem fuel hf rest
    obtain ⟨b, more, hb, hblank, hne⟩ := (h item List.mem_cons_self).head
    obtain ⟨after, hafter⟩ := joined_front hb 0x5d items rest
    rw [List.cons_append, hafter, readValue_array fuel hblank hne, ← hafter, hread]
    rfl

theorem readValue_render_object {fields : List (Bytes × Json)} {fuel : Nat}
    (hf : fields.length ≤ fuel)
    (hfield : ∀ e ∈ fields, ∀ rest, Stops rest →
      readField (readValue fuel) (renderField e ++ rest) = some (e, rest)) (rest : Bytes) :
    readValue (fuel + 1) (render (.object fields) ++ rest) = some (.object fields, rest) := by
  rw [render, renderFields_eq]
  cases fields with
  | nil => rfl
  | cons e fields =>
    have hread := readSeparated_joined (.inr rfl) (List.cons_ne_nil e fields) hfield fuel hf rest
    have hquote : renderField e = 0x22 :: (e.1 ++ 0x22 :: 0x3a :: render e.2) := rfl
    obtain ⟨after, hafter⟩ := joined_front hquote 0x7d fields rest
    rw [List.cons_append, hafter, readValue_object, ← hafter, hread]
    rfl

theorem Writable.readValue {j : Json} (h : Writable j) : ∀ (fuel : Nat) (rest : Bytes),
    (render j).length ≤ fuel → Stops rest →
      Json.readValue (fuel + 1) (render j ++ rest) = some (j, rest) := by
  induction h with
  | null => exact fun fuel rest _ _ => rfl
  | bool b => cases b <;> exact fun fuel rest _ _ => rfl
  | number h =>
    intro fuel rest _ hr
    obtain ⟨b, more, hb, hhead⟩ := h.head
    have hread := h.reads rest hr
    rw [render]
    rw [hb, List.cons_append] at hread ⊢
    rw [readValue_number fuel hhead, hread]
    rfl
  | string h =>
    intro fuel rest _ _
    rw [render, List.cons_append, List.append_assoc, readValue_string, List.singleton_append,
      h rest]
    rfl
  | @array items h ih =>
    intro fuel rest hf _
    rw [render, renderItems_eq, List.length_cons] at hf
    obtain ⟨hlen, hitem⟩ := @length_joined _ render 0x5d items
    obtain ⟨inner, rfl⟩ : ∃ inner, fuel = inner + 1 := ⟨fuel - 1, by omega⟩
    refine readValue_render_array h (by omega) (fun a ha rest hr => ?_) rest
    have hlt := hitem a ha
    exact ih a ha inner rest (by omega) hr
  | @object fields hn h ih =>
    intro fuel rest hf _
    rw [render, renderFields_eq, List.length_cons] at hf
    obtain ⟨hlen, hitem⟩ := @length_joined _ renderField 0x7d fields
    obtain ⟨inner, rfl⟩ : ∃ inner, fuel = inner + 1 := ⟨fuel - 1, by omega⟩
    refine readValue_render_object (by omega) (fun e he rest hr => ?_) rest
    have hlt := hitem e he
    rw [renderField, List.length_cons, List.length_append, List.length_cons, List.length_cons] at hlt
    exact readField_renderField (hn e he) (ih e he inner rest (by omega) hr)

theorem Writable.parse? {j : Json} (h : Writable j) : Json.parse? (render j) = some j := by
  have hread := h.readValue (render j).length [] (Nat.le_refl _) trivial
  rw [List.append_nil] at hread
  rw [Json.parse?, hread]
  rfl

end SymbolIndex.Json
