import SymbolIndex.Cache.SlotName
import SymbolIndex.Proofs.Json

/-! Slot names are file names of printable characters without a separator or a dot. The encoding of a
path can be read back, and a tilde only stands where a name was shortened, so two paths share a name
only if both are long and have the same hash. -/

namespace SymbolIndex.SlotName

/-- A character that stands for itself in a file name, and is not the mark of a shortened one. -/
def Plain (c : Char) : Prop := 32 < c.toNat ∧ c.toNat < 127 ∧ c ∉ ['/', '\\', ':', '.', '~']

instance : DecidablePred Plain := fun _ => inferInstanceAs (Decidable (_ ∧ _ ∧ _))

theorem forall_byte {P : UInt8 → Prop} (h : ∀ n : Fin 256, P (.ofNat n.val)) (b : UInt8) : P b := by
  have hb := h ⟨b.toNat, b.toNat_lt⟩
  rwa [UInt8.ofNat_toNat] at hb

theorem plain_encodeByte (b : UInt8) : ∀ c ∈ encodeByte b, Plain c := by
  have h : ∀ b, (encodeByte b).all (fun c => decide (Plain c)) = true :=
    forall_byte (by decide +kernel)
  exact fun c hc => of_decide_eq_true (List.all_eq_true.mp (h b) c hc)

theorem plain_encode (path : Bytes) : ∀ c ∈ encode path, Plain c := by
  intro c hc
  obtain ⟨b, -, hb⟩ := List.mem_flatMap.mp hc
  exact plain_encodeByte b c hb

theorem plain_hexChars (width n : Nat) : ∀ c ∈ Digits.hexChars width n, Plain c := by
  have h : ∀ d : Fin 16, Plain (Digits.hexDigit d.val) := by decide
  induction width generalizing n with
  | zero => exact fun c hc => absurd hc List.not_mem_nil
  | succ width ih =>
    intro c hc
    rcases List.mem_append.mp hc with hc | hc
    · exact ih (n / 16) c hc
    · rw [List.mem_singleton.mp hc]
      exact h ⟨n % 16, Nat.mod_lt _ (by decide)⟩

theorem plain_digest (name : List Char) : ∀ c ∈ digest name, Plain c := by
  intro c hc
  rcases List.mem_append.mp hc with hc | hc
  · exact plain_hexChars 16 _ c hc
  · exact plain_hexChars 16 _ c hc

/-- A path whose name is shortened. -/
def Long (path : Bytes) : Prop := maxLength < (encode path).length

instance (path : Bytes) : Decidable (Long path) := inferInstanceAs (Decidable (_ < _))

theorem ofBytes_of_short {path : Bytes} (h : ¬ Long path) : ofBytes path = encode path :=
  if_pos (Nat.le_of_not_lt h)

theorem ofBytes_of_long {path : Bytes} (h : Long path) :
    ofBytes path = (encode path).take keptLength ++ '~' :: digest (encode path) :=
  if_neg (Nat.not_le_of_lt h)

theorem mem_ofBytes {path : Bytes} {c : Char} (h : c ∈ ofBytes path) :
    Plain c ∨ c = '~' ∧ Long path := by
  by_cases hlong : Long path
  · rw [ofBytes_of_long hlong, List.mem_append, List.mem_cons] at h
    rcases h with h | h | h
    · exact .inl (plain_encode path c (List.mem_of_mem_take h))
    · exact .inr ⟨h, hlong⟩
    · exact .inl (plain_digest _ c h)
  · rw [ofBytes_of_short hlong] at h
    exact .inl (plain_encode path c h)

/-- Without the characters that mean something to a path. -/
def Clear (name : List Char) : Prop := '/' ∉ name ∧ '.' ∉ name

theorem clear_ofBytes (path : Bytes) : Clear (ofBytes path) := by
  have h : ∀ c ∈ ofBytes path, c ≠ '/' ∧ c ≠ '.' := by
    intro c hc
    rcases mem_ofBytes hc with hplain | ⟨rfl, -⟩
    · have hmarks := hplain.2.2
      simp only [List.mem_cons, not_or] at hmarks
      exact ⟨hmarks.1, hmarks.2.2.2.1⟩
    · decide
  exact ⟨fun hc => (h _ hc).1 rfl, fun hc => (h _ hc).2 rfl⟩

theorem ofBytes_ne_nil {path : Bytes} (h : path ≠ []) : ofBytes path ≠ [] := by
  obtain ⟨b, rest, rfl⟩ := List.exists_cons_of_ne_nil h
  rw [ofBytes]
  split
  next =>
    rw [encode, List.flatMap_cons, encodeByte]
    split <;> simp
  next => simp

section Shape

theorem length_hexChars (width n : Nat) : (Digits.hexChars width n).length = width := by
  induction width generalizing n with
  | zero => rfl
  | succ width ih => rw [Digits.hexChars, List.length_append, ih, List.length_singleton]

theorem length_digest (name : List Char) : (digest name).length = 32 := by
  rw [digest, List.length_append, length_hexChars, length_hexChars]

theorem length_take_encode {path : Bytes} (h : Long path) :
    ((encode path).take keptLength).length = keptLength := by
  rw [List.length_take]
  exact Nat.min_eq_left (Nat.le_of_lt (Nat.lt_trans (by decide) h))

theorem length_ofBytes_le (path : Bytes) : (ofBytes path).length ≤ maxLength := by
  by_cases h : Long path
  · rw [ofBytes_of_long h, List.length_append, List.length_cons, length_take_encode h, length_digest]
    decide
  · rw [ofBytes_of_short h]
    exact Nat.le_of_not_lt h

theorem length_ofText {cs : List Char} (h : ∀ c ∈ cs, c.toNat < 128) :
    (Bytes.ofText (.ofList cs)).length = cs.length := by
  rw [Bytes.ofText_eq_flatMap, String.toList_ofList, List.length_flatMap]
  induction cs with
  | nil => rfl
  | cons c cs ih =>
    obtain ⟨hc, hcs⟩ := List.forall_mem_cons.mp h
    have hone : (String.utf8EncodeChar c).length = 1 := by
      rw [String.utf8EncodeChar, if_pos (by
        change c.val.toNat < 128 at hc
        omega)]
      rfl
    rw [List.map_cons, List.sum_cons, hone, ih hcs, List.length_cons, Nat.add_comm]

theorem not_plain_tilde : ¬ Plain '~' := by decide

/-- What every slot name looks like: at most 180 bytes of printable ASCII without a separator, a colon
or a dot, and with one tilde, behind the front that was kept, in the names that were shortened. -/
structure Tidy (path : Bytes) : Prop where
  length_le : (Bytes.ofText (.ofList (ofBytes path))).length ≤ 180
  printable : ∀ c ∈ ofBytes path, 32 < c.toNat ∧ c.toNat < 127
  clear : ∀ c ∈ ['/', '\\', ':', '.'], c ∉ ofBytes path
  tilde : '~' ∈ ofBytes path ↔ Long path
  shortened : Long path → ∃ front back, ofBytes path = front ++ '~' :: back ∧
    front.length = 120 ∧ back.length = 32 ∧ '~' ∉ front ∧ '~' ∉ back

theorem tidy (path : Bytes) : Tidy path := by
  have hprint : ∀ c ∈ ofBytes path, 32 < c.toNat ∧ c.toNat < 127 := by
    intro c hc
    rcases mem_ofBytes hc with hplain | ⟨rfl, -⟩
    · exact ⟨hplain.1, hplain.2.1⟩
    · decide
  have htilde : ∀ cs : List Char, (∀ c ∈ cs, Plain c) → '~' ∉ cs :=
    fun cs hcs hc => not_plain_tilde (hcs _ hc)
  refine ⟨?_, hprint, fun c hc hmem => ?_, ⟨fun h => ?_, fun h => ?_⟩, fun h => ?_⟩
  · rw [length_ofText fun c hc => Nat.lt_trans (hprint c hc).2 (by decide)]
    exact length_ofBytes_le path
  · rcases mem_ofBytes hmem with hplain | ⟨rfl, -⟩
    · refine hplain.2.2 ?_
      rw [show ['/', '\\', ':', '.', '~'] = ['/', '\\', ':', '.'] ++ ['~'] from rfl]
      exact List.mem_append_left _ hc
    · exact absurd hc (by decide)
  · rcases mem_ofBytes h with hplain | ⟨-, hlong⟩
    · exact absurd hplain not_plain_tilde
    · exact hlong
  · rw [ofBytes_of_long h]
    simp
  · exact ⟨_, _, ofBytes_of_long h, length_take_encode h, length_digest _,
      htilde _ fun c hc => plain_encode path c (List.mem_of_mem_take hc),
      htilde _ (plain_digest _)⟩

end Shape

section Decoding

/-- What the encoding of one byte stands for. -/
def decodeByte? : List Char → Option Nat
  | [c] => some c.toNat
  | [_, high, low] => Digits.hex? [high, low]
  | _ => none

theorem decodeByte?_encodeByte : ∀ b, decodeByte? (encodeByte b) = some b.toNat :=
  forall_byte (by decide +kernel)

/-- The first character of an encoded byte tells how long it is. -/
theorem length_encodeByte :
    ∀ b, (encodeByte b).length = if (encodeByte b).head? = some '%' then 3 else 1 :=
  forall_byte (by decide +kernel)

theorem encodeByte_ne_nil (b : UInt8) : encodeByte b ≠ [] := by
  intro h
  have hlen := length_encodeByte b
  rw [h] at hlen
  cases hlen

theorem encodeByte_append_inj {a b : UInt8} {x y : List Char}
    (h : encodeByte a ++ x = encodeByte b ++ y) : a = b ∧ x = y := by
  have hhead : ∀ c z, (encodeByte c ++ z).head? = (encodeByte c).head? := fun c z =>
    List.head?_append.trans (Option.or_of_isSome (by simp [encodeByte_ne_nil]))
  have hlen : (encodeByte a).length = (encodeByte b).length := by
    rw [length_encodeByte, length_encodeByte, ← hhead a x, h, hhead]
  obtain ⟨hbyte, hrest⟩ := List.append_inj h hlen
  have hvalue := decodeByte?_encodeByte a
  rw [hbyte, decodeByte?_encodeByte, Option.some.injEq] at hvalue
  exact ⟨UInt8.toNat_inj.mp hvalue.symm, hrest⟩

theorem encode_injective : Function.Injective encode := by
  intro a b h
  induction a generalizing b with
  | nil =>
    cases b with
    | nil => rfl
    | cons y b => exact absurd (List.append_eq_nil_iff.mp h.symm).1 (encodeByte_ne_nil y)
  | cons x a ih =>
    cases b with
    | nil => exact absurd (List.append_eq_nil_iff.mp h).1 (encodeByte_ne_nil x)
    | cons y b =>
      obtain ⟨rfl, hrest⟩ := encodeByte_append_inj h
      rw [ih hrest]

theorem hexDigit_inj {m n : Nat} (hm : m < 16) (hn : n < 16)
    (h : Digits.hexDigit m = Digits.hexDigit n) : m = n := by
  have hall : ∀ i j : Fin 16, Digits.hexDigit i.val = Digits.hexDigit j.val → i = j := by decide
  exact congrArg Fin.val (hall ⟨m, hm⟩ ⟨n, hn⟩ h)

theorem hexChars_inj {width m n : Nat} (hm : m < Nat.pow 16 width) (hn : n < Nat.pow 16 width)
    (h : Digits.hexChars width m = Digits.hexChars width n) : m = n := by
  induction width generalizing m n with
  | zero => rw [Nat.lt_one_iff.mp hm, Nat.lt_one_iff.mp hn]
  | succ width ih =>
    have hfits : ∀ k, k < Nat.pow 16 (width + 1) → k / 16 < Nat.pow 16 width := fun k hk =>
      Nat.div_lt_of_lt_mul (by
        rw [Nat.mul_comm]
        exact hk)
    rw [Digits.hexChars, Digits.hexChars] at h
    obtain ⟨hfront, hlast⟩ := List.append_inj' h rfl
    have hdiv := ih (hfits m hm) (hfits n hn) hfront
    have hmod := hexDigit_inj (Nat.mod_lt m (by decide)) (Nat.mod_lt n (by decide))
      (List.cons.inj hlast).1
    omega

def hash (path : Bytes) : XXH3.Wide := XXH3.hash128 (Bytes.ofText (.ofList (encode path)))

theorem hash_eq_of_digest {a b : Bytes} (h : digest (encode a) = digest (encode b)) :
    hash a = hash b := by
  rw [digest, digest] at h
  obtain ⟨hhigh, hlow⟩ := List.append_inj h (by rw [length_hexChars, length_hexChars])
  have hword : ∀ x y : UInt64, Digits.hexChars 16 x.toNat = Digits.hexChars 16 y.toNat → x = y := by
    intro x y hxy
    have hx : x.toNat < Nat.pow 16 16 := x.toNat_lt
    have hy : y.toNat < Nat.pow 16 16 := y.toNat_lt
    exact UInt64.toNat_inj.mp (hexChars_inj hx hy hxy)
  have hwide : ∀ v w : XXH3.Wide, v.high = w.high → v.low = w.low → v = w := by
    rintro ⟨_, _⟩ ⟨_, _⟩ rfl rfl
    rfl
  exact hwide _ _ (hword _ _ hhigh) (hword _ _ hlow)

/-- Two paths whose names are shortened and end in the same hash. -/
structure Collide (a b : Bytes) : Prop where
  left : Long a
  right : Long b
  hash : hash a = hash b

theorem eq_or_collide {a b : Bytes} (h : ofBytes a = ofBytes b) : a = b ∨ Collide a b := by
  have hlong : Long a ↔ Long b := by rw [← (tidy a).tilde, h, (tidy b).tilde]
  by_cases ha : Long a
  · have hb := hlong.mp ha
    rw [ofBytes_of_long ha, ofBytes_of_long hb] at h
    obtain ⟨-, hback⟩ := List.append_inj h (by rw [length_take_encode ha, length_take_encode hb])
    exact .inr ⟨ha, hb, hash_eq_of_digest (List.cons.inj hback).2⟩
  · have hb : ¬ Long b := fun hb => ha (hlong.mpr hb)
    rw [ofBytes_of_short ha, ofBytes_of_short hb] at h
    exact .inl (encode_injective h)

end Decoding

end SymbolIndex.SlotName
