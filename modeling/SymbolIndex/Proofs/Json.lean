import Mathlib.Data.List.TakeDrop
import SymbolIndex.Json.Document

/-! Texts and numbers are read back from JSON. A text is escaped character by character, and the
literal of a number is its decimal digits. -/

namespace SymbolIndex

theorem Bytes.ofText_eq_flatMap (s : String) :
    Bytes.ofText s = s.toList.flatMap String.utf8EncodeChar := by
  rw [Bytes.ofText, String.toUTF8_eq_toByteArray, ← String.utf8Encode_toList, List.utf8Encode,
    List.toList_data_toByteArray]

/-- A character is one byte of its own, or bytes that are no character of that kind. -/
theorem Bytes.utf8EncodeChar_cases (c : Char) :
    c.toNat < 128 ∧ String.utf8EncodeChar c = [.ofNat c.toNat] ∨
      ∀ b ∈ String.utf8EncodeChar c, 128 ≤ b.toNat := by
  have hlong : ∀ n, 128 ≤ n → n < 256 → 128 ≤ (UInt8.ofNat n).toNat := fun n h h' => by
    rwa [UInt8.toNat_ofNat_of_lt' h']
  rw [String.utf8EncodeChar]
  split
  next hv => exact .inl ⟨Nat.lt_succ_of_le hv, rfl⟩
  next =>
    refine .inr fun b h => ?_
    split at h
    next =>
      simp only [List.mem_cons, List.not_mem_nil, or_false] at h
      rcases h with rfl | rfl <;> exact hlong _ (by omega) (by omega)
    next =>
      split at h
      next =>
        simp only [List.mem_cons, List.not_mem_nil, or_false] at h
        rcases h with rfl | rfl | rfl <;> exact hlong _ (by omega) (by omega)
      next =>
        simp only [List.mem_cons, List.not_mem_nil, or_false] at h
        rcases h with rfl | rfl | rfl | rfl <;> exact hlong _ (by omega) (by omega)

namespace Json

/-- What may stand between quotes for itself. -/
def Literal (b : UInt8) : Prop := b ≠ 0x22 ∧ b ≠ 0x5c ∧ ¬ b < 0x20

theorem literal_of_toNat {b : UInt8} (hq : b.toNat ≠ 34) (hb : b.toNat ≠ 92)
    (hc : 32 ≤ b.toNat) : Literal b := by
  refine ⟨fun h => hq ?_, fun h => hb ?_, fun h => ?_⟩
  · rw [h]
    rfl
  · rw [h]
    rfl
  · exact absurd (UInt8.lt_iff_toNat_lt.mp h) (Nat.not_lt.mpr hc)

theorem literal_utf8EncodeChar {c : Char} (hq : c ≠ '"') (hb : c ≠ '\\') (hc : ' ' ≤ c) :
    ∀ b ∈ String.utf8EncodeChar c, Literal b := by
  have hq' : c.toNat ≠ 34 := fun h => hq (Char.ext (UInt32.toNat_inj.mp h))
  have hb' : c.toNat ≠ 92 := fun h => hb (Char.ext (UInt32.toNat_inj.mp h))
  have hc' : 32 ≤ c.toNat := UInt32.le_iff_toNat_le.mp hc
  intro b h
  rcases Bytes.utf8EncodeChar_cases c with ⟨hlt, he⟩ | hlong
  · have hval : (UInt8.ofNat c.toNat).toNat = c.toNat :=
      UInt8.toNat_ofNat_of_lt' (Nat.lt_trans hlt (by decide))
    rw [he] at h
    rw [List.mem_singleton.mp h]
    exact literal_of_toNat (hval.symm ▸ hq') (hval.symm ▸ hb') (hval.symm ▸ hc')
  · have h128 := hlong b h
    exact literal_of_toNat (by omega) (by omega) (by omega)

theorem unescape_literal {b : UInt8} (h : Literal b) (rest : Bytes) :
    unescape (b :: rest) = (unescape rest).map (b :: ·) := by
  rw [unescape]
  · exact fun _ _ _ _ _ hb => absurd hb h.2.1
  · exact fun _ _ hb => absurd hb h.2.1

theorem readBody_literal {b : UInt8} (h : Literal b) (rest : Bytes) :
    readBody (b :: rest) = (readBody rest).map fun r => (b :: r.1, r.2) := by
  rw [readBody, if_neg h.2.2]
  · exact fun hb => absurd hb h.1
  · exact fun _ _ _ _ _ hb => absurd hb h.2.1
  · exact fun _ _ hb => absurd hb h.2.1

theorem unescape_append {bytes : Bytes} (h : ∀ b ∈ bytes, Literal b) (rest : Bytes) :
    unescape (bytes ++ rest) = (unescape rest).map (bytes ++ ·) := by
  induction bytes with
  | nil => cases hr : unescape rest <;> simp [hr]
  | cons b bytes ih =>
    obtain ⟨hb, hbytes⟩ := List.forall_mem_cons.mp h
    rw [List.cons_append, unescape_literal hb, ih hbytes, Option.map_map]
    rfl

theorem readBody_append {bytes : Bytes} (h : ∀ b ∈ bytes, Literal b) (rest : Bytes) :
    readBody (bytes ++ rest) = (readBody rest).map fun r => (bytes ++ r.1, r.2) := by
  induction bytes with
  | nil => cases hr : readBody rest <;> simp [hr]
  | cons b bytes ih =>
    obtain ⟨hb, hbytes⟩ := List.forall_mem_cons.mp h
    rw [List.cons_append, readBody_literal hb, ih hbytes, Option.map_map]
    rfl

/-- An escape sequence is read back as the character it stands for. -/
structure Escapes (bytes : Bytes) (c : Char) : Prop where
  unescape : ∀ rest, Json.unescape (bytes ++ rest) =
    (Json.unescape rest).map (String.utf8EncodeChar c ++ ·)
  readBody : ∀ rest, Json.readBody (bytes ++ rest) =
    (Json.readBody rest).map fun r => (bytes ++ r.1, r.2)

theorem escapes_codeUnit {c : Char} (h : c.toNat < 32) :
    Escapes ([ascii '\\', ascii 'u'] ++ (Digits.hexChars 4 c.toNat).map ascii) c := by
  have hall : ∀ n < 32, codeUnit? (ascii (Digits.hexDigit (n / 16 / 16 / 16 % 16)))
      (ascii (Digits.hexDigit (n / 16 / 16 % 16))) (ascii (Digits.hexDigit (n / 16 % 16)))
      (ascii (Digits.hexDigit (n % 16))) = some n := by decide
  have hunit := hall c.toNat h
  constructor
  · intro rest
    change unescape (0x5c :: 0x75 :: _ :: _ :: _ :: _ :: rest) = _
    rw [unescape, hunit]
    dsimp only
    rw [if_pos (.inl (by omega)), Char.ofNat_toNat]
  · intro rest
    change readBody (0x5c :: 0x75 :: _ :: _ :: _ :: _ :: rest) = _
    rw [readBody, hunit]
    rfl

theorem escapes_escapeChar (c : Char) : Escapes (escapeChar c) c := by
  rw [escapeChar]
  split
  next h => rcases h with rfl | rfl <;> exact ⟨fun _ => rfl, fun _ => rfl⟩
  next hq =>
    split
    next hc =>
      have hall := literal_utf8EncodeChar (fun h => hq (.inl h)) (fun h => hq (.inr h)) hc
      exact ⟨unescape_append hall, readBody_append hall⟩
    next hc =>
      have hlt : c.toNat < 32 := Nat.lt_of_not_le fun h => hc (UInt32.le_iff_toNat_le.mpr h)
      have hofNat : ∀ n, c.toNat = n → c = .ofNat n := fun n h => by
        rw [← h, Char.ofNat_toNat]
      split
      next h => rw [h]; exact ⟨fun _ => rfl, fun _ => rfl⟩
      next =>
        split
        next h => rw [h]; exact ⟨fun _ => rfl, fun _ => rfl⟩
        next =>
          split
          next h => rw [h]; exact ⟨fun _ => rfl, fun _ => rfl⟩
          next =>
            split
            next h => rw [hofNat _ h]; exact ⟨fun _ => rfl, fun _ => rfl⟩
            next =>
              split
              next h => rw [hofNat _ h]; exact ⟨fun _ => rfl, fun _ => rfl⟩
              next => exact escapes_codeUnit hlt

theorem readBody_escape (s : String) (rest : Bytes) :
    readBody (escape s ++ 0x22 :: rest) = some (escape s, rest) := by
  rw [escape]
  induction s.toList with
  | nil => rfl
  | cons c cs ih =>
    rw [List.flatMap_cons, List.append_assoc, (escapes_escapeChar c).readBody, ih]
    rfl

theorem bodyText?_escape (s : String) : bodyText? (escape s) = some s := by
  have h : ∀ cs : List Char,
      unescape (cs.flatMap escapeChar) = some (cs.flatMap String.utf8EncodeChar) := by
    intro cs
    induction cs with
    | nil => rfl
    | cons c cs ih =>
      rw [List.flatMap_cons, (escapes_escapeChar c).unescape, ih]
      rfl
  rw [bodyText?, escape, h, ← Bytes.ofText_eq_flatMap, Option.bind_some, Bytes.text?_ofText]

def digits (n : Nat) : Bytes := (Nat.toDigits 10 n).map ascii

theorem utf8EncodeChar_digit {c : Char} (h : c.isDigit = true) :
    String.utf8EncodeChar c = [ascii c] := by
  have hle : c.val.toNat ≤ 57 := by
    rw [Char.isDigit, Bool.and_eq_true, decide_eq_true_eq, decide_eq_true_eq] at h
    exact UInt32.le_iff_toNat_le.mp h.2
  rw [String.utf8EncodeChar, if_pos (by omega)]
  rfl

theorem ofText_digits (cs : List Char) (h : ∀ c ∈ cs, c.isDigit = true) :
    cs.flatMap String.utf8EncodeChar = cs.map ascii := by
  induction cs with
  | nil => rfl
  | cons c rest ih =>
    obtain ⟨hc, hrest⟩ := List.forall_mem_cons.mp h
    rw [List.flatMap_cons, utf8EncodeChar_digit hc, ih hrest]
    rfl

theorem isDigit_of_mem_toDigits {n : Nat} : ∀ c ∈ Nat.toDigits 10 n, c.isDigit = true :=
  fun _ => Nat.isDigit_of_mem_toDigits (by decide) (by decide)

theorem ofText_toString_nat (n : Nat) : Bytes.ofText (toString n) = digits n := by
  rw [Bytes.ofText_eq_flatMap, Nat.toString_eq_repr, Nat.toList_repr,
    ofText_digits _ isDigit_of_mem_toDigits, digits]

theorem ofText_toString_int (n : Int) : Bytes.ofText (toString n) =
    if 0 ≤ n then digits n.toNat else 0x2d :: digits n.natAbs := by
  cases n with
  | ofNat n => exact ofText_toString_nat n
  | negSucc n =>
    have h : toString (Int.negSucc n) = "-" ++ toString (n + 1) := rfl
    rw [h, Bytes.ofText_eq_flatMap, String.toList_append, List.flatMap_append,
      ← Bytes.ofText_eq_flatMap (toString (n + 1)), ofText_toString_nat]
    rfl

theorem decimal?_toDigits (n : Nat) : Digits.decimal? (Nat.toDigits 10 n) = some n := by
  have hfold : (Nat.toDigits 10 n).foldlM
      (fun n c => (Digits.decimalValue? c).map (n * 10 + ·)) 0 = some n := by
    induction n using Nat.strongRecOn with
    | ind n ih =>
      have hdigit : ∀ d < 10, Digits.decimalValue? (Nat.digitChar d) = some d := by decide
      rw [Nat.toDigits_eq_if (by decide)]
      split
      next h => simp [hdigit n h]
      next h =>
        rw [List.foldlM_append, ih (n / 10) (by omega)]
        simp [hdigit (n % 10) (by omega)]
        omega
  rw [Digits.decimal?, Digits.read?]
  · exact hfold
  · exact Nat.toDigits_ne_nil

theorem head?_toDigits {n : Nat} (h : (Nat.toDigits 10 n).head? = some '0') : n = 0 := by
  induction n using Nat.strongRecOn with
  | ind n ih =>
    rw [Nat.toDigits_eq_if (by decide)] at h
    split at h
    next => simpa using h
    next hn =>
      rw [List.head?_append, Option.or_of_isSome (by simp [Nat.toDigits_ne_nil])] at h
      have := ih (n / 10) (by omega) h
      omega

theorem chars_digits (n : Nat) :
    (digits n).map (fun b => Char.ofNat b.toNat) = Nat.toDigits 10 n := by
  rw [digits, List.map_map]
  refine (List.map_congr_left fun c hc => ?_).trans (List.map_id _)
  have h := isDigit_of_mem_toDigits c hc
  have hle : c.val.toNat ≤ 57 := by
    rw [Char.isDigit, Bool.and_eq_true, decide_eq_true_eq, decide_eq_true_eq] at h
    exact UInt32.le_iff_toNat_le.mp h.2
  have hbyte : (ascii c).toNat = c.toNat := UInt8.toNat_ofNat_of_lt' (by
    change c.val.toNat < 256
    omega)
  change Char.ofNat (ascii c).toNat = c
  rw [hbyte, Char.ofNat_toNat]

theorem not_leading_zero (n : Nat) : ¬ (2 ≤ (digits n).length ∧ (digits n).head? = some 0x30) := by
  rintro ⟨hlen, hzero⟩
  have hhead : (Nat.toDigits 10 n).head? = some '0' := by
    rw [← chars_digits, List.head?_map, hzero]
    rfl
  rw [digits, List.length_map, head?_toDigits hhead] at hlen
  exact absurd hlen (by decide)

theorem natLiteral?_digits (n : Nat) : natLiteral? (digits n) = some n := by
  rw [natLiteral?, chars_digits, if_neg, decimal?_toDigits]
  rintro ⟨hlen, hzero⟩
  rw [head?_toDigits hzero] at hlen
  exact absurd hlen (by decide)

theorem isDigit_of_mem_digits {n : Nat} : ∀ b ∈ digits n, isDigit b = true := by
  intro b hb
  obtain ⟨c, hc, rfl⟩ := List.mem_map.mp hb
  have h := isDigit_of_mem_toDigits c hc
  rw [Char.isDigit, Bool.and_eq_true, decide_eq_true_eq, decide_eq_true_eq] at h
  have hlow : 48 ≤ c.val.toNat := UInt32.le_iff_toNat_le.mp h.1
  have hhigh : c.val.toNat ≤ 57 := UInt32.le_iff_toNat_le.mp h.2
  have hbyte : (ascii c).toNat = c.val.toNat := UInt8.toNat_ofNat_of_lt' (by
    change c.val.toNat < 256
    omega)
  rw [isDigit, decide_eq_true_eq, UInt8.le_iff_toNat_le, UInt8.le_iff_toNat_le, hbyte]
  exact ⟨hlow, hhigh⟩

theorem digits_ne_nil (n : Nat) : digits n ≠ [] := by
  rw [digits, ne_eq, List.map_eq_nil_iff]
  exact Nat.toDigits_ne_nil

theorem exists_digits (n : Nat) : ∃ b rest, digits n = b :: rest ∧ isDigit b = true := by
  cases h : digits n with
  | nil => exact absurd h (digits_ne_nil n)
  | cons b rest => exact ⟨b, rest, rfl, isDigit_of_mem_digits b (by rw [h]; simp)⟩

theorem intLiteral?_digits (n : Nat) : intLiteral? (digits n) = some (n : Int) := by
  obtain ⟨b, rest, h, hb⟩ := exists_digits n
  have hn := natLiteral?_digits n
  rw [h] at hn ⊢
  rw [intLiteral?, hn]
  · rfl
  · intro _ he
    cases he
    cases hb

theorem intLiteral?_toString (n : Int) : intLiteral? (Bytes.ofText (toString n)) = some n := by
  rw [ofText_toString_int]
  split
  next h =>
    rw [intLiteral?_digits]
    exact congrArg some (Int.toNat_of_nonneg h)
  next h =>
    rw [intLiteral?, natLiteral?_digits, Option.bind_some, if_neg (by omega)]
    congr 1
    omega

/-- No number goes on with what follows. -/
def Stops : Bytes → Prop
  | [] => True
  | b :: _ => isDigit b = false ∧ b ≠ 0x2e ∧ b ≠ 0x65 ∧ b ≠ 0x45

theorem span_digits {whole rest : Bytes} (h : ∀ b ∈ whole, isDigit b = true) (hr : Stops rest) :
    (whole ++ rest).span isDigit = (whole, rest) := by
  rw [List.span_eq_takeWhile_dropWhile, List.takeWhile_append_of_pos h,
    List.dropWhile_append_of_pos h]
  cases rest with
  | nil => simp
  | cons b rest => simp [hr.1]

theorem readFraction_stops {rest : Bytes} (h : Stops rest) : readFraction rest = some ([], rest) := by
  cases rest with
  | nil => rfl
  | cons b rest =>
    rw [readFraction]
    exact fun _ he => absurd (List.cons.inj he).1 h.2.1

theorem readExponent_stops {rest : Bytes} (h : Stops rest) : readExponent rest = some ([], rest) := by
  cases rest with
  | nil => rfl
  | cons b rest =>
    unfold readExponent
    exact if_neg fun he => he.elim h.2.2.1 h.2.2.2

theorem readNumber_signed {sign : Bytes} {n : Nat} {rest : Bytes} (h : Stops rest)
    (hs : readSign (sign ++ (digits n ++ rest)) = (sign, digits n ++ rest)) :
    readNumber (sign ++ digits n ++ rest) = some (sign ++ digits n, rest) := by
  have hwhole : ¬ (digits n = [] ∨ (2 ≤ (digits n).length ∧ (digits n).head? = some 0x30)) :=
    not_or.mpr ⟨digits_ne_nil n, not_leading_zero n⟩
  rw [readNumber, List.append_assoc, hs]
  dsimp only
  rw [span_digits isDigit_of_mem_digits h]
  dsimp only
  rw [if_neg hwhole, readFraction_stops h]
  simp [readExponent_stops h]

theorem readNumber_toString (n : Int) {rest : Bytes} (h : Stops rest) :
    readNumber (Bytes.ofText (toString n) ++ rest) = some (Bytes.ofText (toString n), rest) := by
  rw [ofText_toString_int]
  split
  next =>
    refine @readNumber_signed [] _ _ h ?_
    obtain ⟨b, whole, hd, hb⟩ := exists_digits n.toNat
    rw [List.nil_append, hd, List.cons_append, readSign]
    intro _ he
    cases he
    cases hb
  next => exact @readNumber_signed [0x2d] _ _ h rfl

end Json

end SymbolIndex
