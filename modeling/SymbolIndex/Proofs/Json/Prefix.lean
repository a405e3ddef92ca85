import SymbolIndex.Proofs.Json.Document

/-! Documents in front of more bytes. What a reader takes is settled as soon as anything is left
(`Continues`): only a number at the very end could have gone on. An object is settled by its closing
bracket, so the text of an object is not the front of another document. -/

namespace SymbolIndex.Json

variable {α : Type} {bytes rest : Bytes}

/-- What the first reader takes in front of something, the second one takes in front of more. -/
def Continues (read read' : Bytes → Option (α × Bytes)) : Prop :=
  ∀ ⦃bytes a rest⦄, read bytes = some (a, rest) → rest ≠ [] →
    ∀ more, read' (bytes ++ more) = some (a, rest ++ more)

theorem skipBlanks_extension {b : UInt8} (h : skipBlanks bytes = b :: rest) (more : Bytes) :
    skipBlanks (bytes ++ more) = b :: (rest ++ more) := by
  rw [skipBlanks] at h ⊢
  rw [List.dropWhile_append, h]
  rfl

theorem isBlank_of_skipBlanks {b : UInt8} (h : skipBlanks bytes = b :: rest) : isBlank b = false := by
  have hhead := List.head?_dropWhile_not isBlank bytes
  rw [← skipBlanks, h] at hhead
  simpa using hhead

theorem ne_nil_of_skipBlanks {b : UInt8} (h : skipBlanks bytes = b :: rest) : bytes ≠ [] := by
  rintro rfl
  cases h

section Scalars

theorem span_extension {p : UInt8 → Bool} {front : Bytes} (h : bytes.span p = (front, rest))
    (hrest : rest ≠ []) (more : Bytes) : (bytes ++ more).span p = (front, rest ++ more) := by
  rw [List.span_eq_takeWhile_dropWhile, Prod.mk.injEq] at h ⊢
  obtain ⟨hfront, hback⟩ := h
  have hwhole := List.takeWhile_append_dropWhile (p := p) (l := bytes)
  rw [hfront, hback] at hwhole
  have hshort : front.length ≠ bytes.length := by
    rw [← hwhole, List.length_append]
    have := List.length_pos_iff.mpr hrest
    omega
  rw [List.takeWhile_append, List.dropWhile_append, hfront, hback, if_neg hshort]
  exact ⟨rfl, if_neg (by simpa using hrest)⟩

theorem readSign_extension {sign : Bytes} (h : readSign bytes = (sign, rest)) (hrest : rest ≠ [])
    (more : Bytes) : readSign (bytes ++ more) = (sign, rest ++ more) := by
  unfold readSign at h
  split at h
  next => cases h; rfl
  next hminus =>
    cases h
    obtain ⟨b, rest, rfl⟩ := List.exists_cons_of_ne_nil hrest
    rw [List.cons_append, readSign]
    rintro _ hb
    cases hb
    exact hminus rest rfl

theorem continues_readFraction : Continues readFraction readFraction := by
  intro bytes fraction rest h hrest more
  unfold readFraction at h
  split at h
  next tail =>
    rcases hspan : tail.span isDigit with ⟨digits, after⟩
    simp only [hspan] at h
    split at h
    next => cases h
    next hdigits =>
      cases h
      rw [List.cons_append, readFraction, span_extension hspan hrest]
      exact if_neg hdigits
  next hdot =>
    cases h
    obtain ⟨b, rest, rfl⟩ := List.exists_cons_of_ne_nil hrest
    rw [List.cons_append, readFraction]
    rintro _ hb
    cases hb
    exact hdot rest rfl

/-- The sign between the letter of an exponent and its digits. -/
def exponentSign : Bytes → Bytes × Bytes
  | s :: rest => if s = 0x2b ∨ s = 0x2d then ([s], rest) else ([], s :: rest)
  | [] => ([], [])

theorem exponentSign_extension {sign : Bytes} (h : exponentSign bytes = (sign, rest))
    (hrest : rest ≠ []) (more : Bytes) : exponentSign (bytes ++ more) = (sign, rest ++ more) := by
  cases bytes with
  | nil =>
    cases h
    exact absurd rfl hrest
  | cons s tail =>
    rw [exponentSign] at h
    rw [List.cons_append, exponentSign]
    split at h
    next hs =>
      cases h
      rw [if_pos hs]
    next hs =>
      cases h
      rw [if_neg hs]
      rfl

theorem readExponent_cons {e : UInt8} (he : e = 0x65 ∨ e = 0x45) (tail : Bytes) :
    readExponent (e :: tail) =
      (fun r : Bytes × Bytes => if r.1 = [] then none
        else some (e :: ((exponentSign tail).1 ++ r.1), r.2)) ((exponentSign tail).2.span isDigit) := by
  unfold readExponent
  dsimp only
  rw [if_pos he]
  cases tail <;> rfl

theorem continues_readExponent : Continues readExponent readExponent := by
  intro bytes exponent rest h hrest more
  cases bytes with
  | nil =>
    cases h
    exact absurd rfl hrest
  | cons e tail =>
    by_cases he : e = 0x65 ∨ e = 0x45
    · rw [List.cons_append]
      rw [readExponent_cons he] at h ⊢
      rcases hsign : exponentSign tail with ⟨sign, unsigned⟩
      rcases hspan : unsigned.span isDigit with ⟨digits, after⟩
      simp only [hsign, hspan] at h
      split at h
      next => cases h
      next hdigits =>
        cases h
        have hunsigned : unsigned ≠ [] := by
          rintro rfl
          cases hspan
          exact hrest rfl
        rw [exponentSign_extension hsign hunsigned]
        dsimp only
        rw [span_extension hspan hrest]
        exact if_neg hdigits
    · have hskip : ∀ tail, readExponent (e :: tail) = some ([], e :: tail) := fun tail => if_neg he
      rw [hskip] at h
      cases h
      exact hskip (tail ++ more)

theorem continues_readNumber : Continues readNumber readNumber := by
  intro bytes literal rest h hrest more
  rw [readNumber] at h ⊢
  rcases hsign : readSign bytes with ⟨sign, unsigned⟩
  rcases hspan : unsigned.span isDigit with ⟨whole, between⟩
  simp only [hsign, hspan] at h
  split at h
  next => cases h
  next hwhole =>
    obtain ⟨⟨fraction, between'⟩, hf, h⟩ := Option.bind_eq_some_iff.mp h
    obtain ⟨⟨exponent, after⟩, he, h⟩ := Option.bind_eq_some_iff.mp h
    cases h
    -- Something is left at the end, so something was left after each part.
    have hbetween' : between' ≠ [] := by
      rintro rfl
      cases he
      exact hrest rfl
    have hbetween : between ≠ [] := by
      rintro rfl
      cases hf
      exact hbetween' rfl
    have hunsigned : unsigned ≠ [] := by
      rintro rfl
      cases hspan
      exact hbetween rfl
    rw [readSign_extension hsign hunsigned]
    dsimp only
    rw [span_extension hspan hbetween]
    dsimp only
    rw [if_neg hwhole, continues_readFraction hf hbetween']
    simp only [Option.bind_eq_bind, Option.bind_some]
    rw [continues_readExponent he hrest]
    rfl

theorem readNumber_head {b : UInt8} {r : Bytes × Bytes} (h : readNumber (b :: bytes) = some r) :
    b = 0x2d ∨ isDigit b = true := by
  by_cases hb : b = 0x2d
  · exact .inl hb
  · refine .inr (Bool.not_eq_false _ ▸ fun hd => ?_)
    have hsign : readSign (b :: bytes) = ([], b :: bytes) := by
      unfold readSign
      split
      next he => exact absurd (List.cons.inj he).1 hb
      next => rfl
    simp [readNumber, hsign, List.span_eq_takeWhile_dropWhile, hd] at h

theorem readBody_extension {body : Bytes} (h : readBody bytes = some (body, rest)) (more : Bytes) :
    readBody (bytes ++ more) = some (body, rest ++ more) := by
  fun_induction readBody bytes generalizing body with
  | case1 => cases h
  | case2 tail =>
    cases h
    rfl
  | case3 a b c d tail hunit ih =>
    obtain ⟨⟨body, after⟩, hbody, hr⟩ := Option.map_eq_some_iff.mp h
    cases hr
    simp only [List.cons_append]
    rw [readBody, if_pos hunit, ih hbody]
    rfl
  | case4 => cases h
  | case5 c tail hplain hletter ih =>
    obtain ⟨⟨body, after⟩, hbody, hr⟩ := Option.map_eq_some_iff.mp h
    cases hr
    have hnotUnit : c ≠ 0x75 := by
      rintro rfl
      exact absurd hletter (by decide)
    simp only [List.cons_append]
    rw [readBody, if_pos hletter, ih hbody]
    · rfl
    · exact fun _ _ _ _ _ hc => absurd hc hnotUnit
  | case6 => cases h
  | case7 => cases h
  | case8 c tail hquote hunit hletter hcontrol ih =>
    obtain ⟨⟨body, after⟩, hbody, hr⟩ := Option.map_eq_some_iff.mp h
    cases hr
    -- A lone backslash at the end is followed by no closing quote.
    have hplain : c ≠ 0x5c := by
      rintro rfl
      cases tail with
      | nil => cases hbody
      | cons b tail => exact hletter b tail rfl rfl
    rw [List.cons_append, readBody, if_neg hcontrol, ih hbody]
    · rfl
    · exact hquote
    · exact fun _ _ _ _ _ hc => absurd hc hplain
    · exact fun _ _ hc => absurd hc hplain

end Scalars

section Bracketed

variable {item item' : Bytes → Option (α × Bytes)} {close : UInt8} {fuel fuel' : Nat}
  {items : List α}

/-- The closing byte is behind every item, so nothing about a sequence hangs on what follows it. -/
theorem Continues.separated (h : Continues item item') (hfuel : fuel ≤ fuel')
    (hread : readSeparated item close fuel bytes = some (items, rest)) (more : Bytes) :
    readSeparated item' close fuel' (bytes ++ more) = some (items, rest ++ more) := by
  induction fuel generalizing fuel' bytes items with
  | zero => cases hread
  | succ fuel ih =>
    obtain ⟨fuel', rfl⟩ := Nat.exists_eq_add_one.mpr (Nat.lt_of_lt_of_le (Nat.succ_pos _) hfuel)
    rw [readSeparated] at hread ⊢
    split at hread
    next => cases hread
    next a after ha =>
      split at hread
      next => cases hread
      next b tail hb =>
        rw [h ha (ne_nil_of_skipBlanks hb)]
        dsimp only
        rw [skipBlanks_extension hb]
        dsimp only
        split at hread
        next hclose =>
          cases hread
          rw [if_pos hclose]
        next hopen =>
          rw [if_neg hopen]
          split at hread
          next hcomma =>
            obtain ⟨⟨others, last⟩, hothers, hr⟩ := Option.map_eq_some_iff.mp hread
            cases hr
            rw [if_pos hcomma, ih (by omega) hothers]
            rfl
          next => cases hread

/-- What stands between two brackets. -/
def readBracketed (item : Bytes → Option (α × Bytes)) (close : UInt8) (fuel : Nat) (bytes : Bytes) :
    Option (List α × Bytes) :=
  match skipBlanks bytes with
  | [] => none
  | b :: rest =>
    if b = close then some ([], rest) else readSeparated item close fuel (b :: rest)

theorem Continues.bracketed (h : Continues item item') (hfuel : fuel ≤ fuel')
    (hread : readBracketed item close fuel bytes = some (items, rest)) (more : Bytes) :
    readBracketed item' close fuel' (bytes ++ more) = some (items, rest ++ more) := by
  rw [readBracketed] at hread ⊢
  split at hread
  next => cases hread
  next b tail hb =>
    rw [skipBlanks_extension hb]
    dsimp only
    split at hread
    next hclose =>
      cases hread
      rw [if_pos hclose]
    next hopen =>
      rw [if_neg hopen, ← List.cons_append]
      exact h.separated hfuel hread more

end Bracketed

theorem readField_of_name {value : Bytes → Option (Json × Bytes)} {name tail after : Bytes}
    (hquote : skipBlanks bytes = 0x22 :: tail) (hname : readBody tail = some (name, after))
    (hcolon : skipBlanks after = 0x3a :: rest) :
    readField value bytes = (value rest).map fun r => ((name, r.1), r.2) := by
  rw [readField, hquote]
  simp only [hname, bind, Option.bind_some, hcolon]

theorem Continues.field {value value' : Bytes → Option (Json × Bytes)} (h : Continues value value') :
    Continues (readField value) (readField value') := by
  intro bytes e rest hread hrest more
  rw [readField] at hread
  split at hread
  next tail hquote =>
    obtain ⟨⟨name, after⟩, hname, hread⟩ := Option.bind_eq_some_iff.mp hread
    dsimp only at hread
    split at hread
    next between hcolon =>
      obtain ⟨⟨j, last⟩, hvalue, hr⟩ := Option.map_eq_some_iff.mp hread
      cases hr
      rw [readField_of_name (skipBlanks_extension hquote more) (readBody_extension hname more)
        (skipBlanks_extension hcolon more), h hvalue hrest]
      rfl
    next => cases hread
  next => cases hread

section Values

theorem readValue_nil (fuel : Nat) : readValue fuel [] = none := by
  cases fuel <;> rfl

theorem readField_nil (value : Bytes → Option (Json × Bytes)) : readField value [] = none := rfl

theorem readSeparated_nil {item : Bytes → Option (α × Bytes)} (h : item [] = none) (close : UInt8)
    (fuel : Nat) : readSeparated item close fuel [] = none := by
  cases fuel with
  | zero => rfl
  | succ fuel => rw [readSeparated, h]

theorem readValue_skipBlanks (fuel : Nat) (bytes : Bytes) :
    readValue (fuel + 1) (skipBlanks bytes) = readValue (fuel + 1) bytes := by
  have hidem : skipBlanks (skipBlanks bytes) = skipBlanks bytes := by
    cases h : skipBlanks bytes with
    | nil => rfl
    | cons b rest => exact skipBlanks_cons (isBlank_of_skipBlanks h) rest
  rw [readValue, readValue, hidem]

theorem readValue_open_array (fuel : Nat) (rest : Bytes) : readValue (fuel + 1) (0x5b :: rest) =
    (readBracketed (readValue fuel) 0x5d fuel rest).map fun r => (.array r.1, r.2) := by
  rw [readValue, skipBlanks_cons (by decide), readBracketed]
  cases hrest : skipBlanks rest with
  | nil => simp only [hrest, readSeparated_nil (readValue_nil fuel)]
  | cons b tail =>
    by_cases hb : b = 0x5d
    · simp [hrest, hb]
    · simp only [hrest, if_neg hb]
      split
      next he => exact absurd (List.cons.inj he).1 hb
      next => rfl

theorem readValue_open_object (fuel : Nat) (rest : Bytes) : readValue (fuel + 1) (0x7b :: rest) =
    (readBracketed (readField (readValue fuel)) 0x7d fuel rest).map fun r => (.object r.1, r.2) := by
  rw [readValue, skipBlanks_cons (by decide), readBracketed]
  cases hrest : skipBlanks rest with
  | nil => simp only [hrest, readSeparated_nil (readField_nil _)]
  | cons b tail =>
    by_cases hb : b = 0x7d
    · simp [hrest, hb]
    · simp only [hrest, if_neg hb]
      split
      next he => exact absurd (List.cons.inj he).1 hb
      next => rfl

/-- An object is settled whether or not anything follows it. -/
theorem readValue_object_extension {fuel fuel' : Nat} {j : Json}
    (h : Continues (readValue fuel) (readValue fuel')) (hfuel : fuel ≤ fuel')
    (hread : readValue (fuel + 1) (0x7b :: bytes) = some (j, rest)) (more : Bytes) :
    readValue (fuel' + 1) (0x7b :: (bytes ++ more)) = some (j, rest ++ more) := by
  rw [readValue_open_object] at hread ⊢
  obtain ⟨⟨fields, after⟩, hfields, hr⟩ := Option.map_eq_some_iff.mp hread
  cases hr
  rw [h.field.bracketed hfuel hfields]
  rfl

theorem continues_readValue {fuel fuel' : Nat} (hfuel : fuel ≤ fuel') :
    Continues (readValue fuel) (readValue fuel') := by
  induction fuel generalizing fuel' with
  | zero =>
    intro bytes j rest h
    cases h
  | succ fuel ih =>
    obtain ⟨fuel', rfl⟩ := Nat.exists_eq_add_one.mpr (Nat.lt_of_lt_of_le (Nat.succ_pos _) hfuel)
    have hle : fuel ≤ fuel' := by omega
    intro bytes j rest h hrest more
    rw [← readValue_skipBlanks] at h ⊢
    cases hskip : skipBlanks bytes with
    | nil =>
      rw [hskip, readValue_nil] at h
      cases h
    | cons b tail =>
      have hblank := isBlank_of_skipBlanks hskip
      rw [skipBlanks_extension hskip]
      rw [hskip] at h
      by_cases hobject : b = 0x7b
      · subst hobject
        exact readValue_object_extension (ih hle) hle h more
      by_cases harray : b = 0x5b
      · subst harray
        rw [readValue_open_array] at h ⊢
        obtain ⟨⟨items, after⟩, hitems, hr⟩ := Option.map_eq_some_iff.mp h
        cases hr
        rw [(ih hle).bracketed hle hitems]
        rfl
      rw [readValue, skipBlanks_cons hblank] at h
      split at h
      next he => cases he; cases h; rfl
      next he => cases he; cases h; rfl
      next he => cases he; cases h; rfl
      next he =>
        cases he
        obtain ⟨⟨body, after⟩, hbody, hr⟩ := Option.map_eq_some_iff.mp h
        cases hr
        rw [readValue_string, readBody_extension hbody]
        rfl
      next he => exact absurd (List.cons.inj he).1 harray
      next he => exact absurd (List.cons.inj he).1 hobject
      next =>
        obtain ⟨⟨literal, after⟩, hliteral, hr⟩ := Option.map_eq_some_iff.mp h
        cases hr
        rw [readValue_number fuel' (readNumber_head hliteral), ← List.cons_append,
          continues_readNumber hliteral hrest]
        rfl

end Values

/-- The text of an object that was cut short is not a document. -/
theorem parse?_truncation {fields : List (Bytes × Json)} (h : Writable (.object fields))
    {more : Bytes} (hcut : render (.object fields) = bytes ++ more) (hmore : more ≠ []) :
    parse? bytes = none := by
  cases hread : readValue (bytes.length + 1) bytes with
  | none => rw [parse?, hread]
  | some result =>
    obtain ⟨j, rest⟩ := result
    cases bytes with
    | nil =>
      rw [readValue_nil] at hread
      cases hread
    | cons b tail =>
      obtain rfl : b = 0x7b := by
        rw [render, List.cons_append] at hcut
        exact (List.cons.inj hcut).1.symm
      have hle : (0x7b :: tail).length ≤ (0x7b :: (tail ++ more)).length := by
        rw [List.length_cons, List.length_cons, List.length_append]
        omega
      have hwhole := h.readValue (render (.object fields)).length [] (Nat.le_refl _) trivial
      rw [List.append_nil, hcut, List.cons_append,
        readValue_object_extension (continues_readValue hle) hle hread more,
        Option.some.injEq, Prod.mk.injEq] at hwhole
      exact absurd (List.append_eq_nil_iff.mp hwhole.2).2 hmore

end SymbolIndex.Json
