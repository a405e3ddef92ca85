import Mathlib.Data.List.Basic
import SymbolIndex.Proofs.Json
import SymbolIndex.Proofs.Path

/-! Names in two alphabets. An encoding that writes the separator and the dot as one letter each, and
no other letter with a separator in it, keeps the components of a name, so encoded names are joined
and cleaned as they are without it. The bytes of a text are such an encoding of its characters. -/

namespace SymbolIndex

namespace Lexical

variable {α β : Type} {sep dot : α} {sep' dot' : β} {enc : α → List β}

structure Encoding (sep dot : α) (sep' dot' : β) (enc : α → List β) : Prop where
  separator : enc sep = [sep']
  dot : enc dot = [dot']
  others : ∀ c, c ≠ sep → sep' ∉ enc c
  injective : Function.Injective (List.flatMap enc)

/-- A component with its name written in the other alphabet. -/
def Component.encode (enc : α → List β) : Component α → Component β
  | root => root
  | current => current
  | parent => parent
  | normal name => normal (name.flatMap enc)

/-- Resolving looks at the kinds of components only. -/
theorem resolved_encode (enc : α → List β) (cs : List (Component α)) :
    resolved (cs.map (Component.encode enc)) = (resolved cs).map (Component.encode enc) := by
  have hstep : ∀ (before : List (Component α)) (c : Component α),
      resolve (before.map (Component.encode enc)) (c.encode enc) =
        (resolve before c).map (Component.encode enc) := by
    intro before c
    cases c with
    | parent =>
      cases before with
      | nil => rfl
      | cons last rest => cases last <;> rfl
    | _ => rfl
  have hfold : ∀ before : List (Component α),
      (cs.map (Component.encode enc)).foldl resolve (before.map (Component.encode enc)) =
        (cs.foldl resolve before).map (Component.encode enc) := by
    induction cs with
    | nil => exact fun _ => rfl
    | cons c rest ih =>
      intro before
      rw [List.map_cons, List.foldl_cons, hstep, ih, List.foldl_cons]
  rw [resolved, resolved, List.map_reverse]
  exact congrArg List.reverse (hfold [])

namespace Encoding

variable (h : Encoding sep dot sep' dot' enc)

include h

theorem eq_nil_iff {text : List α} : text.flatMap enc = [] ↔ text = [] :=
  h.injective.eq_iff' rfl

theorem eq_dot_iff {text : List α} : text.flatMap enc = [dot'] ↔ text = [dot] :=
  h.injective.eq_iff' (by simp [h.dot])

theorem eq_dots_iff {text : List α} : text.flatMap enc = [dot', dot'] ↔ text = [dot, dot] :=
  h.injective.eq_iff' (by simp [h.dot])

theorem ne_nil (c : α) : enc c ≠ [] := by
  intro hc
  have hnil : [c].flatMap enc = [] := by simp [hc]
  exact List.cons_ne_nil c [] (h.eq_nil_iff.mp hnil)

theorem encode_injective : Function.Injective (Component.encode enc) := by
  intro a b hab
  cases a <;> cases b <;> simp_all [Component.encode, h.injective.eq_iff]

theorem text_encode (c : Component α) : (c.encode enc).text dot' = (c.text dot).flatMap enc := by
  cases c <;> simp [Component.encode, Component.text, h.dot]

theorem joined_encode (cs : List (Component α)) :
    joined sep' dot' (cs.map (Component.encode enc)) = (joined sep dot cs).flatMap enc := by
  induction cs with
  | nil => rfl
  | cons c rest ih =>
    cases rest with
    | nil => exact h.text_encode c
    | cons next rest =>
      rw [List.map_cons] at ih
      rw [List.map_cons, List.map_cons, joined_cons_cons, joined_cons_cons, h.text_encode, ih,
        List.flatMap_append, List.flatMap_cons, h.separator]
      rfl

theorem spell_encode (cs : List (Component α)) :
    spell sep' dot' (cs.map (Component.encode enc)) = (spell sep dot cs).flatMap enc := by
  cases cs with
  | nil => simp [spell, h.dot]
  | cons c rest =>
    cases c with
    | root =>
      change sep' :: joined sep' dot' (rest.map (Component.encode enc)) =
        (sep :: joined sep dot rest).flatMap enc
      rw [h.joined_encode, List.flatMap_cons, h.separator]
      rfl
    | _ => exact h.joined_encode (_ :: rest)

variable [DecidableEq α] [DecidableEq β]

theorem split_flatMap (text : List α) :
    split sep' (text.flatMap enc) = (split sep text).map (·.flatMap enc) := by
  induction text with
  | nil => rfl
  | cons c rest ih =>
    by_cases hc : c = sep
    · rw [hc, List.flatMap_cons, h.separator, List.singleton_append, split, if_pos rfl, ih, split,
        if_pos rfl]
      rfl
    · obtain ⟨piece, pieces, hp, hs⟩ := split_cons_of_ne hc rest
      rw [hp, List.map_cons] at ih
      rw [List.flatMap_cons, split_append_of_not_mem (h.others c hc) ih, hs, List.map_cons,
        List.flatMap_cons]

theorem component?_flatMap (piece : List α) :
    component? dot' (piece.flatMap enc) = (component? dot piece).map (Component.encode enc) := by
  simp only [component?, h.eq_nil_iff, h.eq_dot_iff, h.eq_dots_iff]
  split
  next => rfl
  next => split <;> rfl

theorem inner_flatMap (text : List α) : inner sep' dot' (text.flatMap enc) =
    (inner sep dot text).map (Component.encode enc) := by
  rw [inner, inner, h.split_flatMap, List.filterMap_map, List.map_filterMap]
  exact congrArg (List.filterMap · _) (funext h.component?_flatMap)

theorem leading_map (pieces : List (List α)) : leading dot' (pieces.map (·.flatMap enc)) =
    (leading dot pieces).map (Component.encode enc) := by
  cases pieces with
  | nil => rfl
  | cons piece pieces =>
    by_cases hne : piece = []
    · cases pieces <;> simp [hne, leading, Component.encode]
    · rw [List.map_cons, leading_cons (h.eq_nil_iff.not.mpr hne), leading_cons hne]
      simp only [h.eq_dot_iff]
      split <;> rfl

theorem components_flatMap (text : List α) : components sep' dot' (text.flatMap enc) =
    (components sep dot text).map (Component.encode enc) := by
  rw [components_eq, components_eq, h.split_flatMap, h.leading_map, h.inner_flatMap,
    List.map_append]

theorem components_eq_iff {a b : List α} :
    components sep' dot' (a.flatMap enc) = components sep' dot' (b.flatMap enc) ↔
      components sep dot a = components sep dot b := by
  rw [h.components_flatMap, h.components_flatMap]
  exact (List.map_injective_iff.mpr h.encode_injective).eq_iff

theorem clean_flatMap (text : List α) :
    clean sep' dot' (text.flatMap enc) = (clean sep dot text).flatMap enc := by
  rw [clean, clean, h.components_flatMap, resolved_encode, h.spell_encode]

theorem isAbsolute_flatMap (text : List α) :
    isAbsolute sep' (text.flatMap enc) = isAbsolute sep text := by
  cases text with
  | nil => rfl
  | cons c rest =>
    by_cases hc : c = sep
    · simp [isAbsolute, hc, h.separator]
    · obtain ⟨b, bs, hb⟩ := List.exists_cons_of_ne_nil (h.ne_nil c)
      have hbs : b ≠ sep' := fun he => h.others c hc (by simp [hb, he])
      simp [isAbsolute, hc, hb, hbs]

omit [DecidableEq α] [DecidableEq β] in
theorem getLast?_flatMap (text : List α) :
    (text.flatMap enc).getLast? = some sep' ↔ text.getLast? = some sep := by
  constructor
  · intro hlast
    rcases List.eq_nil_or_concat text with rfl | ⟨front, c, rfl⟩
    · cases hlast
    · have hc : c = sep := by
        by_contra hne
        obtain ⟨bs, b, hb⟩ := (List.eq_nil_or_concat (enc c)).resolve_left (h.ne_nil c)
        rw [List.concat_eq_append, List.flatMap_append, List.flatMap_singleton, hb,
          List.concat_eq_append, ← List.append_assoc, List.getLast?_concat,
          Option.some.injEq] at hlast
        exact h.others c hne (by simp [hb, hlast])
      rw [hc, List.concat_eq_append, List.getLast?_concat]
  · intro hlast
    obtain ⟨front, rfl⟩ := List.getLast?_eq_some_iff.mp hlast
    simp [h.separator]

theorem join_flatMap (base text : List α) :
    join sep' (base.flatMap enc) (text.flatMap enc) = (join sep base text).flatMap enc := by
  simp only [join, h.isAbsolute_flatMap, h.eq_nil_iff, h.getLast?_flatMap]
  split
  next => rfl
  next =>
    split
    next => rw [List.flatMap_append]
    next => rw [List.flatMap_append, List.flatMap_cons, h.separator]; rfl

theorem normalizeAgainst_flatMap (base text : List α) :
    normalizeAgainst sep' dot' (base.flatMap enc) (text.flatMap enc) =
      (normalizeAgainst sep dot base text).flatMap enc := by
  rw [normalizeAgainst, normalizeAgainst, h.join_flatMap, h.clean_flatMap]

end Encoding

end Lexical

namespace Bytes

def slash : UInt8 := 0x2f

def dot : UInt8 := 0x2e

theorem ofText_injective : Function.Injective ofText := by
  intro a b h
  exact Option.some.inj ((text?_ofText a).symm.trans ((congrArg text? h).trans (text?_ofText b)))

theorem encoding_utf8 : Lexical.Encoding '/' '.' slash dot String.utf8EncodeChar where
  separator := rfl
  dot := rfl
  others c hc hmem := by
    rcases utf8EncodeChar_cases c with ⟨hlt, he⟩ | hlong
    · rw [he, List.mem_singleton] at hmem
      have hval : (UInt8.ofNat c.toNat).toNat = c.toNat :=
        UInt8.toNat_ofNat_of_lt' (Nat.lt_trans hlt (by decide))
      rw [← hmem] at hval
      exact hc (Char.ext (UInt32.toNat_inj.mp hval.symm))
    · exact absurd (hlong slash hmem) (by decide)
  injective a b h := by
    have hbytes : ofText (.ofList a) = ofText (.ofList b) := by
      rw [ofText_eq_flatMap, ofText_eq_flatMap, String.toList_ofList, String.toList_ofList]
      exact h
    exact String.ofList_injective (ofText_injective hbytes)

end Bytes

namespace Path

/-- The bytes that a path is spelled with. -/
def bytes (p : Path) : Bytes := Bytes.ofText p.text

theorem bytes_injective : Function.Injective bytes := fun _ _ h =>
  congrArg Path.mk (Bytes.ofText_injective h)

theorem bytes_eq_flatMap (p : Path) : p.bytes = p.text.toList.flatMap String.utf8EncodeChar :=
  Bytes.ofText_eq_flatMap p.text

theorem bytes_clean (p : Path) : p.clean.bytes = Lexical.clean Bytes.slash Bytes.dot p.bytes := by
  rw [clean, bytes_eq_flatMap, bytes_eq_flatMap, String.toList_ofList,
    Bytes.encoding_utf8.clean_flatMap]

theorem bytes_normalizeAgainst (base p : Path) : (base.normalizeAgainst p).bytes =
    Lexical.normalizeAgainst Bytes.slash Bytes.dot base.bytes p.bytes := by
  rw [normalizeAgainst, bytes_eq_flatMap, bytes_eq_flatMap, bytes_eq_flatMap, String.toList_ofList,
    Bytes.encoding_utf8.normalizeAgainst_flatMap]

/-- Paths are compared by the components of their bytes. -/
theorem same_iff_bytes (p q : Path) : p.same q = true ↔
    Lexical.components Bytes.slash Bytes.dot p.bytes =
      Lexical.components Bytes.slash Bytes.dot q.bytes := by
  rw [same_iff, bytes_eq_flatMap, bytes_eq_flatMap, Bytes.encoding_utf8.components_eq_iff]
  rfl

end Path

end SymbolIndex
