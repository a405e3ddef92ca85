import SymbolIndex.Proofs.Path.Encoded
import SymbolIndex.Proofs.Cache.Slots

/-! One spelling for each file. A normalized name is spelled from the root with names alone, and it is
read back as these names, so that normalized names with the same components are the same bytes: what
is keyed by paths and what is keyed by their bytes tell the same files apart. -/

namespace SymbolIndex

namespace Lexical

variable {α : Type} [DecidableEq α] {sep dot : α}

/-- Spelled from the root, without dots, empty pieces or a separator at the end. -/
structure Normal (sep dot : α) (text : List α) : Prop where
  absolute : isAbsolute sep text = true
  pieces : text = [sep] ∨
    ∀ piece ∈ (split sep text).tail, piece ≠ [] ∧ piece ≠ [dot] ∧ piece ≠ [dot, dot]
  trailing : text.getLast? = some sep → text = [sep]

omit [DecidableEq α] in
theorem joined_normal_cons {names : List (List α)} (h : names ≠ []) (name : List α) :
    joined sep dot ((name :: names).map .normal) =
      name ++ sep :: joined sep dot (names.map .normal) := by
  obtain ⟨next, rest, rfl⟩ := List.exists_cons_of_ne_nil h
  rfl

theorem split_joined {names : List (List α)} (hne : names ≠ [])
    (h : ∀ name ∈ names, sep ∉ name) :
    split sep (joined sep dot (names.map .normal)) = names := by
  induction names with
  | nil => exact absurd rfl hne
  | cons name rest ih =>
    obtain ⟨hname, hrest⟩ := List.forall_mem_cons.mp h
    by_cases hnil : rest = []
    · rw [hnil]
      exact split_of_not_mem hname
    · rw [joined_normal_cons hnil, split_append, split_of_not_mem hname, ih hnil hrest]
      rfl

theorem joined_split (sep dot : α) (text : List α) :
    joined sep dot ((split sep text).map .normal) = text := by
  induction text with
  | nil => rfl
  | cons c rest ih =>
    by_cases hc : c = sep
    · rw [split, if_pos hc, joined_normal_cons (split_ne_nil sep rest), ih, hc]
      rfl
    · obtain ⟨piece, pieces, hp, hs⟩ := split_cons_of_ne hc rest
      rw [hp] at ih
      rw [hs]
      by_cases hnil : pieces = []
      · subst hnil
        exact congrArg (c :: ·) ih
      · rw [joined_normal_cons hnil] at ih ⊢
        exact congrArg (c :: ·) ih

theorem normal_root (dot : α) : Normal sep dot [sep] where
  absolute := by simp [isAbsolute]
  pieces := .inl rfl
  trailing _ := rfl

theorem normal_of_pieces {text : List α}
    (h : ∀ piece ∈ split sep text, piece ≠ [] ∧ piece ≠ [dot] ∧ piece ≠ [dot, dot]) :
    Normal sep dot (sep :: text) where
  absolute := by simp [isAbsolute]
  pieces := .inr fun piece hp => h piece (by rwa [split, if_pos rfl] at hp)
  trailing hlast := by
    cases text with
    | nil => rfl
    | cons c rest =>
      obtain ⟨front, hfront⟩ := List.getLast?_eq_some_iff.mp (List.getLast?_cons_cons.symm.trans hlast)
      have hempty : [] ∈ split sep (c :: rest) := by
        rw [hfront, split_append]
        exact List.mem_append_right _ List.mem_cons_self
      exact absurd rfl (h [] hempty).1

theorem normal_clean {text : List α} (h : isAbsolute sep text = true) :
    Normal sep dot (clean sep dot text) := by
  obtain ⟨rest, rfl⟩ := isAbsolute_iff.mp h
  obtain ⟨names, hn, hr⟩ := resolved_absolute sep dot rest
  rw [clean, hr]
  by_cases hnil : names = []
  · rw [hnil]
    exact normal_root dot
  · refine normal_of_pieces fun piece hp => ?_
    rw [split_joined hnil fun name hm => (hn name hm).1] at hp
    exact (hn piece hp).2

theorem Normal.clean_eq {text : List α} (h : Normal sep dot text) : clean sep dot text = text := by
  obtain ⟨rest, rfl⟩ := isAbsolute_iff.mp h.absolute
  rcases h.pieces with hroot | hpieces
  · rw [hroot, clean, components_absolute]
    simp [inner, split, component?, resolved, resolve, spell, joined]
  · rw [split, if_pos rfl, List.tail_cons] at hpieces
    have hplain : Plain sep dot (split sep rest) := fun name hm =>
      ⟨sep_not_mem_of_mem_split hm, hpieces name hm⟩
    have hinner : inner sep dot rest = (split sep rest).map .normal := by
      rw [inner, ← List.filterMap_eq_map]
      refine List.filterMap_congr fun name hm => ?_
      obtain ⟨hn, hd, hp⟩ := hpieces name hm
      simp [component?, hn, hd, hp]
    have hsettled : Settled sep dot (.root :: (split sep rest).map .normal) :=
      ⟨[.root], split sep rest, .inl rfl, hplain, rfl⟩
    rw [clean, components_absolute, hinner, resolved_settled hsettled, spell, joined_split]

/-- The normal names are those that cleaning a name from the root gives. -/
theorem normal_iff {text : List α} :
    Normal sep dot text ↔ isAbsolute sep text = true ∧ clean sep dot text = text :=
  ⟨fun h => ⟨h.absolute, h.clean_eq⟩, fun h => h.2 ▸ normal_clean h.1⟩

theorem normal_normalizeAgainst {base : List α} (h : isAbsolute sep base = true) (text : List α) :
    Normal sep dot (normalizeAgainst sep dot base text) :=
  normal_clean (isAbsolute_join h text)

theorem Normal.normalizeAgainst_eq {text : List α} (h : Normal sep dot text) (base : List α) :
    normalizeAgainst sep dot base text = text := by
  rw [normalizeAgainst, join, if_pos h.absolute, h.clean_eq]

theorem components_eq_iff_of_clean {a b : List α} (ha : clean sep dot a = a)
    (hb : clean sep dot b = b) : components sep dot a = components sep dot b ↔ a = b := by
  refine ⟨fun h => ?_, congrArg _⟩
  rw [← ha, ← hb, clean, clean, h]

end Lexical

namespace Path

open Bytes (slash dot)

/-- Whatever bytes name a file from an absolute base, the normalized name is normal, and no base
changes it any more; cleaning settles a name once and for all, also a relative one. Of clean names,
the components, the bytes and the order of paths say the same about whether two are one file, and so
do their slots, unless hashes collide. -/
theorem one_spelling :
    (∀ base name : Bytes, Lexical.isAbsolute slash base = true →
      Lexical.Normal slash dot (Lexical.normalizeAgainst slash dot base name)) ∧
    (∀ name : Bytes, Lexical.Normal slash dot name →
      ∀ base, Lexical.normalizeAgainst slash dot base name = name) ∧
    (∀ name : Bytes, Lexical.Normal slash dot name ↔
      Lexical.isAbsolute slash name = true ∧ Lexical.clean slash dot name = name) ∧
    (∀ name : Bytes, Lexical.clean slash dot (Lexical.clean slash dot name) =
      Lexical.clean slash dot name) ∧
    (∀ a b : Bytes, Lexical.clean slash dot a = a → Lexical.clean slash dot b = b →
      (Lexical.components slash dot a = Lexical.components slash dot b ↔ a = b) ∧
      (SlotName.ofBytes a = SlotName.ofBytes b → a = b ∨ SlotName.Collide a b)) ∧
    (∀ (cwd : Option Path) (p : Path), (p.normalize cwd).bytes = match cwd with
      | some dir => Lexical.normalizeAgainst slash dot dir.bytes p.bytes
      | none => Lexical.clean slash dot p.bytes) ∧
    (∀ p q : Path, compare p q = .eq ↔
      Lexical.components slash dot p.bytes = Lexical.components slash dot q.bytes) ∧
    ∀ p q : Path, p.clean = p → q.clean = q → (compare p q = .eq ↔ p.bytes = q.bytes) ∧
      (compare p q = .eq → CacheStore.slotName p = CacheStore.slotName q) ∧
      (CacheStore.slotName p = CacheStore.slotName q →
        compare p q = .eq ∨ SlotName.Collide p.bytes q.bytes) := by
  refine ⟨fun base name hb => Lexical.normal_normalizeAgainst hb name,
    fun name hn => hn.normalizeAgainst_eq, fun name => Lexical.normal_iff,
    Lexical.clean_clean (by decide),
    fun a b ha hb => ⟨Lexical.components_eq_iff_of_clean ha hb, SlotName.eq_or_collide⟩, ?_,
    fun p q => compare_eq_iff.trans (same_iff_bytes p q), fun p q hp hq => ?_⟩
  · rintro (_ | dir) p
    · exact bytes_clean p
    · exact bytes_normalizeAgainst dir p
  · have hsame : compare p q = .eq ↔ p.bytes = q.bytes := by
      rw [bytes_injective.eq_iff]
      exact ⟨fun h => eq_of_same_clean hp hq (compare_eq_iff.mp h),
        fun h => h ▸ Std.ReflCmp.compare_self⟩
    exact ⟨hsame, fun h => congrArg SlotName.ofBytes (hsame.mp h),
      fun h => (SlotName.eq_or_collide h).imp_left hsame.mpr⟩

/-- A header named in two ways from a base, once through a directory that is no text, and its source. -/
theorem one_spelling_of_header :
    let base := Bytes.ofText "/w"
    let header := Bytes.ofText "/w/a/c.h"
    let source := Bytes.ofText "/w/a/c.cc"
    Lexical.normalizeAgainst slash dot base (Bytes.ofText "a//./" ++ 0xff :: Bytes.ofText "/../c.h/") =
        header ∧
      Lexical.normalizeAgainst slash dot base (Bytes.ofText "../../w/a/c.h") = header ∧
      Lexical.normalizeAgainst slash dot base (Bytes.ofText "a/c.cc") = source ∧
      Lexical.Normal slash dot header ∧ Lexical.Normal slash dot source ∧
      (∀ base, Lexical.normalizeAgainst slash dot base header = header) ∧
      Lexical.components slash dot header ≠ Lexical.components slash dot source ∧
      compare (⟨"/w/a/c.h"⟩ : Path) ⟨"/w/a/c.cc"⟩ ≠ .eq ∧
      CacheStore.slotName ⟨"/w/a/c.h"⟩ ≠ CacheStore.slotName ⟨"/w/a/c.cc"⟩ := by
  intro base header source
  obtain ⟨hnormal, hkeeps, hclean, -, hbytes, -, -, hpaths⟩ := one_spelling
  have hbase : Lexical.isAbsolute slash base = true := by decide +kernel
  have hdetour : Lexical.normalizeAgainst slash dot base
      (Bytes.ofText "a//./" ++ 0xff :: Bytes.ofText "/../c.h/") = header := by decide +kernel
  have hup : Lexical.normalizeAgainst slash dot base (Bytes.ofText "../../w/a/c.h") = header := by
    decide +kernel
  have hplain : Lexical.normalizeAgainst slash dot base (Bytes.ofText "a/c.cc") = source := by
    decide +kernel
  have hheader : Lexical.Normal slash dot header := hup ▸ hnormal base _ hbase
  have hsource : Lexical.Normal slash dot source := hplain ▸ hnormal base _ hbase
  have hne : header ≠ source := by decide +kernel
  have hapart : ¬ SlotName.Collide header source := fun h => absurd h.left (by decide +kernel)
  have hfiles := (hbytes header source ((hclean header).mp hheader).2 ((hclean source).mp hsource).2).1
  obtain ⟨hsame, -, hslot⟩ :=
    hpaths ⟨"/w/a/c.h"⟩ ⟨"/w/a/c.cc"⟩ (by decide +kernel) (by decide +kernel)
  have hdiffer : compare (⟨"/w/a/c.h"⟩ : Path) ⟨"/w/a/c.cc"⟩ ≠ .eq := fun h => hne (hsame.mp h)
  exact ⟨hdetour, hup, hplain, hheader, hsource, hkeeps header hheader,
    fun h => hne (hfiles.mp h), hdiffer, fun h => (hslot h).elim hdiffer hapart⟩

end Path

end SymbolIndex
