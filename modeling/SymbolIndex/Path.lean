import SymbolIndex.Path.Lexical

/-! File paths. A path keeps the spelling it was given; the order compares components, so two
spellings with the same components are the same key in every map (`same_iff`). -/

namespace SymbolIndex

open Lexical (Component)

/-- The text of a path is Unicode. A path that is not, which the file system allows, is only spoken of
by its bytes (`Lexical`). -/
structure Path where
  text : String
  deriving DecidableEq, Inhabited

namespace Path

def components (p : Path) : List (Component Char) := Lexical.components '/' '.' p.text.toList

/-- The place of a component among components of other kinds. -/
def rank : Component Char → Nat
  | .root => 0
  | .current => 1
  | .parent => 2
  | .normal _ => 3

def name : Component Char → List Char
  | .normal name => name
  | _ => []

instance : Ord (Component Char) := ⟨compareLex (compareOn rank) (compareOn name)⟩

instance : Std.TransOrd (Component Char) :=
  inferInstanceAs (Std.TransCmp (compareLex (compareOn rank) (compareOn name)))

instance : Ord Path := ⟨compareOn components⟩

instance : Std.TransOrd Path := inferInstanceAs (Std.TransCmp (compareOn components))

/-- Whether two paths are spellings of one. -/
def same (p q : Path) : Bool := compare p q == .eq

def isAbsolute (p : Path) : Bool := Lexical.isAbsolute '/' p.text.toList

def join (base p : Path) : Path :=
  ⟨.ofList (Lexical.join '/' base.text.toList p.text.toList)⟩

def clean (p : Path) : Path := ⟨.ofList (Lexical.clean '/' '.' p.text.toList)⟩

def normalizeAgainst (base p : Path) : Path :=
  ⟨.ofList (Lexical.normalizeAgainst '/' '.' base.text.toList p.text.toList)⟩

/-- The canonical spelling seen from a working directory; without one, the path is only cleaned. -/
def normalize (cwd : Option Path) (p : Path) : Path :=
  match cwd with
  | some dir => dir.normalizeAgainst p
  | none => p.clean

/-- The part of `p` below `base`, if `p` starts with all of `base`'s components. -/
def below? (base p : Path) : Option Path :=
  if base.components.isPrefixOf p.components then
    match p.components.drop base.components.length with
    | [] => some ⟨""⟩
    | cs => some ⟨.ofList (Lexical.spell '/' '.' cs)⟩
  else none

instance : Std.LawfulEqOrd (Component Char) where
  compare_self {a} := @Std.ReflCmp.compare_self (Component Char) compare _ a
  eq_of_compare {a b} h := by
    have h := (@compareLex_eq_eq _ (compareOn rank) (compareOn name) a b).1 h
    have hr : rank a = rank b := Std.LawfulEqOrd.eq_of_compare h.1
    have hn : name a = name b := Std.LawfulEqOrd.eq_of_compare h.2
    cases a <;> cases b <;> simp_all [rank, name]

/-- Two paths are spellings of one when they have the same components. -/
theorem same_iff {p q : Path} : p.same q = true ↔ p.components = q.components := by
  rw [same, beq_iff_eq]
  exact Std.LawfulEqOrd.compare_eq_iff_eq (α := List (Component Char))

@[simp] theorem same_self (p : Path) : p.same p = true := same_iff.mpr rfl

theorem same_comm (p q : Path) : p.same q = q.same p :=
  Bool.eq_iff_iff.mpr (same_iff.trans (eq_comm.trans same_iff.symm))

theorem same_trans {p q r : Path} (hpq : p.same q = true) (hqr : q.same r = true) :
    p.same r = true :=
  same_iff.mpr ((same_iff.mp hpq).trans (same_iff.mp hqr))

theorem same_congr {p q : Path} (h : p.same q = true) : p.same = q.same := by
  funext r
  rw [Bool.eq_iff_iff, same_iff, same_iff, same_iff.mp h]

theorem compare_eq_iff {p q : Path} : compare p q = .eq ↔ p.same q = true := by
  rw [same, beq_iff_eq]

end Path

/-- Nanoseconds since 1970, negative before. -/
abbrev Timestamp := Int64

end SymbolIndex
