/-! Where a symbol appears in a file and in which roles. -/

namespace SymbolIndex

/-- A range of a file; lines and columns count from one and the end column is excluded. -/
structure Span where
  startLine : UInt32
  startColumn : UInt32
  endLine : UInt32
  endColumn : UInt32
  deriving DecidableEq, Inhabited

namespace Span

instance : Ord Span :=
  ⟨compareLex (compareOn startLine) <| compareLex (compareOn startColumn) <|
    compareLex (compareOn endLine) (compareOn endColumn)⟩

instance : Std.TransOrd Span :=
  inferInstanceAs (Std.TransCmp (compareLex (compareOn startLine) (compareLex (compareOn startColumn)
    (compareLex (compareOn endLine) (compareOn endColumn)))))

instance : Std.LawfulEqOrd Span where
  compare_self {a} := @Std.ReflCmp.compare_self Span compare _ a
  eq_of_compare {a b} h := by
    simp only [compare, compareLex_eq_eq] at h
    have h₁ : a.startLine = b.startLine := Std.LawfulEqOrd.eq_of_compare h.1
    have h₂ : a.startColumn = b.startColumn := Std.LawfulEqOrd.eq_of_compare h.2.1
    have h₃ : a.endLine = b.endLine := Std.LawfulEqOrd.eq_of_compare h.2.2.1
    have h₄ : a.endColumn = b.endColumn := Std.LawfulEqOrd.eq_of_compare h.2.2.2
    cases a; cases b; simp_all

/-- A range whose end is not before its start. -/
def ofEnds? (startLine startColumn endLine endColumn : UInt32) : Option Span :=
  if endLine < startLine ∨ (endLine = startLine ∧ endColumn < startColumn) then none
  else some ⟨startLine, startColumn, endLine, endColumn⟩

def onLine (line startColumn endColumn : UInt32) : Span :=
  ⟨line, startColumn, line, max endColumn startColumn⟩

def text (s : Span) : String :=
  s!"{s.startLine}:{s.startColumn}-{s.endLine}:{s.endColumn}"

end Span

/-- A set of roles, one bit each. -/
structure Role where
  bits : UInt16
  deriving DecidableEq, Inhabited

namespace Role

instance : Ord Role := ⟨compareOn bits⟩

instance : Std.TransOrd Role := inferInstanceAs (Std.TransCmp (compareOn bits))

instance : Std.LawfulEqOrd Role where
  compare_self {a} := @Std.ReflCmp.compare_self UInt16 compare _ a.bits
  eq_of_compare {a b} h := by
    have : a.bits = b.bits := Std.LawfulEqOrd.eq_of_compare h
    cases a; cases b; cases this; rfl

def names : List (String × Role) := [
  ("declaration", ⟨1⟩), ("definition", ⟨2⟩), ("reference", ⟨4⟩), ("read", ⟨8⟩), ("write", ⟨16⟩),
  ("call", ⟨32⟩), ("dynamic", ⟨64⟩), ("address", ⟨128⟩), ("implicit", ⟨256⟩)]

def union (a b : Role) : Role := ⟨a.bits ||| b.bits⟩

def contains (a b : Role) : Bool := a.bits &&& b.bits = b.bits

def intersects (a b : Role) : Bool := a.bits &&& b.bits ≠ 0

/-- The role of a name, in any mixture of ASCII cases. -/
def ofName? (name : String) : Option Role := names.lookup (name.map Char.toLower)

/-- The names of the roles in the set, joined by bars. -/
def text (r : Role) : String :=
  match names.filter fun e => r.contains e.2 with
  | [] => "none"
  | held => "|".intercalate (held.map (·.1))

end Role

structure Use where
  span : Span
  role : Role
  deriving DecidableEq, Inhabited

namespace Use

instance : Ord Use := ⟨compareLex (compareOn span) (compareOn role)⟩

instance : Std.TransOrd Use :=
  inferInstanceAs (Std.TransCmp (compareLex (compareOn span) (compareOn role)))

instance : Std.LawfulEqOrd Use where
  compare_self {a} := @Std.ReflCmp.compare_self Use compare _ a
  eq_of_compare {a b} h := by
    have h := (@compareLex_eq_eq _ (compareOn span) (compareOn role) a b).1 h
    have hs : a.span = b.span := Std.LawfulEqOrd.eq_of_compare h.1
    have hr : a.role = b.role := Std.LawfulEqOrd.eq_of_compare h.2
    cases a; cases b; cases hs; cases hr; rfl

end Use

end SymbolIndex
