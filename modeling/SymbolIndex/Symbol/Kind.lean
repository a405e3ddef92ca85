/-! The kinds of symbols, of their storage and of the relations between them. -/

namespace SymbolIndex

inductive Category
  | type
  | func
  | var
  deriving DecidableEq, Inhabited

namespace Category

def all : List Category := [.type, .func, .var]

def name : Category → String
  | .type => "type"
  | .func => "func"
  | .var => "var"

def ofName? (name : String) : Option Category := all.find? fun c => c.name = name

theorem mem_all (c : Category) : c ∈ all := by cases c <;> decide

end Category

inductive StorageClass
  | unspecified
  | external
  | static
  | privateExtern
  | auto
  | register
  deriving DecidableEq, Inhabited

namespace StorageClass

def all : List StorageClass := [.unspecified, .external, .static, .privateExtern, .auto, .register]

def name : StorageClass → String
  | .unspecified => "none"
  | .external => "extern"
  | .static => "static"
  | .privateExtern => "private_extern"
  | .auto => "auto"
  | .register => "register"

def ofName? (name : String) : Option StorageClass := all.find? fun s => s.name = name

end StorageClass

/-- The lists of related symbols; `derived`, `callers`, `members` and `instances` are kept at the
target of a relation, the others at its source. -/
inductive RelationKind
  | bases
  | derived
  | callees
  | callers
  | members
  | instances
  deriving DecidableEq, Inhabited

namespace RelationKind

def all : List RelationKind := [.bases, .derived, .callees, .callers, .members, .instances]

def name : RelationKind → String
  | .bases => "bases"
  | .derived => "derived"
  | .callees => "callees"
  | .callers => "callers"
  | .members => "members"
  | .instances => "instances"

def ofName? (name : String) : Option RelationKind := all.find? fun k => k.name = name

instance : Ord RelationKind := ⟨compareOn RelationKind.ctorIdx⟩

instance : Std.TransOrd RelationKind :=
  inferInstanceAs (Std.TransCmp (compareOn RelationKind.ctorIdx))

instance : Std.LawfulEqOrd RelationKind where
  compare_self {a} := @Std.ReflCmp.compare_self Nat compare _ a.ctorIdx
  eq_of_compare {a b} h := by
    have : a.ctorIdx = b.ctorIdx := Std.LawfulEqOrd.eq_of_compare h
    cases a <;> cases b <;> first | rfl | cases this

end RelationKind

end SymbolIndex
