import SymbolIndex.Hash.XXH3
import SymbolIndex.Text.Digits

/-! Symbol ids. An id is the hash of a symbol's signature, so two files that mention one symbol agree
on it without any table. Small ids are reserved for builtin types, and zero for symbols without a
signature. -/

namespace SymbolIndex

structure SymbolId where
  value : UInt64
  deriving DecidableEq, Inhabited

namespace SymbolId

instance : Ord SymbolId := ⟨compareOn value⟩

instance : Std.TransOrd SymbolId := inferInstanceAs (Std.TransCmp (compareOn value))

instance : Std.LawfulEqOrd SymbolId where
  compare_self {a} := @Std.ReflCmp.compare_self UInt64 compare _ a.value
  eq_of_compare {a b} h := by
    have : a.value = b.value := Std.LawfulEqOrd.eq_of_compare h
    cases a; cases b; cases this; rfl

def unknown : SymbolId := ⟨0⟩

/-- The smallest id a signature can hash to. -/
def firstHashed : UInt64 := 256

def isUnknown (id : SymbolId) : Bool := id = unknown

def isBuiltin (id : SymbolId) : Bool := id.value ≠ 0 ∧ id.value < firstHashed

/-- The id of a signature; a hash in the reserved range is moved out of it. -/
def ofSignature (signature : String) : SymbolId :=
  if signature = "" then unknown
  else
    let hash := XXH3.hash64 (Bytes.ofText signature)
    if hash < firstHashed then ⟨hash + firstHashed⟩ else ⟨hash⟩

def builtins : List (String × UInt64) := [
  ("void", 1), ("bool", 2), ("char", 3), ("signed char", 4), ("unsigned char", 5), ("wchar_t", 6),
  ("char8_t", 7), ("char16_t", 8), ("char32_t", 9), ("short", 10), ("unsigned short", 11),
  ("int", 12), ("unsigned int", 13), ("long", 14), ("unsigned long", 15), ("long long", 16),
  ("unsigned long long", 17), ("__int128", 18), ("unsigned __int128", 19), ("float", 20),
  ("double", 21), ("long double", 22), ("__float128", 23), ("nullptr_t", 24)]

def ofBuiltin? (name : String) : Option SymbolId := (builtins.lookup name).map .mk

def builtinName? (id : SymbolId) : Option String :=
  (builtins.find? fun e => e.2 = id.value).map (·.1)

/-- Sixteen lower-case hexadecimal digits. -/
def text (id : SymbolId) : String := Digits.hex 16 id.value.toNat

end SymbolId

end SymbolIndex
