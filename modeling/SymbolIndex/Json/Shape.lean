import SymbolIndex.Json
import SymbolIndex.Ordered.Set

/-! Reading values of known shape out of a JSON document. A record may be written as an object or as
the list of its fields in order; unknown fields are passed over, and a known field given twice is
refused. -/

namespace SymbolIndex.Json

def text? : Json → Option String
  | .string body => bodyText? body
  | _ => none

def int? : Json → Option Int
  | .number literal => intLiteral? literal
  | _ => none

/-- A whole number below a bound. -/
def natBelow? (bound : Nat) (j : Json) : Option Nat :=
  j.int?.bind fun n => if 0 ≤ n ∧ n < bound then some n.toNat else none

def u64? (j : Json) : Option UInt64 := (j.natBelow? UInt64.size).map UInt64.ofNat

def u32? (j : Json) : Option UInt32 := (j.natBelow? UInt32.size).map UInt32.ofNat

def u16? (j : Json) : Option UInt16 := (j.natBelow? UInt16.size).map UInt16.ofNat

def i64? (j : Json) : Option Int64 :=
  j.int?.bind fun n =>
    if Int64.minValue.toInt ≤ n ∧ n ≤ Int64.maxValue.toInt then some (Int64.ofInt n) else none

def bool? : Json → Option Bool
  | .bool b => some b
  | _ => none

/-- Null stands for the absence of a value. -/
def option? {α : Type} (read : Json → Option α) : Json → Option (Option α)
  | .null => some none
  | j => (read j).map some

def list? {α : Type} (read : Json → Option α) : Json → Option (List α)
  | .array items => items.mapM read
  | _ => none

def set? {α : Type} [Ord α] [Std.TransOrd α] (read : Json → Option α) (j : Json) :
    Option (OrderedSet α) :=
  (list? read j).map .ofList

/-- A map is an object whose names are read as keys from what stands between their quotes. -/
def map? {κ ν : Type} [Ord κ] [Std.TransOrd κ] (key : Bytes → Option κ) (read : Json → Option ν) :
    Json → Option (OrderedMap κ ν)
  | .object fields =>
    (fields.mapM fun e => (key e.1).bind fun k => (read e.2).map (k, ·)).map .ofList
  | _ => none

def key64 (n : UInt64) : Bytes := Bytes.ofText (toString n.toNat)

/-- The number that the bytes between the quotes of a field name write. -/
def ofKey64? (key : Bytes) : Option UInt64 :=
  (natLiteral? key).bind fun n => if n < UInt64.size then some (.ofNat n) else none

/-- A choice is a name, or an object whose only field is the name with what it carries. -/
def choice? : Json → Option (String × Option Json)
  | .string body => (bodyText? body).map (·, none)
  | .object [(name, payload)] => (bodyText? name).map (·, some payload)
  | _ => none

/-- A choice that carries nothing. -/
def bareChoice? (j : Json) : Option String :=
  match j.choice? with
  | some (name, none) => some name
  | some (name, some .null) => some name
  | _ => none

structure Members where
  positional : Bool
  given : List (String × Json)

/-- The fields a record gives, out of those it may have. -/
def members? (names : List String) : Json → Option Members
  | .array items =>
    if items.length ≤ names.length then some ⟨true, names.zip items⟩ else none
  | .object fields => do
    let named ← fields.mapM fun e => (bodyText? e.1).map (·, e.2)
    let known := named.filter fun e => names.contains e.1
    if (known.map (·.1)).Nodup then some ⟨false, known⟩ else none
  | _ => none

namespace Members

variable {α : Type}

def required (m : Members) (name : String) (read : Json → Option α) : Option α :=
  (m.given.lookup name).bind read

/-- A field that may be null, and may be missing from an object. -/
def optional (m : Members) (name : String) (read : Json → Option α) : Option (Option α) :=
  match m.given.lookup name with
  | some j => j.option? read
  | none => if m.positional then none else some none

def defaulted (m : Members) (name : String) (default : α) (read : Json → Option α) : Option α :=
  match m.given.lookup name with
  | some j => read j
  | none => some default

end Members

end SymbolIndex.Json
