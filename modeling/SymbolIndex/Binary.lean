import SymbolIndex.Text.Bytes
import SymbolIndex.Ordered.Set

/-! The binary form of values: little-endian numbers of fixed width, lengths of eight bytes in front
of texts and collections, one byte in front of an optional value, and records as their fields in
order. A reader takes a value off the front of its input. -/

namespace SymbolIndex.Binary

abbrev Reader (α : Type) := Bytes → Option (α × Bytes)

def natBytes : (width : Nat) → Nat → Bytes
  | 0, _ => []
  | width + 1, n => UInt8.ofNat n :: natBytes width (n / 256)

def readNat : (width : Nat) → Reader Nat
  | 0, bytes => some (0, bytes)
  | _ + 1, [] => none
  | width + 1, b :: rest => (readNat width rest).map fun r => (b.toNat + 256 * r.1, r.2)

def u16 (x : UInt16) : Bytes := natBytes 2 x.toNat

def u32 (x : UInt32) : Bytes := natBytes 4 x.toNat

def u64 (x : UInt64) : Bytes := natBytes 8 x.toNat

def i64 (x : Int64) : Bytes := u64 x.toUInt64

def length (n : Nat) : Bytes := natBytes 8 n

def text (s : String) : Bytes := length (Bytes.ofText s).length ++ Bytes.ofText s

def option {α : Type} (f : α → Bytes) : Option α → Bytes
  | none => [0]
  | some a => 1 :: f a

def list {α : Type} (f : α → Bytes) (items : List α) : Bytes :=
  length items.length ++ items.flatMap f

def set {α : Type} [Ord α] (f : α → Bytes) (s : OrderedSet α) : Bytes := list f s.toList

def map {κ ν : Type} [Ord κ] (f : κ → Bytes) (g : ν → Bytes) (m : OrderedMap κ ν) : Bytes :=
  list (fun e => f e.1 ++ g e.2) m.entries

def readU16 : Reader UInt16 := fun bytes => (readNat 2 bytes).map fun r => (.ofNat r.1, r.2)

def readU32 : Reader UInt32 := fun bytes => (readNat 4 bytes).map fun r => (.ofNat r.1, r.2)

def readU64 : Reader UInt64 := fun bytes => (readNat 8 bytes).map fun r => (.ofNat r.1, r.2)

def readI64 : Reader Int64 := fun bytes => (readU64 bytes).map fun r => (r.1.toInt64, r.2)

/-- The first `n` bytes, if there are as many. -/
def readBytes (n : Nat) : Reader Bytes := fun bytes =>
  if n ≤ bytes.length then some (bytes.take n, bytes.drop n) else none

def readText : Reader String := fun bytes => do
  let (n, rest) ← readNat 8 bytes
  let (body, rest) ← readBytes n rest
  return (← Bytes.text? body, rest)

def readOption {α : Type} (read : Reader α) : Reader (Option α)
  | 0 :: rest => some (none, rest)
  | 1 :: rest => (read rest).map fun r => (some r.1, r.2)
  | _ => none

def readMany {α : Type} (read : Reader α) : (count : Nat) → Reader (List α)
  | 0, bytes => some ([], bytes)
  | count + 1, bytes =>
    match read bytes with
    | none => none
    | some (a, rest) => (readMany read count rest).map fun r => (a :: r.1, r.2)

def readList {α : Type} (read : Reader α) : Reader (List α) := fun bytes =>
  (readNat 8 bytes).bind fun r => readMany read r.1 r.2

def readPair {α β : Type} (first : Reader α) (second : Reader β) : Reader (α × β) := fun bytes => do
  let (a, rest) ← first bytes
  let (b, rest) ← second rest
  return ((a, b), rest)

def readSet {α : Type} [Ord α] [Std.TransOrd α] (read : Reader α) : Reader (OrderedSet α) :=
  fun bytes => (readList read bytes).map fun r => (.ofList r.1, r.2)

def readMap {κ ν : Type} [Ord κ] [Std.TransOrd κ] (key : Reader κ) (read : Reader ν) :
    Reader (OrderedMap κ ν) :=
  fun bytes => (readList (readPair key read) bytes).map fun r => (.ofList r.1, r.2)

/-- The largest value that is decoded, in bytes. -/
def limit : Nat := 256 * 1024 * 1024

/-- A value that takes up the whole input. -/
def decode? {α : Type} (read : Reader α) (bytes : Bytes) : Option α :=
  match read bytes with
  | some (a, []) => if bytes.length ≤ limit then some a else none
  | _ => none

/-- A value at the front of the input. -/
def decodeFront? {α : Type} (read : Reader α) (bytes : Bytes) : Option α :=
  match read bytes with
  | some (a, rest) => if bytes.length ≤ limit + rest.length then some a else none
  | none => none

end SymbolIndex.Binary
