/-! Numbers written and read as digits. -/

namespace SymbolIndex.Digits

def hexDigit (n : Nat) : Char := if n < 10 then .ofNat (48 + n) else .ofNat (87 + n)

/-- The last `width` lower-case hexadecimal digits of a number. -/
def hexChars : (width : Nat) → Nat → List Char
  | 0, _ => []
  | width + 1, n => hexChars width (n / 16) ++ [hexDigit (n % 16)]

def hex (width n : Nat) : String := .ofList (hexChars width n)

def hexValue? (c : Char) : Option Nat :=
  if '0' ≤ c ∧ c ≤ '9' then some (c.toNat - 48)
  else if 'a' ≤ c ∧ c ≤ 'f' then some (c.toNat - 87)
  else if 'A' ≤ c ∧ c ≤ 'F' then some (c.toNat - 55)
  else none

def decimalValue? (c : Char) : Option Nat :=
  if '0' ≤ c ∧ c ≤ '9' then some (c.toNat - 48) else none

def octalValue? (c : Char) : Option Nat :=
  if '0' ≤ c ∧ c ≤ '7' then some (c.toNat - 48) else none

/-- The number a nonempty list of digits writes in the given base. -/
def read? (base : Nat) (digit? : Char → Option Nat) : List Char → Option Nat
  | [] => none
  | cs => cs.foldlM (fun n c => (digit? c).map (n * base + ·)) 0

def decimal? : List Char → Option Nat := read? 10 decimalValue?

def hex? : List Char → Option Nat := read? 16 hexValue?

def octal? : List Char → Option Nat := read? 8 octalValue?

end SymbolIndex.Digits
