import SymbolIndex.Hash.XXH3
import SymbolIndex.Text.Digits

/-! Slot names: file names that stand for source paths. Bytes that mean something to a file system
or to the encoding are written as a percent sign and two digits, so that distinct paths get distinct
names without a dot. A name that would be too long keeps its front and ends in a tilde and a hash of
the whole. -/

namespace SymbolIndex.SlotName

/-- The longest name written in full. -/
def maxLength : Nat := 180

/-- How much of a longer name is kept. -/
def keptLength : Nat := 120

def escaped : List Char := ['/', '\\', ':', '.', '%', '~', ' ', '*', '?', '"', '<', '>', '|']

def isEscaped (b : UInt8) : Bool :=
  b < 32 || 127 ≤ b || escaped.contains (.ofNat b.toNat)

def upperDigit (n : Nat) : Char := if n < 10 then .ofNat (48 + n) else .ofNat (55 + n)

def encodeByte (b : UInt8) : List Char :=
  if isEscaped b then ['%', upperDigit (b.toNat / 16), upperDigit (b.toNat % 16)]
  else [.ofNat b.toNat]

def encode (path : Bytes) : List Char := path.flatMap encodeByte

def digest (name : List Char) : List Char :=
  let hash := XXH3.hash128 (Bytes.ofText (.ofList name))
  Digits.hexChars 16 hash.high.toNat ++ Digits.hexChars 16 hash.low.toNat

/-- The slot name of a path, as characters. -/
def ofBytes (path : Bytes) : List Char :=
  let name := encode path
  if name.length ≤ maxLength then name else name.take keptLength ++ '~' :: digest name

def ofText (path : String) : String := .ofList (ofBytes (Bytes.ofText path))

end SymbolIndex.SlotName
