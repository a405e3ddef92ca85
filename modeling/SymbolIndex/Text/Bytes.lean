import SymbolIndex.Text.Digits

/-! Byte strings and the text they spell. Main statement: `text?_ofText`, that a text is read back
from its bytes. -/

namespace SymbolIndex

abbrev Bytes := List UInt8

namespace Bytes

/-- The UTF-8 form of a text. -/
def ofText (s : String) : Bytes := s.toUTF8.data.toList

/-- The text whose UTF-8 form this is, if there is one. -/
def text? (b : Bytes) : Option String := String.fromUTF8? ⟨b.toArray⟩

@[simp] theorem text?_ofText (s : String) : text? (ofText s) = some s := by
  have h : (⟨s.toUTF8.data⟩ : ByteArray).IsValidUTF8 := s.isValidUTF8
  simp only [text?, ofText, String.fromUTF8?]
  exact dif_pos h

/-- Two hexadecimal digits for each byte. -/
def hex (b : Bytes) : String := String.join (b.map fun x => Digits.hex 2 x.toNat)

def ofHexDigits? : List Char → Option Bytes
  | [] => some []
  | [_] => none
  | a :: b :: rest => do return .ofNat (← Digits.hex? [a, b]) :: (← ofHexDigits? rest)

def ofHex? (text : String) : Option Bytes := ofHexDigits? text.toList

end Bytes

end SymbolIndex
