import SymbolIndex.Text.Bytes
import SymbolIndex.Text.Digits

/-! JSON documents as they are written. Numbers keep their literal and strings what stands between
the quotes, so a document is exactly what a reader saw; what a literal or a string means is asked
only where a value is wanted. -/

namespace SymbolIndex

inductive Json
  | null
  | bool (b : Bool)
  | number (literal : Bytes)
  | string (body : Bytes)
  | array (items : List Json)
  | object (fields : List (Bytes × Json))
  deriving Inhabited

namespace Json

def ascii (c : Char) : UInt8 := c.toNat.toUInt8

/-- A quote, a backslash or a control character is escaped, all else stands for itself. -/
def escapeChar (c : Char) : Bytes :=
  if c = '"' ∨ c = '\\' then [ascii '\\', ascii c]
  else if ' ' ≤ c then String.utf8EncodeChar c
  else if c = '\n' then [ascii '\\', ascii 'n']
  else if c = '\r' then [ascii '\\', ascii 'r']
  else if c = '\t' then [ascii '\\', ascii 't']
  else if c.toNat = 8 then [ascii '\\', ascii 'b']
  else if c.toNat = 12 then [ascii '\\', ascii 'f']
  else [ascii '\\', ascii 'u'] ++ (Digits.hexChars 4 c.toNat).map ascii

def escape (s : String) : Bytes := s.toList.flatMap escapeChar

def hexValue? (b : UInt8) : Option Nat := Digits.hexValue? (.ofNat b.toNat)

def codeUnit? (a b c d : UInt8) : Option Nat := do
  return (((← hexValue? a) * 16 + (← hexValue? b)) * 16 + (← hexValue? c)) * 16 + (← hexValue? d)

/-- What a one-letter escape stands for. -/
def unescapeLetter? (c : UInt8) : Option UInt8 :=
  if c = ascii '"' ∨ c = ascii '\\' ∨ c = ascii '/' then some c
  else if c = ascii 'n' then some 10
  else if c = ascii 'r' then some 13
  else if c = ascii 't' then some 9
  else if c = ascii 'b' then some 8
  else if c = ascii 'f' then some 12
  else none

/-- The bytes a string body stands for. Code units above the basic plane come in pairs, and half a
pair stands for nothing. -/
def unescape : Bytes → Option Bytes
  | [] => some []
  | 0x5c :: 0x75 :: a :: b :: c :: d :: rest =>
    match codeUnit? a b c d with
    | none => none
    | some n =>
      if n < 0xd800 ∨ 0xdfff < n then
        (unescape rest).map (String.utf8EncodeChar (.ofNat n) ++ ·)
      else if 0xdbff < n then none
      else match rest with
        | 0x5c :: 0x75 :: e :: f :: g :: h :: rest =>
          match codeUnit? e f g h with
          | none => none
          | some m =>
            if m < 0xdc00 ∨ 0xdfff < m then none
            else (unescape rest).map
              (String.utf8EncodeChar (.ofNat (0x10000 + (n - 0xd800) * 0x400 + (m - 0xdc00))) ++ ·)
        | _ => none
  | 0x5c :: c :: rest =>
    match unescapeLetter? c with
    | some u => (unescape rest).map (u :: ·)
    | none => none
  | c :: rest => (unescape rest).map (c :: ·)

/-- The text a string body stands for. -/
def bodyText? (body : Bytes) : Option String := (unescape body).bind Bytes.text?

def ofText (s : String) : Json := .string (escape s)

def ofInt (n : Int) : Json := .number (Bytes.ofText (toString n))

def ofNat (n : Nat) : Json := .number (Bytes.ofText (toString n))

def ofOption {α : Type} (f : α → Json) : Option α → Json
  | none => .null
  | some a => f a

def ofList {α : Type} (f : α → Json) (items : List α) : Json := .array (items.map f)

def ofFields (fields : List (String × Json)) : Json :=
  .object (fields.map fun e => (escape e.1, e.2))

/-- The whole number a literal of digits writes; no leading zeros. -/
def natLiteral? (literal : Bytes) : Option Nat :=
  let cs := literal.map fun b => Char.ofNat b.toNat
  if 2 ≤ cs.length ∧ cs.head? = some '0' then none else Digits.decimal? cs

/-- The integer a literal writes; none for a fraction, an exponent or a negative zero. -/
def intLiteral? : Bytes → Option Int
  | 0x2d :: digits => (natLiteral? digits).bind fun n => if n = 0 then none else some (-n)
  | digits => (natLiteral? digits).map Int.ofNat

end Json

end SymbolIndex
