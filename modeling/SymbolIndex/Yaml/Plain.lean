import SymbolIndex.Text.Digits

/-! What an unquoted scalar stands for: nothing, a truth value, a number, or else its text. -/

namespace SymbolIndex.Yaml.Plain

def isNull (text : String) : Bool := ["null", "Null", "NULL", "~"].contains text

def bool? (text : String) : Option Bool :=
  if ["true", "True", "TRUE"].contains text then some true
  else if ["false", "False", "FALSE"].contains text then some false
  else none

/-- Text behind a sign, if there is one. -/
def unsigned (text : List Char) : List Char :=
  match text with
  | '+' :: rest | '-' :: rest => rest
  | _ => text

/-- Digits with a zero in front are no number. -/
def isPaddedNumber (text : List Char) : Bool :=
  match unsigned text with
  | '0' :: c :: rest => (c :: rest).all Char.isDigit
  | _ => false

/-- A whole number without a sign, in the base that its first characters name. -/
def magnitude? : List Char → Option Nat
  | '0' :: 'x' :: digits => Digits.hex? digits
  | '0' :: 'o' :: digits => Digits.octal? digits
  | '0' :: 'b' :: digits =>
    Digits.read? 2 (fun c => if c = '0' then some 0 else if c = '1' then some 1 else none) digits
  | digits => if isPaddedNumber digits then none else Digits.decimal? digits

/-- A whole number that may have a plus sign. -/
def nat? (text : String) : Option Nat :=
  match text.toList with
  | '+' :: rest => magnitude? rest
  | cs => magnitude? cs

/-- Whether a text is an integer of at most 128 bits. -/
def isInteger (text : String) : Bool :=
  match text.toList with
  | '-' :: rest => (magnitude? rest).any (· ≤ 1 <<< 127)
  | _ => (nat? text).any (· < 1 <<< 128)

/-- A decimal fraction: the digits before and after the point together, and the power of ten that
they count. -/
def decimal? (text : List Char) : Option (List Char × Int) :=
  let (whole, rest) := text.span Char.isDigit
  let (fraction, rest) := match rest with
    | '.' :: rest => rest.span Char.isDigit
    | _ => ([], rest)
  let digits := whole ++ fraction
  if digits = [] then none
  else match rest with
    | [] => some (digits, -fraction.length)
    | e :: power =>
      if e = 'e' ∨ e = 'E' then
        (Digits.decimal? (unsigned power)).map fun n =>
          (digits, (if power.head? = some '-' then -(n : Int) else n) - fraction.length)
      else none

/-- The smallest number that rounds to infinity in double precision. -/
def firstInfinite : Nat := 1 <<< 1024 - 1 <<< 970

def isFinite (digits : List Char) (power : Int) : Bool :=
  let digits := digits.dropWhile (· = '0')
  let n := (Digits.decimal? digits).getD 0
  if n = 0 ∨ digits.length + power < 300 then true
  else if 310 < digits.length + power then false
  else if 0 ≤ power then n * Nat.pow 10 power.toNat < firstInfinite
  else n < firstInfinite * Nat.pow 10 (-power).toNat

/-- Whether a text is a number with a fraction or an exponent, an infinity or not a number. -/
def isFloat (text : String) : Bool :=
  let named := [".inf", ".Inf", ".INF"]
  match text.toList with
  | '+' :: '+' :: _ | '+' :: '-' :: _ => false
  | cs =>
    named.contains (String.ofList (unsigned cs)) || [".nan", ".NaN", ".NAN"].contains text ||
      (decimal? (unsigned cs)).any fun r => isFinite r.1 r.2

/-- Whether a text has to be quoted so that it is read back as a text. -/
def isAmbiguous (text : String) : Bool :=
  text = "" || isNull text || (bool? text).isSome || isInteger text ||
    isPaddedNumber text.toList || isFloat text

end SymbolIndex.Yaml.Plain
