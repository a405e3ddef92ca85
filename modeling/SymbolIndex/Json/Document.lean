import SymbolIndex.Json

/-! The text of a JSON document: `render` writes it without blanks and `parse?` reads it. -/

namespace SymbolIndex.Json

mutual

def render : Json → Bytes
  | .null => Bytes.ofText "null"
  | .bool true => Bytes.ofText "true"
  | .bool false => Bytes.ofText "false"
  | .number literal => literal
  | .string body => 0x22 :: (body ++ [0x22])
  | .array items => 0x5b :: renderItems items
  | .object fields => 0x7b :: renderFields fields

def renderItems : List Json → Bytes
  | [] => [0x5d]
  | item :: items =>
    match items with
    | [] => render item ++ [0x5d]
    | _ :: _ => render item ++ 0x2c :: renderItems items

def renderFields : List (Bytes × Json) → Bytes
  | [] => [0x7d]
  | (name, value) :: fields =>
    match fields with
    | [] => 0x22 :: (name ++ 0x22 :: 0x3a :: (render value ++ [0x7d]))
    | _ :: _ => 0x22 :: (name ++ 0x22 :: 0x3a :: (render value ++ 0x2c :: renderFields fields))

end

def isBlank (b : UInt8) : Bool := b = 0x20 ∨ b = 0x0a ∨ b = 0x0d ∨ b = 0x09

def skipBlanks (bytes : Bytes) : Bytes := bytes.dropWhile isBlank

def isDigit (b : UInt8) : Bool := 0x30 ≤ b ∧ b ≤ 0x39

/-- Read a string body up to its closing quote. Escapes must be well formed and control characters
are refused, but nothing is decoded. -/
def readBody : Bytes → Option (Bytes × Bytes)
  | [] => none
  | 0x22 :: rest => some ([], rest)
  | 0x5c :: 0x75 :: a :: b :: c :: d :: rest =>
    if (codeUnit? a b c d).isSome then
      (readBody rest).map fun r => (0x5c :: 0x75 :: a :: b :: c :: d :: r.1, r.2)
    else none
  | 0x5c :: c :: rest =>
    if (unescapeLetter? c).isSome then (readBody rest).map fun r => (0x5c :: c :: r.1, r.2)
    else none
  | c :: rest => if c < 0x20 then none else (readBody rest).map fun r => (c :: r.1, r.2)

def readSign : Bytes → Bytes × Bytes
  | 0x2d :: rest => ([0x2d], rest)
  | rest => ([], rest)

def readFraction : Bytes → Option (Bytes × Bytes)
  | 0x2e :: rest =>
    let (digits, rest) := rest.span isDigit
    if digits = [] then none else some (0x2e :: digits, rest)
  | rest => some ([], rest)

def readExponent : Bytes → Option (Bytes × Bytes)
  | e :: rest =>
    if e = 0x65 ∨ e = 0x45 then
      let (sign, rest) := match rest with
        | s :: rest' => if s = 0x2b ∨ s = 0x2d then ([s], rest') else ([], rest)
        | [] => ([], rest)
      let (digits, rest) := rest.span isDigit
      if digits = [] then none else some (e :: (sign ++ digits), rest)
    else some ([], e :: rest)
  | [] => some ([], [])

def readNumber (bytes : Bytes) : Option (Bytes × Bytes) := do
  let (sign, rest) := readSign bytes
  let (whole, rest) := rest.span isDigit
  if whole = [] ∨ (2 ≤ whole.length ∧ whole.head? = some 0x30) then none
  else
    let (fraction, rest) ← readFraction rest
    let (exponent, rest) ← readExponent rest
    return (sign ++ whole ++ fraction ++ exponent, rest)

/-- Items separated by commas, up to and with the closing byte. -/
def readSeparated {α : Type} (item : Bytes → Option (α × Bytes)) (close : UInt8) :
    (fuel : Nat) → Bytes → Option (List α × Bytes)
  | 0, _ => none
  | fuel + 1, bytes =>
    match item bytes with
    | none => none
    | some (x, rest) =>
      match skipBlanks rest with
      | [] => none
      | b :: rest =>
        if b = close then some ([x], rest)
        else if b = 0x2c then
          (readSeparated item close fuel rest).map fun r => (x :: r.1, r.2)
        else none

def readField (value : Bytes → Option (Json × Bytes)) (bytes : Bytes) :
    Option ((Bytes × Json) × Bytes) :=
  match skipBlanks bytes with
  | 0x22 :: rest => do
    let (name, rest) ← readBody rest
    match skipBlanks rest with
    | 0x3a :: rest => (value rest).map fun r => ((name, r.1), r.2)
    | _ => none
  | _ => none

def readValue : (fuel : Nat) → Bytes → Option (Json × Bytes)
  | 0, _ => none
  | fuel + 1, bytes =>
    match skipBlanks bytes with
    | 0x6e :: 0x75 :: 0x6c :: 0x6c :: rest => some (.null, rest)
    | 0x74 :: 0x72 :: 0x75 :: 0x65 :: rest => some (.bool true, rest)
    | 0x66 :: 0x61 :: 0x6c :: 0x73 :: 0x65 :: rest => some (.bool false, rest)
    | 0x22 :: rest => (readBody rest).map fun r => (.string r.1, r.2)
    | 0x5b :: rest =>
      match skipBlanks rest with
      | 0x5d :: rest => some (.array [], rest)
      | rest => (readSeparated (readValue fuel) 0x5d fuel rest).map fun r => (.array r.1, r.2)
    | 0x7b :: rest =>
      match skipBlanks rest with
      | 0x7d :: rest => some (.object [], rest)
      | rest =>
        (readSeparated (readField (readValue fuel)) 0x7d fuel rest).map fun r => (.object r.1, r.2)
    | rest => (readNumber rest).map fun r => (.number r.1, r.2)

/-- The document these bytes write, with nothing but blanks around it. -/
def parse? (bytes : Bytes) : Option Json :=
  match readValue (bytes.length + 1) bytes with
  | some (value, rest) => if skipBlanks rest = [] then some value else none
  | none => none

end SymbolIndex.Json
