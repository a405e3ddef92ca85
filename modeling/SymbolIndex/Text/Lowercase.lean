import SymbolIndex.Text.CaseTable

/-! Lower-case text. Every letter is replaced by its lower-case form on its own, except that a
capital sigma at the end of a word becomes the final form. -/

namespace SymbolIndex.Lowercase

def inRanges (table : Array (Nat × Nat)) (c : Char) : Bool :=
  table.any fun r => r.1 ≤ c.toNat ∧ c.toNat ≤ r.2

/-- The lower-case form of one character. -/
def char (c : Char) : List Char :=
  if c.toNat < 128 then [c.toLower]
  else if c.toNat = 0x130 then ['i', .ofNat 0x307]
  else match CaseTable.lower.find? fun r => r.1 ≤ c.toNat ∧ c.toNat ≤ r.2.1 ∧
      (c.toNat - r.1) % r.2.2.1 = 0 with
    | some (first, _, _, target) => [.ofNat (target + (c.toNat - first))]
    | none => [c]

/-- Whether a letter with case comes first, once ignorable characters are passed over. -/
def startsCased (cs : List Char) : Bool :=
  match cs.dropWhile (inRanges CaseTable.ignorable) with
  | c :: _ => inRanges CaseTable.cased c
  | [] => false

/-- `before` holds the characters already passed, the latest first. -/
def chars (before : List Char) : List Char → List Char
  | [] => []
  | c :: rest =>
    let lower :=
      if c.toNat = 0x3a3 then
        [.ofNat (if startsCased before && !startsCased rest then 0x3c2 else 0x3c3)]
      else char c
    lower ++ chars (c :: before) rest

def text (s : String) : String := .ofList (chars [] s.toList)

end SymbolIndex.Lowercase
