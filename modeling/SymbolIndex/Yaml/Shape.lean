import SymbolIndex.Yaml.Node
import SymbolIndex.Yaml.Plain

/-! Reading values of known shape out of a YAML document. What is unquoted may stand for a truth
value, a number or nothing; every scalar may stand for its text. -/

namespace SymbolIndex.Yaml.Document

def standardTag (name : String) : String := "tag:yaml.org,2002:" ++ name

def scalar? (d : Document) (node : Node) : Option Scalar :=
  match d.follow node with
  | .scalar s => some s
  | _ => none

def text? (d : Document) (node : Node) : Option String := (d.scalar? node).map (·.text)

/-- The text of a scalar that may be something else than text: an unquoted one, or a literal block
that is tagged as what is asked for. -/
def typed? (d : Document) (tag : String) (node : Node) : Option String :=
  (d.scalar? node).bind fun s =>
    if s.style = .plain ∨ (s.style = .literal ∧ s.tag = some (standardTag tag)) then some s.text
    else none

def bool? (d : Document) (node : Node) : Option Bool := (d.typed? "bool" node).bind Plain.bool?

/-- A whole number of 64 bits. -/
def nat64? (d : Document) (node : Node) : Option Nat :=
  ((d.typed? "int" node).bind Plain.nat?).filter (· < UInt64.size)

def isEmptyPlain (node : Node) : Bool :=
  match node with
  | .scalar s => s.style = .plain && s.text = ""
  | _ => false

/-- A missing value is an empty list. -/
def list? {α : Type} (d : Document) (read : Node → Option α) (node : Node) : Option (List α) :=
  match d.follow node with
  | .sequence _ items => items.mapM read
  | node => if isEmptyPlain node then some [] else none

/-- A null or a missing value is no value. -/
def option? {α : Type} (d : Document) (read : Node → Option α) (node : Node) :
    Option (Option α) :=
  match d.follow node with
  | .scalar ⟨text, .plain, none⟩ =>
    if text = "" ∨ Plain.isNull text then some none else (read node).map some
  | .scalar ⟨text, .plain, some tag⟩ =>
    if tag = standardTag "null" then
      if Plain.isNull text then some none else none
    else (read node).map some
  | _ => (read node).map some

/-- The name of a choice: a tag of its own in front of nothing, or else the text. -/
def choice? (d : Document) (node : Node) : Option String :=
  (d.scalar? node).bind fun s =>
    match s.tag.map String.toList with
    | some ('!' :: name) =>
      if s.style = .plain ∧ (s.text = "" ∨ Plain.isNull s.text) then some (.ofList name) else none
    | _ => some s.text

/-- The fields of a mapping out of those it may have; an empty document has none. A known field
must not be given twice. -/
def fields? (d : Document) (names : List String) : Option (List (String × Node)) :=
  match d.root.map d.follow with
  | none => some []
  | some (.mapping _ fields) => do
    let named ← fields.mapM fun e => (d.text? e.1).map (·, e.2)
    let known := named.filter fun e => names.contains e.1
    if (known.map (·.1)).Nodup then some known else none
  | some node => if isEmptyPlain node then some [] else none

end SymbolIndex.Yaml.Document
