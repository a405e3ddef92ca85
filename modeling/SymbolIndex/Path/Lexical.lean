/-! The lexical structure of slash-separated names, over any alphabet with a separator and a dot, so
that byte strings and texts share it. A name is read into components; `clean` resolves `.` and `..`
on them without looking at a disk. -/

namespace SymbolIndex.Lexical

inductive Component (α : Type)
  | root
  | current
  | parent
  | normal (name : List α)
  deriving DecidableEq

variable {α : Type} [DecidableEq α]

/-- The pieces between separators; one more than there are separators. -/
def split (sep : α) : List α → List (List α)
  | [] => [[]]
  | c :: rest =>
    if c = sep then [] :: split sep rest
    else match split sep rest with
      | piece :: pieces => (c :: piece) :: pieces
      | [] => [[c]]

/-- What a piece stands for inside a name: nothing when it is empty or a single dot. -/
def component? (dot : α) (piece : List α) : Option (Component α) :=
  if piece = [] ∨ piece = [dot] then none
  else if piece = [dot, dot] then some .parent
  else some (.normal piece)

/-- A leading separator is the root, and only a name that starts with a lone dot keeps it. -/
def components (sep dot : α) (text : List α) : List (Component α) :=
  let inner := (split sep text).filterMap (component? dot)
  match split sep text with
  | [] :: _ :: _ => .root :: inner
  | piece :: _ => if piece = [dot] then .current :: inner else inner
  | [] => inner

/-- Resolve one component against those before it, the latest first. -/
def resolve (before : List (Component α)) : Component α → List (Component α)
  | .current => before
  | .parent =>
    match before with
    | .root :: _ => before
    | .normal _ :: rest => rest
    | _ => .parent :: before
  | c => c :: before

def resolved (cs : List (Component α)) : List (Component α) := (cs.foldl resolve []).reverse

def Component.text (dot : α) : Component α → List α
  | .root => []
  | .current => [dot]
  | .parent => [dot, dot]
  | .normal name => name

def joined (sep dot : α) : List (Component α) → List α
  | [] => []
  | [c] => c.text dot
  | c :: cs => c.text dot ++ sep :: joined sep dot cs

/-- The shortest spelling of a list of components; a lone dot when there are none. -/
def spell (sep dot : α) : List (Component α) → List α
  | [] => [dot]
  | .root :: cs => sep :: joined sep dot cs
  | cs => joined sep dot cs

/-- The shortest spelling of what a name resolves to without looking at a disk. -/
def clean (sep dot : α) (text : List α) : List α :=
  spell sep dot (resolved (components sep dot text))

def isAbsolute (sep : α) : List α → Bool
  | c :: _ => c = sep
  | [] => false

/-- An absolute name replaces the base; any other follows it after a separator. -/
def join (sep : α) (base text : List α) : List α :=
  if isAbsolute sep text then text
  else if base = [] ∨ base.getLast? = some sep then base ++ text
  else base ++ sep :: text

def normalizeAgainst (sep dot : α) (base text : List α) : List α :=
  clean sep dot (join sep base text)

end SymbolIndex.Lexical
