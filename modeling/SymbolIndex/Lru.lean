/-! A cache that holds a fixed number of entries and makes room by dropping the one that was used
longest ago. Recency is a score from a counter that grows with every access; when the counter
reaches its limit, the entries are sorted and numbered anew, which keeps their order. Scores and
counter are words of 32 bits. -/

namespace SymbolIndex

structure ScoredEntry (κ ν : Type) where
  key : κ
  value : ν
  score : UInt32
  deriving DecidableEq

structure Lru (κ ν : Type) where
  entries : List (ScoredEntry κ ν) := []
  capacity : Nat
  nextScore : UInt32 := 0
  maxScore : Nat
  deriving DecidableEq

/-- A cache without room was asked for. -/
inductive LruError
  | noCapacity
  deriving DecidableEq

def LruError.message : LruError → String
  | .noCapacity => "capacity must be at least 1"

namespace Lru

variable {κ ν : Type} [Ord κ]

/-- The largest score when none is asked for. -/
def defaultMaxScore : Nat := UInt32.size - 1

def new (capacity : Nat) : Lru κ ν := { capacity, maxScore := defaultMaxScore }

def new? (capacity maxScore : Nat) : Except LruError (Lru κ ν) :=
  if capacity = 0 then .error .noCapacity else .ok { capacity, maxScore }

omit [Ord κ] in
def size (c : Lru κ ν) : Nat := c.entries.length

omit [Ord κ] in
def isEmpty (c : Lru κ ν) : Bool := c.entries.isEmpty

omit [Ord κ] in
def byScore (entries : List (ScoredEntry κ ν)) : List (ScoredEntry κ ν) :=
  entries.mergeSort fun a b => a.score ≤ b.score

omit [Ord κ] in
/-- Sort the entries and number them from zero. -/
def rescore (c : Lru κ ν) : Lru κ ν :=
  { c with
    entries := (byScore c.entries).mapIdx fun i e => { e with score := .ofNat i }
    nextScore := .ofNat c.entries.length }

omit [Ord κ] in
/-- Take the next score, numbering anew first when the counter is at its limit. If as many entries
are held as the last word counts, the counter stands at the last word even then, and comes round to
zero; a build that checks for overflow stops there instead. -/
def bump (c : Lru κ ν) : Lru κ ν × UInt32 :=
  let c := if c.maxScore ≤ c.nextScore.toNat then c.rescore else c
  ({ c with nextScore := c.nextScore + 1 }, c.nextScore)

def index? (c : Lru κ ν) (k : κ) : Option Nat := c.entries.findIdx? fun e => compare e.key k == .eq

def find? (c : Lru κ ν) (k : κ) : Option (ScoredEntry κ ν) :=
  c.entries.find? fun e => compare e.key k == .eq

def contains (c : Lru κ ν) (k : κ) : Bool := (c.find? k).isSome

omit [Ord κ] in
/-- Take the entry at an index out and move the last entry into its place. -/
def swapRemove (entries : List (ScoredEntry κ ν)) (i : Nat) : List (ScoredEntry κ ν) :=
  match entries.getLast? with
  | none => []
  | some last => if i + 1 = entries.length then entries.dropLast else (entries.set i last).dropLast

/-- Look a key up and make it the most recent. A lookup that fails takes a score, too. -/
def get (c : Lru κ ν) (k : κ) : Lru κ ν × Option ν :=
  let (c, score) := c.bump
  match c.index? k with
  | none => (c, none)
  | some i =>
    ({ c with entries := c.entries.modify i fun e => { e with score } },
      (c.entries[i]?).map (·.value))

omit [Ord κ] in
/-- The place of the entry with the lowest score, the first of several. -/
def leastRecent? (c : Lru κ ν) : Option Nat :=
  match (c.entries.map (·.score)).min? with
  | none => none
  | some least => c.entries.findIdx? fun e => e.score = least

/-- Put a value at a key and make it the most recent. The least recent entry makes room for a new
key and is handed back. -/
def insert (c : Lru κ ν) (k : κ) (v : ν) : Lru κ ν × Option (κ × ν) :=
  let (c, score) := c.bump
  match c.index? k with
  | some i => ({ c with entries := c.entries.modify i fun e => { e with value := v, score } }, none)
  | none =>
    let victim := if c.capacity ≤ c.entries.length then c.leastRecent? else none
    match victim with
    | some i =>
      ({ c with entries := swapRemove c.entries i ++ [⟨k, v, score⟩] },
        (c.entries[i]?).map fun e => (e.key, e.value))
    | none => ({ c with entries := c.entries ++ [⟨k, v, score⟩] }, none)

def take (c : Lru κ ν) (k : κ) : Lru κ ν × Option ν :=
  match c.index? k with
  | none => (c, none)
  | some i => ({ c with entries := swapRemove c.entries i }, (c.entries[i]?).map (·.value))

omit [Ord κ] in
def clear (c : Lru κ ν) : Lru κ ν := { c with entries := [], nextScore := 0 }

omit [Ord κ] in
/-- The values, least recent first. -/
def valuesByRecency (c : Lru κ ν) : List ν := (byScore c.entries).map (·.value)

end Lru

end SymbolIndex
