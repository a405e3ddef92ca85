import SymbolIndex.Yaml.Token

/-! The tree that a YAML document describes. A node with an anchor is kept in a table, and an alias
names a place in it. -/

namespace SymbolIndex.Yaml

structure Scalar where
  text : String
  style : ScalarStyle := .plain
  tag : Option String := none
  deriving DecidableEq, Inhabited

inductive Node
  | scalar (s : Scalar)
  | sequence (tag : Option String) (items : List Node)
  | mapping (tag : Option String) (fields : List (Node × Node))
  /-- The node at a place in the document's table. -/
  | alias (place : Nat)
  deriving Inhabited

structure Document where
  /-- None when the text holds no document. -/
  root : Option Node
  /-- Every node with an anchor, by place; the latest comes first. -/
  anchored : List (Nat × Node) := []
  deriving Inhabited

namespace Node

/-- The node that stands for a missing value. -/
def empty : Node := .scalar { text := "" }

structure Context where
  /-- Handles of tags with what they stand for. -/
  handles : List (String × String) := []
  /-- The place of each anchor, the latest first. -/
  places : List (String × Nat) := []
  anchored : List (Nat × Node) := []
  deriving Inhabited

/-- What one step leaves to the next: the tokens to come and the anchors met. -/
abbrev Rest := List Token × Context

def defaultHandles : List (String × String) := [("!", "!"), ("!!", "tag:yaml.org,2002:")]

structure Properties where
  anchor : Option String := none
  tag : Option (String × String) := none
  deriving Inhabited

/-- An anchor and a tag, in either order. -/
def properties : List Token → Properties × List Token
  | .anchor name :: .tag handle suffix :: ts => (⟨name, some (handle, suffix)⟩, ts)
  | .anchor name :: ts => (⟨some name, none⟩, ts)
  | .tag handle suffix :: .anchor name :: ts => (⟨name, some (handle, suffix)⟩, ts)
  | .tag handle suffix :: ts => (⟨none, some (handle, suffix)⟩, ts)
  | ts => ({}, ts)

/-- A tag with its handle replaced; none if nothing defines the handle. -/
def expandTag (ctx : Context) : Option (String × String) → Option (Option String)
  | none => some none
  | some (handle, suffix) =>
    if handle = "" then some (some suffix)
    else (ctx.handles.lookup handle).map fun uri => some (uri ++ suffix)

/-- How many different anchors were met. -/
def anchorCount (ctx : Context) : Nat := (ctx.places.map (·.1)).eraseDups.length

/-- Give an anchor the next place, which only a new name uses up. -/
def declare (ctx : Context) (name : Option String) : Context × Option Nat :=
  match name with
  | none => (ctx, none)
  | some name =>
    ({ ctx with places := (name, anchorCount ctx) :: ctx.places }, some (anchorCount ctx))

def keep (ctx : Context) (place : Option Nat) (node : Node) : Context :=
  match place with
  | none => ctx
  | some n => { ctx with anchored := (n, node) :: ctx.anchored }

/-- A lone exclamation mark is no tag of a scalar that is written out. -/
def scalarTag (tag : Option String) : Option String := if tag = some "!" then none else tag

/-- Where a node may stand: in a flow collection, in a block, or as a value of a block mapping, where
a sequence needs no deeper indentation. -/
inductive Position
  | flow
  | block
  | blockValue
  deriving DecidableEq

abbrev NodeReader := Position → Rest → Option (Node × Rest)

/-- Items behind dashes, up to a token that is none. -/
def readEntries (node : NodeReader) (ends : Token → Bool) : (fuel : Nat) → Rest →
    Option (List Node × Rest)
  | 0, _ => none
  | fuel + 1, (.blockEntry :: ts, ctx) => do
    let (item, rest) ← match ts with
      | [] => none
      | t :: _ => if ends t then some (empty, (ts, ctx)) else node .block (ts, ctx)
    let (items, rest) ← readEntries node ends fuel rest
    return (item :: items, rest)
  | _, rest => some ([], rest)

/-- A key or value behind its indicator; empty before one of the tokens that end it. -/
def readOptional (node : NodeReader) (position : Position) (ends : Token → Bool) (rest : Rest) :
    Option (Node × Rest) :=
  match rest.1 with
  | [] => none
  | t :: _ => if ends t then some (empty, rest) else node position rest

/-- A value, which is missing if no colon stands before it. -/
def readValue (node : NodeReader) (position : Position) (ends : Token → Bool) :
    Rest → Option (Node × Rest)
  | (.value :: ts, ctx) => readOptional node position ends (ts, ctx)
  | rest => some (empty, rest)

def endsBlockItem (t : Token) : Bool := t = .blockEntry || t = .blockEnd

def endsBareItem (t : Token) : Bool :=
  t = .blockEntry || t = .key || t = .value || t = .blockEnd

def endsBlockField (t : Token) : Bool := t = .key || t = .value || t = .blockEnd

def endsFlowKey (close t : Token) : Bool := t = .value || t = .flowEntry || t = close

def endsFlowValue (close t : Token) : Bool := t = .flowEntry || t = close

/-- The fields of a block mapping up to its end. -/
def readBlockFields (node : NodeReader) : (fuel : Nat) → Rest → Option (List (Node × Node) × Rest)
  | 0, _ => none
  | fuel + 1, (.key :: ts, ctx) => do
    let (key, rest) ← readOptional node .blockValue endsBlockField (ts, ctx)
    let (value, rest) ← readValue node .blockValue endsBlockField rest
    let (fields, rest) ← readBlockFields node fuel rest
    return ((key, value) :: fields, rest)
  | _, (.blockEnd :: ts, ctx) => some ([], (ts, ctx))
  | _, _ => none

/-- Parts separated by commas, up to the closing token. -/
def readFlowParts {α : Type} (part : Rest → Option (α × Rest)) (close : Token) :
    (fuel : Nat) → Rest → Option (List α × Rest)
  | 0, _ => none
  | fuel + 1, (t :: ts, ctx) =>
    if t = close then some ([], (ts, ctx))
    else do
      let (x, (ts, ctx)) ← part (t :: ts, ctx)
      match ts with
      | .flowEntry :: ts =>
        let (xs, rest) ← readFlowParts part close fuel (ts, ctx)
        return (x :: xs, rest)
      | t :: ts => if t = close then return ([x], (ts, ctx)) else none
      | [] => none
  | _, ([], _) => none

/-- A key with its value makes a mapping of one field inside a sequence. A missing key uses up the
colon. -/
def readFlowItem (node : NodeReader) : Rest → Option (Node × Rest)
  | (.key :: ts, ctx) => do
    let missing := (ts.head?).any (endsFlowKey .flowSequenceEnd)
    let (key, rest) ← if missing then some (empty, (ts.tail, ctx)) else node .flow (ts, ctx)
    let (value, rest) ← readValue node .flow (endsFlowValue .flowSequenceEnd) rest
    return (.mapping none [(key, value)], rest)
  | rest => node .flow rest

def readFlowField (node : NodeReader) : Rest → Option ((Node × Node) × Rest)
  | (.key :: ts, ctx) => do
    let (key, rest) ← readOptional node .flow (endsFlowKey .flowMappingEnd) (ts, ctx)
    let (value, rest) ← readValue node .flow (endsFlowValue .flowMappingEnd) rest
    return ((key, value), rest)
  | rest => (node .flow rest).map fun r => ((r.1, empty), r.2)

/-- The content of a node behind its properties. -/
def readContent (node : NodeReader) (fuel : Nat) (position : Position) (tag : Option String)
    (tagged : Bool) : Rest → Option (Node × Rest)
  | (.scalar text style :: ts, ctx) => some (.scalar ⟨text, style, scalarTag tag⟩, (ts, ctx))
  | (.flowSequenceStart :: ts, ctx) =>
    (readFlowParts (readFlowItem node) .flowSequenceEnd fuel (ts, ctx)).map fun r =>
      (.sequence tag r.1, r.2)
  | (.flowMappingStart :: ts, ctx) =>
    (readFlowParts (readFlowField node) .flowMappingEnd fuel (ts, ctx)).map fun r =>
      (.mapping tag r.1, r.2)
  | (.blockEntry :: ts, ctx) =>
    if position = .blockValue then
      (readEntries node endsBareItem fuel (.blockEntry :: ts, ctx)).map fun r =>
        (.sequence tag r.1, r.2)
    else if tagged then some (.scalar ⟨"", .plain, tag⟩, (.blockEntry :: ts, ctx))
    else none
  | (ts, ctx) =>
    match position, ts with
    | .block, .blockSequenceStart :: ts' | .blockValue, .blockSequenceStart :: ts' =>
      match readEntries node endsBlockItem fuel (ts', ctx) with
      | some (items, (.blockEnd :: ts, ctx)) => some (.sequence tag items, (ts, ctx))
      | _ => none
    | .block, .blockMappingStart :: ts' | .blockValue, .blockMappingStart :: ts' =>
      (readBlockFields node fuel (ts', ctx)).map fun r => (.mapping tag r.1, r.2)
    | _, _ => if tagged then some (.scalar ⟨"", .plain, tag⟩, (ts, ctx)) else none

def readNode : (fuel : Nat) → NodeReader
  | 0, _, _ => none
  | _, _, (.alias name :: ts, ctx) =>
    (ctx.places.lookup name).map fun place => (.alias place, (ts, ctx))
  | fuel + 1, position, (ts, ctx) => do
    let (props, ts) := properties ts
    let tag ← expandTag ctx props.tag
    let (ctx, place) := declare ctx props.anchor
    let tagged := props.anchor.isSome || props.tag.isSome
    let (node, (ts, ctx)) ← readContent (readNode fuel) fuel position tag tagged (ts, ctx)
    return (node, (ts, keep ctx place node))

end Node

namespace Document

/-- The directives before a document. Versions 1.1 and 1.2 are known. -/
def directives : List Token → (version : Bool) → List (String × String) →
    Option (List Token × Bool × List (String × String))
  | .versionDirective major minor :: ts, version, handles =>
    if version ∨ major ≠ 1 ∨ (minor ≠ 1 ∧ minor ≠ 2) then none else directives ts true handles
  | .tagDirective handle uri :: ts, version, handles =>
    if (handles.lookup handle).isSome then none
    else directives ts version (handles ++ [(handle, uri)])
  | ts, version, handles => some (ts, version || handles != [], handles)

def startsContent (ts : List Token) : Bool :=
  match ts with
  | [] | .documentStart :: _ | .documentEnd :: _ | .versionDirective _ _ :: _ |
    .tagDirective _ _ :: _ => false
  | _ => true

/-- The root of a document behind its directives, which need a marker behind them. -/
def root? (fuel : Nat) (given : Bool) : Node.Rest → Option (Node × Node.Rest)
  | (.documentStart :: ts, ctx) =>
    if startsContent ts then Node.readNode fuel .block (ts, ctx) else some (Node.empty, (ts, ctx))
  | rest => if given then none else Node.readNode fuel .block rest

/-- A text holds one document at most. -/
def ofTokens? (tokens : List Token) : Option Document :=
  if tokens = [] then some { root := none }
  else do
    let (ts, given, handles) ← directives tokens false []
    let (root, (ts, ctx)) ← root? (tokens.length + 1) given
      (ts, { handles := handles ++ Node.defaultHandles })
    if ts.all (· = .documentEnd) then return { root := some root, anchored := ctx.anchored }
    else none

def parse? (text : String) : Option Document := (Token.scan? text).bind ofTokens?

/-- The node that an alias stands for. -/
def follow (d : Document) : Node → Node
  | .alias place => (d.anchored.lookup place).getD (.alias place)
  | node => node

end Document

end SymbolIndex.Yaml
