import SymbolIndex.Error
import SymbolIndex.Text.Blank
import SymbolIndex.Yaml.Shape
import SymbolIndex.Yaml.Spelling

/-! The configuration of an index. It comes from a file in which every field may be missing, and some
fields can be overridden from the environment. -/

namespace SymbolIndex

structure Config where
  /-- The root of the cache; a relative one starts from the project root. -/
  cacheDir : Option Path := none
  cacheFormat : CacheFormat := .binary
  cacheRead : Bool := true
  cacheWrite : Bool := true
  /-- How many threads extract files; zero stands for one per core. -/
  indexThreads : Nat := 0
  queueCapacity : Nat := 256
  mergeBatchSize : Nat := 32
  snapshotCacheCapacity : Nat := 64
  whitelist : List String := []
  blacklist : List String := []
  deriving DecidableEq, Inhabited

namespace Config

/-- The directory under a project root that holds the index's own files. -/
def directoryName : String := ".nereid"

def fileName : String := "config.yaml"

def fileIn (root : Path) : Path := (root.join ⟨directoryName⟩).join ⟨fileName⟩

def cacheDirFor (c : Config) (root : Path) : Path :=
  match c.cacheDir with
  | some dir => root.join dir
  | none => (root.join ⟨directoryName⟩).join ⟨"cache"⟩

def names : List String := [
  "cache-dir", "cache-format", "enable-cache-read", "enable-cache-write", "index-threads",
  "queue-capacity", "merge-batch-size", "snapshot-cache-capacity", "whitelist", "blacklist"]

/-- In a file a format is named in lower case only, and not by its file extension. -/
def formatOfName? (name : String) : Option CacheFormat :=
  [CacheFormat.json, .binary].find? fun f => f.name = name

def ofDocument? (d : Yaml.Document) : Option Config := do
  let fields ← d.fields? names
  let field {α : Type} (name : String) (default : α) (read : Yaml.Node → Option α) : Option α :=
    match fields.lookup name with
    | some node => read node
    | none => some default
  let texts := d.list? d.text?
  return {
    cacheDir := ← field "cache-dir" none (d.option? fun n => (d.text? n).map .mk)
    cacheFormat := ← field "cache-format" .binary fun n => (d.choice? n).bind formatOfName?
    cacheRead := ← field "enable-cache-read" true d.bool?
    cacheWrite := ← field "enable-cache-write" true d.bool?
    indexThreads := ← field "index-threads" 0 d.nat64?
    queueCapacity := ← field "queue-capacity" 256 d.nat64?
    mergeBatchSize := ← field "merge-batch-size" 32 d.nat64?
    snapshotCacheCapacity := ← field "snapshot-cache-capacity" 64 d.nat64?
    whitelist := ← field "whitelist" [] texts
    blacklist := ← field "blacklist" [] texts }

def ofText? (text : String) : Option Config := (Yaml.Document.parse? text).bind ofDocument?

def listText : List String → String
  | [] => " []\n"
  | items => "\n" ++ String.join (items.map fun item => "- " ++ Yaml.Spelling.line item)

/-- The file that a configuration is saved as. -/
def text (c : Config) : String :=
  let dir := match c.cacheDir with
    | none => "null\n"
    | some dir => Yaml.Spelling.line dir.text
  s!"cache-dir: {dir}" ++ s!"cache-format: {c.cacheFormat.name}\n" ++
    s!"enable-cache-read: {c.cacheRead}\n" ++ s!"enable-cache-write: {c.cacheWrite}\n" ++
    s!"index-threads: {c.indexThreads}\n" ++ s!"queue-capacity: {c.queueCapacity}\n" ++
    s!"merge-batch-size: {c.mergeBatchSize}\n" ++
    s!"snapshot-cache-capacity: {c.snapshotCacheCapacity}\n" ++
    "whitelist:" ++ listText c.whitelist ++ "blacklist:" ++ listText c.blacklist

/-- Read a file; the defaults if there is none. -/
def load (d : Disk) (file : Path) : Except Error Config :=
  match d.readText? file with
  | .error .notFound => .ok {}
  | .error e => .error (.ofDisk e)
  | .ok none => .error (.io "stream did not contain valid UTF-8")
  | .ok (some text) =>
    match ofText? text with
    | some config => .ok config
    | none => .error (.config s!"{file.text}: malformed configuration")

/-- Why a text is no whole number of 64 bits. -/
inductive NumberError
  | empty
  | invalidDigit
  | overflow
  deriving DecidableEq, Inhabited

def NumberError.message : NumberError → String
  | .empty => "cannot parse integer from empty string"
  | .invalidDigit => "invalid digit found in string"
  | .overflow => "number too large to fit in target type"

/-- The value of digits that follow a number; the first problem counts. -/
def readDigits (n : Nat) : List Char → Except NumberError Nat
  | [] => .ok n
  | c :: rest =>
    match Digits.decimalValue? c with
    | none => .error .invalidDigit
    | some digit =>
      if n * 10 + digit < UInt64.size then readDigits (n * 10 + digit) rest else .error .overflow

def number (text : List Char) : Except NumberError Nat :=
  match text with
  | [] => .error .empty
  | ['+'] => .error .invalidDigit
  | '+' :: digits => readDigits 0 digits
  | digits => readDigits 0 digits

def cacheDirVariable : String := "NEREID_CACHE_DIR"

def cacheFormatVariable : String := "NEREID_CACHE_FORMAT"

def threadsVariable : String := "NEREID_THREADS"

/-- Replace what the environment overrides. -/
def override (c : Config) (env : String → Option String) : Except Error Config := do
  let cacheDir := (env cacheDirVariable).map Path.mk <|> c.cacheDir
  let cacheFormat ← match env cacheFormatVariable with
    | none => .ok c.cacheFormat
    | some name => (CacheFormat.ofName name).mapError fun e => .config e.message
  let indexThreads ← match env threadsVariable with
    | none => .ok c.indexThreads
    | some text =>
      (number (Blank.trim text.toList)).mapError fun e => .config s!"{threadsVariable}: {e.message}"
  return { c with cacheDir, cacheFormat, indexThreads }

def pathFilter (c : Config) : Except Error PathFilter :=
  (PathFilter.ofGlobs c.whitelist c.blacklist).mapError .ofGlob

/-- The first problem with the values, if there is one. -/
def validate (c : Config) : Except Error Unit := do
  if c.queueCapacity = 0 then throw (.config "queue-capacity must be at least 1")
  if c.mergeBatchSize = 0 then throw (.config "merge-batch-size must be at least 1")
  if c.snapshotCacheCapacity = 0 then
    throw (.config "snapshot-cache-capacity must be at least 1")
  discard c.pathFilter

/-- The configuration of a project: its file with the overrides, if that is valid. -/
def forProject (d : Disk) (env : String → Option String) (root : Path) : Except Error Config := do
  let config ← (← load d (fileIn root)).override env
  config.validate
  return config

end Config

end SymbolIndex
