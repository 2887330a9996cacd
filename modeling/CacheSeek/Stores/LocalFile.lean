import CacheSeek.Lib.Disk
import CacheSeek.Lib.Members
import CacheSeek.Stores.JsonFile

namespace CacheSeek.Stores
open CacheSeek.Lib CacheSeek.Prefix

inductive IndexError where
  | undecodable
  | notJson
  | notObject (gotType : String)
  | nonString (valueType : String)
  deriving DecidableEq, Repr

/-- The text of the exception, up to what `json` and the codec add. -/
def IndexError.text (indexPath : String) : IndexError → String
  | .undecodable => "'utf-8' codec can't decode byte"
  | .notJson => "LocalFileKVStore index is not valid JSON path=" ++ indexPath ++ ": "
  | .notObject gotType =>
    "LocalFileKVStore index must be a JSON object path=" ++ indexPath ++ " got_type=" ++ gotType
  | .nonString valueType => "LocalFileKVStore index contains non-string entry path=" ++ indexPath ++
      " key_type=str value_type=" ++ valueType

structure LocalFileKVStore where
  index : Dict String String
  disk : Disk UInt8

namespace LocalFileKVStore

def indexFile : String := "kv_index.json"

def readEntry (_ : String) : Json → Except IndexError (Option String)
  | .str filename => .ok (some filename)
  | value => .error (.nonString (pyTypeName value))

def loadIndex (disk : Disk UInt8) : Except IndexError (Dict String String) :=
  match disk.get? indexFile with
  | none => .ok ∅
  | some raw =>
    match decodeUtf8 raw with
    | none => .error .undecodable
    | some text =>
      match Json.loads text with
      | none => .error .notJson
      | some (.obj members) => Dict.collect readEntry (Dict.ofEntries members).entries ∅
      | some value => .error (.notObject (pyTypeName value))

def init (disk : Disk UInt8) : Except IndexError LocalFileKVStore :=
  (loadIndex disk).map fun index => ⟨index, disk⟩

def indexText (index : Dict String String) : String :=
  Json.dumps Json.defaultStyle (.obj (index.entries.map fun e => (e.1, .str e.2)))

/-- `_save_index`. -/
def saveSteps (index : Dict String String) : List (FileStep UInt8) :=
  replaceSteps (indexFile ++ ".tmp") indexFile (utf8 (indexText index))

variable (digest : Bytes → Bytes)

def hashKey (key : String) : String := hex (digest (utf8 key)) ++ ".bin"

/-- `self._index.get(key)`, where an empty name counts as none. -/
def filename (index : Dict String String) (key : String) : Option String :=
  (index.get? key).filter (· ≠ "")

def putIndex (index : Dict String String) (key : String) : Dict String String :=
  match filename index key with
  | some _ => index
  | none => index.set key (hashKey digest key)

def putSteps (index : Dict String String) (key : String) (value : Bytes) : List (FileStep UInt8) :=
  let file := (filename index key).getD (hashKey digest key)
  replaceSteps (file ++ ".tmp") file value ++ saveSteps (putIndex digest index key)

def put (s : LocalFileKVStore) (key : String) (value : Bytes) : LocalFileKVStore :=
  ⟨putIndex digest s.index key, runSteps s.disk (putSteps digest s.index key value)⟩

def get (s : LocalFileKVStore) (key : String) : Option Bytes :=
  match filename s.index key with
  | none => none
  | some file => s.disk.get? file

def removeSteps (s : LocalFileKVStore) (key : String) : List (FileStep UInt8) :=
  match filename s.index key with
  | none => []
  | some file => (if (s.disk.get? file).isSome then [.unlink file] else []) ++ saveSteps (s.index.erase key)

def remove (s : LocalFileKVStore) (key : String) : LocalFileKVStore :=
  ⟨s.index.erase key, runSteps s.disk (s.removeSteps key)⟩

def listKeys (s : LocalFileKVStore) : List String := s.index.keys

end LocalFileKVStore

inductive FileOp where
  | put (key : String) (value : Bytes)
  | get (key : String)
  | remove (key : String)
  | reopen
  | crashPut (key : String) (value : Bytes) (done : Nat) (torn : Option Nat)
  | crashRemove (key : String) (done : Nat) (torn : Option Nat)

namespace LocalFileKVStore

variable (digest : Bytes → Bytes)

def step (s : LocalFileKVStore) : FileOp → Except IndexError (LocalFileKVStore × Option Bytes)
  | .put key value => .ok (s.put digest key value, none)
  | .get key => .ok (s, s.get key)
  | .remove key => .ok (s.remove key, none)
  | .reopen => (init s.disk).map fun s => (s, none)
  | .crashPut key value done torn =>
    (init (crashed s.disk (putSteps digest s.index key value) done torn)).map fun s => (s, none)
  | .crashRemove key done torn => (init (crashed s.disk (s.removeSteps key) done torn)).map fun s => (s, none)

def runOps (s : LocalFileKVStore) : List FileOp → Except IndexError (LocalFileKVStore × List (Option Bytes))
  | [] => .ok (s, [])
  | op :: ops =>
    match s.step digest op with
    | .error e => .error e
    | .ok (s, answer) =>
      match s.runOps ops with
      | .error e => .error e
      | .ok (s, answers) => .ok (s, answer :: answers)

end LocalFileKVStore

/-- The steps of `put` that may raise, in order. -/
inductive PutStep where
  | writeTemp
  | rename
  | writeIndex
  | renameIndex
  deriving DecidableEq, Repr

def PutStep.done : PutStep → Nat
  | .writeTemp => 0
  | .rename => 1
  | .writeIndex => 2
  | .renameIndex => 3

/-- The steps of `remove` that may raise, in order. -/
inductive RemoveStep where
  | unlink
  | writeIndex
  | renameIndex
  deriving DecidableEq, Repr

def RemoveStep.done (present : Bool) : RemoveStep → Nat
  | .unlink => 0
  | .writeIndex => if present then 1 else 0
  | .renameIndex => if present then 2 else 1

/-- A call, or one of which a step raises; a write that raises may have written a first part. -/
inductive FileCall where
  | put (key : String) (value : Bytes)
  | get (key : String)
  | listKeys
  | remove (key : String)
  | reopen
  | failPut (key : String) (value : Bytes) (step : PutStep) (torn : Option Nat)
  | failRemove (key : String) (step : RemoveStep) (torn : Option Nat)

namespace LocalFileKVStore

variable (digest : Bytes → Bytes)

/-- `put` where `step` raises. The index has the key already. -/
def failPut (s : LocalFileKVStore) (key : String) (value : Bytes) (step : PutStep) (torn : Option Nat) :
    LocalFileKVStore :=
  ⟨putIndex digest s.index key, crashed s.disk (putSteps digest s.index key value) step.done torn⟩

/-- `remove` where `step` raises; a key that is not there takes no step. -/
def failRemove (s : LocalFileKVStore) (key : String) (step : RemoveStep) (torn : Option Nat) : LocalFileKVStore :=
  let present := ((filename s.index key).bind s.disk.get?).isSome
  ⟨s.index.erase key, crashed s.disk (s.removeSteps key) (step.done present) torn⟩

def call (s : LocalFileKVStore) : FileCall → Except IndexError LocalFileKVStore
  | .put key value => .ok (s.put digest key value)
  | .get _ => .ok s
  | .listKeys => .ok s
  | .remove key => .ok (s.remove key)
  | .reopen => init s.disk
  | .failPut key value step torn => .ok (s.failPut digest key value step torn)
  | .failRemove key step torn => .ok (s.failRemove key step torn)

def runCalls (s : LocalFileKVStore) : List FileCall → Except IndexError LocalFileKVStore
  | [] => .ok s
  | c :: calls =>
    match s.call digest c with
    | .error e => .error e
    | .ok s => s.runCalls calls

end LocalFileKVStore

abbrev PlainMap := String → Option Bytes

def PlainMap.update (m : PlainMap) (key : String) (value : Option Bytes) : PlainMap :=
  fun k => if k = key then value else m k

theorem PlainMap.update_self (m : PlainMap) (key : String) : m.update key (m key) = m := by
  funext k
  by_cases heq : k = key
  · simp only [PlainMap.update, heq, if_pos]
  · simp only [PlainMap.update, if_neg heq]

theorem PlainMap.update_update (m : PlainMap) (key : String) (v w : Option Bytes) :
    (m.update key v).update key w = m.update key w := by
  funext k
  by_cases heq : k = key
  · simp only [PlainMap.update, heq, if_pos]
  · simp only [PlainMap.update, if_neg heq]

/-- What a plain map does and answers, where an interrupted operation happens or does not. -/
inductive PlainStep (m : PlainMap) : FileOp → PlainMap → Option Bytes → Prop
  | put (key : String) (value : Bytes) : PlainStep m (.put key value) (m.update key (some value)) none
  | get (key : String) : PlainStep m (.get key) m (m key)
  | remove (key : String) : PlainStep m (.remove key) (m.update key none) none
  | reopen : PlainStep m .reopen m none
  | putDone (key : String) (value : Bytes) (done : Nat) (torn : Option Nat) :
      PlainStep m (.crashPut key value done torn) (m.update key (some value)) none
  | putNot (key : String) (value : Bytes) (done : Nat) (torn : Option Nat) :
      PlainStep m (.crashPut key value done torn) m none
  | removeDone (key : String) (done : Nat) (torn : Option Nat) :
      PlainStep m (.crashRemove key done torn) (m.update key none) none
  | removeNot (key : String) (done : Nat) (torn : Option Nat) : PlainStep m (.crashRemove key done torn) m none

inductive PlainRun : PlainMap → List FileOp → PlainMap → List (Option Bytes) → Prop
  | nil (m : PlainMap) : PlainRun m [] m []
  | cons {m m' m'' : PlainMap} {op : FileOp} {ops : List FileOp} {answer : Option Bytes}
      {answers : List (Option Bytes)} (h : PlainStep m op m' answer) (hrest : PlainRun m' ops m'' answers) :
      PlainRun m (op :: ops) m'' (answer :: answers)

end CacheSeek.Stores
