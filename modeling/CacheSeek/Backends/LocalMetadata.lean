import CacheSeek.Lib.Disk
import CacheSeek.Lib.Lists
import CacheSeek.Lib.Members
import CacheSeek.Stores.JsonFile
import Mathlib.Algebra.Group.Nat.Defs
import Mathlib.Algebra.Order.Ring.Unbundled.Rat
import Mathlib.Algebra.Ring.Rat
import Mathlib.Data.List.Sort

namespace CacheSeek.Backends.Metadata
open CacheSeek.Lib CacheSeek.Prefix CacheSeek.Stores

structure IndexEntry where
  cacheId : String
  prompt : String
  savedSteps : List Int
  cacheType : String
  deriving DecidableEq

structure CacheMeta where
  prompt : String
  savedSteps : List Int
  sizeMb : FloatRepr
  numFrames : Int
  accessCount : Int
  lastAccessTime : FloatRepr
  cacheType : String
  deriving DecidableEq

abbrev PromptIndex := Dict String (Dict String IndexEntry)

def defaultCacheType : String := "approximate_cache"

def normalizeCacheType (cacheType : Option String) : String :=
  let t := strip (cacheType.getD "")
  if t = "" then defaultCacheType else t

def normalizeCacheId (cacheId : String) : String := String.ofList (cacheId.toList.filter (· ≠ '-'))

/-- Why a file is refused. `foreign` stands for a value of a type that is never written. -/
inductive LoadError where
  | undecodable
  | notJson (label : String)
  | notObject (label gotType : String)
  | foreign
  deriving DecidableEq, Repr

/-- The text of the exception, up to what `json` and the codec add. -/
def LoadError.text (path : String) : LoadError → String
  | .undecodable => "'utf-8' codec can't decode byte"
  | .notJson label => "LocalCacheMetadataManager " ++ label ++ " is not valid JSON path=" ++ path ++ ": "
  | .notObject label gotType =>
    "LocalCacheMetadataManager " ++ label ++ " must be a JSON object path=" ++ path ++ " got_type=" ++ gotType
  | .foreign => ""

def entryJson (cacheType : String) (entry : IndexEntry) : Json :=
  .obj [("prompt", .str entry.prompt), ("saved_steps", .arr (entry.savedSteps.map .int)),
    ("cache_type", .str (if entry.cacheType = "" then cacheType else entry.cacheType))]

def indexJson (index : PromptIndex) : Json :=
  .obj (index.entries.map fun b => (b.1, .obj (b.2.entries.map fun e => (e.1, entryJson b.1 e.2))))

def CacheMeta.toJson (m : CacheMeta) : Json :=
  .obj [("prompt", .str m.prompt), ("saved_steps", .arr (m.savedSteps.map .int)), ("size_mb", .float m.sizeMb),
    ("num_frames", .int m.numFrames), ("access_count", .int m.accessCount),
    ("last_access_time", .float m.lastAccessTime), ("cache_type", .str m.cacheType)]

def metaJson (stats : Dict String CacheMeta) : Json := .obj (stats.entries.map fun e => (e.1, e.2.toJson))

def readFloat : Json → Option FloatRepr
  | .float x => some x
  | _ => none

def readSteps (j : Json) : Option (List Int) := j.asArr.bind (·.mapM Json.asInt)

/-- `str(entry.get("cache_type") or ct_str or self._default_cache_type)`. -/
def readType (cacheType : String) : Option Json → Option String
  | none => some (if cacheType = "" then defaultCacheType else cacheType)
  | some .null => some (if cacheType = "" then defaultCacheType else cacheType)
  | some (.str "") => some (if cacheType = "" then defaultCacheType else cacheType)
  | some (.str t) => some t
  | some _ => none

def readEntry (cacheType cacheId : String) : Json → Except LoadError (Option IndexEntry)
  | .obj members =>
    let entry := do
      let prompt ← (Json.obj members).fieldD "prompt" Json.asStr ""
      let savedSteps ← (Json.obj members).fieldD "saved_steps" readSteps []
      let entryType ← readType cacheType ((Json.obj members).get? "cache_type")
      some (IndexEntry.mk cacheId prompt savedSteps entryType)
    match entry with
    | none => .error .foreign
    | some entry => .ok (some entry)
  | _ => .ok none

def readBucket (cacheType : String) : Json → Except LoadError (Option (Dict String IndexEntry))
  | .obj members =>
    match Dict.collect (readEntry cacheType) (Dict.ofEntries members).entries ∅ with
    | .error e => .error e
    | .ok mapping => .ok (if mapping.entries = [] then none else some mapping)
  | _ => .ok none

def CacheMeta.ofJson (j : Json) : Option CacheMeta := do
  let prompt ← j.field "prompt" Json.asStr
  let savedSteps ← j.field "saved_steps" readSteps
  let sizeMb ← j.field "size_mb" readFloat
  let numFrames ← j.field "num_frames" Json.asInt
  let accessCount ← j.field "access_count" Json.asInt
  let lastAccessTime ← j.field "last_access_time" readFloat
  let cacheType ← j.field "cache_type" Json.asStr
  some ⟨prompt, savedSteps, sizeMb, numFrames, accessCount, lastAccessTime, cacheType⟩

def readMeta (_ : String) (j : Json) : Except LoadError (Option CacheMeta) :=
  match CacheMeta.ofJson j with
  | none => .error .foreign
  | some m => .ok (some m)

def indexPath : String := "prompt_index.json"

def metaPath : String := "cache_meta.json"

/-- `_read_json_object`, where there is a file. -/
def readJsonObject (disk : Disk UInt8) (path label : String) : Except LoadError (Option (Dict String Json)) :=
  match disk.get? path with
  | none => .ok none
  | some raw =>
    match decodeUtf8 raw with
    | none => .error .undecodable
    | some text =>
      match Json.loads text with
      | none => .error (.notJson label)
      | some (.obj members) => .ok (some (Dict.ofEntries members))
      | some value => .error (.notObject label (pyTypeName value))

def loadIndex (disk : Disk UInt8) : Except LoadError PromptIndex :=
  match readJsonObject disk indexPath "prompt index" with
  | .error e => .error e
  | .ok none => .ok ∅
  | .ok (some raw) => Dict.collect readBucket raw.entries ∅

def loadMeta (disk : Disk UInt8) : Except LoadError (Dict String CacheMeta) :=
  match readJsonObject disk metaPath "cache metadata" with
  | .error e => .error e
  | .ok none => .ok ∅
  | .ok (some raw) => Dict.collect readMeta raw.entries ∅

/-- `_atomic_write_json`. -/
def writeJson (disk : Disk UInt8) (path : String) (data : Json) : Disk UInt8 :=
  runSteps disk (replaceSteps (path ++ ".tmp") path (utf8 (Json.dumps Json.defaultStyle data)))

structure LocalCacheMetadataManager where
  index : PromptIndex
  stats : Dict String CacheMeta
  flushOnRecordAccess : Bool
  metaDirty : Bool
  disk : Disk UInt8

namespace LocalCacheMetadataManager

def init (disk : Disk UInt8) (flushOnRecordAccess : Bool) : Except LoadError LocalCacheMetadataManager :=
  match loadIndex disk with
  | .error e => .error e
  | .ok index =>
    match loadMeta disk with
    | .error e => .error e
    | .ok stats => .ok ⟨index, stats, flushOnRecordAccess, false, disk⟩

def saveIndex (s : LocalCacheMetadataManager) : LocalCacheMetadataManager :=
  { s with disk := writeJson s.disk indexPath (indexJson s.index) }

def saveMeta (s : LocalCacheMetadataManager) : LocalCacheMetadataManager :=
  { s with disk := writeJson s.disk metaPath (metaJson s.stats), metaDirty := false }

def bucket (index : PromptIndex) (cacheType : String) : Dict String IndexEntry := (index.get? cacheType).getD ∅

def registerCache (s : LocalCacheMetadataManager) (now : FloatRepr) (cacheId prompt : String)
    (savedSteps : List Int) (sizeMb : FloatRepr) (numFrames : Int) (cacheType : Option String) :
    LocalCacheMetadataManager :=
  let steps := sortedSet savedSteps
  let t := normalizeCacheType cacheType
  let index := s.index.set t ((bucket s.index t).set cacheId ⟨cacheId, prompt, steps, t⟩)
  let known := ((s.stats.get? cacheId).map CacheMeta.accessCount).getD 0
  let stats := s.stats.set cacheId ⟨prompt, steps, sizeMb, numFrames, known, now, t⟩
  { s with index := index, stats := stats }.saveIndex.saveMeta

/-- The index without the entry: of one cache type where it is known, else of all. -/
def dropEntry (index : PromptIndex) (cacheId : String) (cacheType : Option String) : PromptIndex :=
  match cacheType.filter (· ≠ "") with
  | some t =>
    match index.get? t with
    | none => index
    | some mapping => index.set t (mapping.erase cacheId)
  | none => index.mapValues fun mapping => mapping.erase cacheId

def removeCache (s : LocalCacheMetadataManager) (cacheId : String) : LocalCacheMetadataManager :=
  let cacheType := (s.stats.get? cacheId).map CacheMeta.cacheType
  { s with index := dropEntry s.index cacheId cacheType, stats := s.stats.erase cacheId }.saveIndex.saveMeta

def scan (prompt : String) (mapping : Dict String IndexEntry) : Option IndexEntry :=
  mapping.values.find? fun entry => entry.prompt = prompt

def lookupPrompt (s : LocalCacheMetadataManager) (prompt : String) (cacheType : Option String) :
    Option IndexEntry :=
  match cacheType.filter (· ≠ "") with
  | some t => scan prompt (bucket s.index (normalizeCacheType (some t)))
  | none =>
    match scan prompt (bucket s.index defaultCacheType) with
    | some entry => some entry
    | none => s.index.values.findSome? (scan prompt)

def getCacheMeta (s : LocalCacheMetadataManager) (cacheId : String) : Option CacheMeta := s.stats.get? cacheId

def recordAccess (s : LocalCacheMetadataManager) (now : FloatRepr) (cacheId : String) :
    LocalCacheMetadataManager :=
  let normalized := normalizeCacheId cacheId
  match s.stats.get? normalized with
  | none => s
  | some m =>
    let s := { s with
      stats := s.stats.set normalized { m with accessCount := m.accessCount + 1, lastAccessTime := now } }
    if s.flushOnRecordAccess then s.saveMeta else { s with metaDirty := true }

def flush (s : LocalCacheMetadataManager) : LocalCacheMetadataManager := if s.metaDirty then s.saveMeta else s

end LocalCacheMetadataManager

/-- The arithmetic of Python's floats, as far as `plan_eviction` uses it. -/
structure FloatOps (F : Type) where
  ofRepr : FloatRepr → F
  zero : F
  add : F → F → F
  sub : F → F → F
  sum : List F → F
  le : F → F → Bool
  lt : F → F → Bool

def exactOps (value : FloatRepr → Rat) : FloatOps Rat where
  ofRepr := value
  zero := 0
  add := fun a b => a + b
  sub := fun a b => a - b
  sum := List.sum
  le := fun a b => a ≤ b
  lt := fun a b => a < b

def decimal (digits : List Char) : Nat := digits.foldl (fun n c => 10 * n + (c.toNat - '0'.toNat)) 0

def exactValue (x : FloatRepr) : Rat :=
  let body := if x.text.head? = some '-' then x.text.tail else x.text
  let mantissa := body.takeWhile (· ≠ 'e')
  let exponent := (body.dropWhile (· ≠ 'e')).tail
  let fraction := (mantissa.dropWhile (· ≠ '.')).tail
  let magnitude := mkRat (decimal (mantissa.filter Char.isDigit)) (10 ^ fraction.length)
  let power := 10 ^ decimal (exponent.filter Char.isDigit)
  let scaled := if exponent.head? = some '-' then magnitude * mkRat 1 power else magnitude * mkRat power 1
  if x.text.head? = some '-' then -scaled else scaled

namespace LocalCacheMetadataManager

variable {F : Type} (ops : FloatOps F)

def selectItems (need : F) : F → List (String × CacheMeta) → List (String × CacheMeta)
  | _, [] => []
  | freed, item :: items =>
    let freed := ops.add freed (ops.ofRepr item.2.sizeMb)
    item :: if ops.le need freed then [] else selectItems need freed items

def planEviction (s : LocalCacheMetadataManager) (requiredMb limitMb : F) : List (String × CacheMeta) :=
  let currentMb := ops.sum (s.stats.values.map fun m => ops.ofRepr m.sizeMb)
  if ops.le (ops.add currentMb requiredMb) limitMb then []
  else
    let need := ops.sub (ops.add currentMb requiredMb) limitMb
    let items := s.stats.entries.insertionSort fun a b =>
      ops.lt (ops.ofRepr b.2.lastAccessTime) (ops.ofRepr a.2.lastAccessTime) = false
    selectItems ops need ops.zero items

end LocalCacheMetadataManager

inductive MetadataOp where
  | registerCache (now : FloatRepr) (cacheId prompt : String) (savedSteps : List Int) (sizeMb : FloatRepr)
      (numFrames : Int) (cacheType : Option String)
  | removeCache (cacheId : String)
  | recordAccess (now : FloatRepr) (cacheId : String)
  | flush
  | restart (flushOnRecordAccess : Bool)

namespace LocalCacheMetadataManager

/-- A restart flushes first. -/
def step (s : LocalCacheMetadataManager) : MetadataOp → Except LoadError LocalCacheMetadataManager
  | .registerCache now cacheId prompt savedSteps sizeMb numFrames cacheType =>
    .ok (s.registerCache now cacheId prompt savedSteps sizeMb numFrames cacheType)
  | .removeCache cacheId => .ok (s.removeCache cacheId)
  | .recordAccess now cacheId => .ok (s.recordAccess now cacheId)
  | .flush => .ok s.flush
  | .restart flushOnRecordAccess => init s.flush.disk flushOnRecordAccess

def run (s : LocalCacheMetadataManager) : List MetadataOp → Except LoadError LocalCacheMetadataManager
  | [] => .ok s
  | op :: ops =>
    match s.step op with
    | .error e => .error e
    | .ok s => s.run ops

def history (flushOnRecordAccess : Bool) (ops : List MetadataOp) : Except LoadError LocalCacheMetadataManager :=
  match init ∅ flushOnRecordAccess with
  | .error e => .error e
  | .ok s => s.run ops

end LocalCacheMetadataManager

end CacheSeek.Backends.Metadata
