import CacheSeek.Lib.Dict
import CacheSeek.Lib.TopN
import Mathlib.Data.Rat.Defs

namespace CacheSeek.Backends
open CacheSeek.Lib

inductive VectorStoreError where
  | valueError (msg : String)
  | runtimeError (msg : String)
  | typeError
  | assertionError
  | osError
  deriving DecidableEq, Repr

/-- `index_type.lower()`; `ip` is also spelled `innerproduct`. -/
inductive IndexType where
  | cosine
  | ip
  | l2
  | unsupported (name : String)
  deriving DecidableEq, Repr

/-- What numpy and FAISS make of vectors. `dist` compares a query with a vector:
the squared distance for `l2`, the inner product otherwise. -/
structure VectorSpace (V : Type) (indexType : IndexType) where
  dim : V → Nat
  normalize : V → V
  dist : V → V → Rat
  dist_nonneg : indexType = .l2 → ∀ q v, 0 ≤ dist q v

/-- A payload as the store reads it; `dumps` says whether json takes it. -/
structure PayloadReader (P : Type) where
  empty : P
  dumps : P → Bool
  prompt : P → String
  savedSteps : P → List Int

/-- The arguments of `__init__`, and whether the installed FAISS takes `IDSelectorBatch(n, array)`:
the released ones want a pointer there and raise. -/
structure FaissConfig (V P : Type) where
  indexDir : String
  vectorDim : Nat
  indexType : IndexType
  space : VectorSpace V indexType
  reader : PayloadReader P
  selectorTakesArrays : Bool

/-- An `IndexIDMap2` over a flat index. -/
structure Index (V : Type) where
  d : Nat
  entries : List (Int × V)

namespace Index

variable {V : Type}

def removeIds (ix : Index V) (ids : List Int) : Index V :=
  { ix with entries := ix.entries.filter fun e => e.1 ∉ ids }

def addWithId (ix : Index V) (id : Int) (v : V) : Index V :=
  { ix with entries := ix.entries ++ [(id, v)] }

end Index

structure Metadata (P : Type) where
  idMap : Dict String Int := ∅
  payload : Dict String P := ∅
  nextId : Int := 1

inductive IndexFile (V : Type) where
  | unreadable (errType err : String)
  | index (ix : Index V)

inductive MetaFile (P : Type) where
  | unreadable (errType err : String)
  | invalidJson (err : String)
  | notObject (typeName : String)
  | badIdMap (typeName : String)
  | metadata (m : Metadata P)

/-- The published files. Temporary files are never read, and no collection's file
is another's. -/
structure FaissDisk (V P : Type) where
  indexFiles : Dict String (IndexFile V) := ∅
  metaFiles : Dict String (MetaFile P) := ∅

/-- `_indices` and `_metadata`. -/
structure FaissMemory (V P : Type) where
  indices : Dict String (Index V) := ∅
  metadata : Dict String (Metadata P) := ∅

structure FaissStore (V P : Type) where
  memory : FaissMemory V P := {}
  disk : FaissDisk V P := {}

/-- The steps of `_save_index`, in order. -/
inductive SaveStep where
  | writeIndex
  | writeMeta
  | replaceIndex
  | replaceMeta
  deriving DecidableEq, Repr

structure VectorSearchResult (P : Type) (N : Type := Rat) where
  cacheId : String
  similarity : N
  prompt : String
  savedSteps : List Int
  payload : P
  deriving DecidableEq

section
variable {V P : Type} (cfg : FaissConfig V P)

namespace FaissConfig

def supported : Bool :=
  match cfg.indexType with
  | .unsupported _ => false
  | _ => true

def indexPath (collection : String) : String := cfg.indexDir ++ "/" ++ collection ++ ".faiss"

def metaPath (collection : String) : String := cfg.indexDir ++ "/" ++ collection ++ ".json"

def prepare (v : V) : V :=
  match cfg.indexType with
  | .cosine => cfg.space.normalize v
  | _ => v

def similarity (dist : Rat) : Rat :=
  match cfg.indexType with
  | .l2 => 1 / (1 + dist)
  | _ => dist

/-- The order of `index.search`: small distances or large products first. -/
def nearer (d d' : Rat) : Prop :=
  match cfg.indexType with
  | .l2 => d ≤ d'
  | _ => d' ≤ d

end FaissConfig

def FaissStore.setMetadata (st : FaissStore V P) (collection : String) (m : Metadata P) :
    FaissStore V P :=
  { st with memory := { st.memory with metadata := st.memory.metadata.set collection m } }

def FaissStore.setIndex (st : FaissStore V P) (collection : String) (ix : Index V) : FaissStore V P :=
  { st with memory := { st.memory with indices := st.memory.indices.set collection ix } }

/-- `_load_index`. The index is remembered before the metadata is read. -/
def loadIndex (st : FaissStore V P) (collection : String) :
    Except VectorStoreError (Option (Index V)) × FaissStore V P :=
  match st.memory.indices.get? collection with
  | some ix => (.ok (some ix), st)
  | none =>
    match st.disk.indexFiles.get? collection with
    | none => (.ok none, st)
    | some (.unreadable errType err) =>
      (.error (.runtimeError ("FAISSVectorStore failed to read index collection=" ++ collection ++
        " path=" ++ cfg.indexPath collection ++ " err_type=" ++ errType ++ " err=" ++ err)), st)
    | some (.index ix) =>
      let st := st.setIndex collection ix
      match st.disk.metaFiles.get? collection with
      | none => (.ok (some ix), st.setMetadata collection {})
      | some (.unreadable errType err) =>
        (.error (.runtimeError ("FAISSVectorStore failed to read metadata collection=" ++ collection ++
          " path=" ++ cfg.metaPath collection ++ " err_type=" ++ errType ++ " err=" ++ err)), st)
      | some (.invalidJson err) =>
        (.error (.valueError ("FAISSVectorStore metadata is not valid JSON collection=" ++ collection ++
          " path=" ++ cfg.metaPath collection ++ ": " ++ err)), st)
      | some (.notObject typeName) =>
        (.error (.valueError ("FAISSVectorStore metadata must be a JSON object collection=" ++
          collection ++ " path=" ++ cfg.metaPath collection ++ " got_type=" ++ typeName)), st)
      | some (.badIdMap typeName) =>
        (.error (.valueError ("FAISSVectorStore metadata.id_map must be a dict collection=" ++
          collection ++ " path=" ++ cfg.metaPath collection ++ " got_type=" ++ typeName)), st)
      | some (.metadata m) => (.ok (some ix), st.setMetadata collection m)

/-- `_save_index`. `stop` is the step that fails, or before which the process dies. -/
def saveIndex (stop : Option SaveStep) (st : FaissStore V P) (collection : String) (ix : Index V) :
    Except VectorStoreError Unit × FaissStore V P :=
  let m := (st.memory.metadata.get? collection).getD {}
  if stop = some .writeIndex then
    (.error (.runtimeError ("FAISSVectorStore failed to write index for collection=" ++ collection)), st)
  else if stop = some .writeMeta ∨ m.payload.values.any (fun p => !cfg.reader.dumps p) then
    (.error (.runtimeError ("FAISSVectorStore failed to write metadata for collection=" ++
      collection)), st)
  else if stop = some .replaceIndex then (.error .osError, st)
  else
    let st := { st with disk := { st.disk with indexFiles := st.disk.indexFiles.set collection (.index ix) } }
    if stop = some .replaceMeta then (.error .osError, st)
    else (.ok (), { st with disk := { st.disk with metaFiles := st.disk.metaFiles.set collection (.metadata m) } })

/-- `index.search` answers with some `limit` nearest entries. -/
def Hits (q : V) (limit : Nat) (ix : Index V) (hits : List (Int × V)) : Prop :=
  TopN (fun x y => cfg.nearer (cfg.space.dist q x.2) (cfg.space.dist q y.2)) limit ix.entries hits

def findPointId (idMap : Dict String Int) (idx : Int) : Option String :=
  (idMap.entries.find? fun e => e.2 = idx).map Prod.fst

def toResult (m : Metadata P) (q : V) (scoreThreshold : Option Rat) (hit : Int × V) :
    Option (VectorSearchResult P) :=
  if hit.1 < 0 then none
  else
    (findPointId m.idMap hit.1).bind fun pointId =>
      let payload := (m.payload.get? pointId).getD cfg.reader.empty
      let similarity := cfg.similarity (cfg.space.dist q hit.2)
      if scoreThreshold.any fun t => similarity < t then none
      else some ⟨pointId, similarity, cfg.reader.prompt payload, cfg.reader.savedSteps payload, payload⟩

/-- `hits` is what the index answers, if it is asked; it asserts a positive `limit`. -/
def search (st : FaissStore V P) (collection : String) (vector : V) (limit : Nat)
    (scoreThreshold : Option Rat) (hits : List (Int × V)) :
    Except VectorStoreError (List (VectorSearchResult P)) × FaissStore V P :=
  match loadIndex cfg st collection with
  | (.error e, st) => (.error e, st)
  | (.ok none, st) => (.ok [], st)
  | (.ok (some ix), st) =>
    let m := (st.memory.metadata.get? collection).getD {}
    if cfg.space.dim vector ≠ cfg.vectorDim then
      (.error (.valueError ("FAISSVectorStore.search vector dimension mismatch collection=" ++
        collection ++ " got=" ++ Nat.repr (cfg.space.dim vector) ++ " expected=" ++
        Nat.repr cfg.vectorDim)), st)
    else if ix.d ≠ cfg.vectorDim ∨ limit = 0 then (.error .assertionError, st)
    else (.ok (hits.filterMap (toResult cfg m (cfg.prepare vector) scoreThreshold)), st)

def ensureCollection (stop : Option SaveStep) (st : FaissStore V P) (collection : String)
    (vectorDim : Nat) : Except VectorStoreError Unit × FaissStore V P :=
  match loadIndex cfg st collection with
  | (.error e, st) => (.error e, st)
  | (.ok (some _), st) => (.ok (), st)
  | (.ok none, st) =>
    match cfg.indexType with
    | .unsupported name => (.error (.valueError ("Unsupported index_type: " ++ name)), st)
    | _ =>
      let ix : Index V := ⟨vectorDim, []⟩
      saveIndex cfg stop ((st.setIndex collection ix).setMetadata collection {}) collection ix

def removeIds (ix : Index V) (ids : List Int) : Except VectorStoreError (Index V) :=
  if cfg.selectorTakesArrays then .ok (ix.removeIds ids) else .error .typeError

/-- The int id of a point: its own, whose vector goes, or the next one. -/
def claimId (m : Metadata P) (ix : Index V) (pointId : String) :
    Except VectorStoreError (Int × Metadata P × Index V) :=
  match m.idMap.get? pointId with
  | some i => (removeIds cfg ix [i]).map fun ix => (i, m, ix)
  | none => .ok (m.nextId,
      { m with nextId := m.nextId + 1, idMap := m.idMap.set pointId m.nextId }, ix)

/-- `upsert` once the index is there. FAISS asserts the dimension of what is added. -/
def upsertLoaded (stop : Option SaveStep) (st : FaissStore V P) (collection pointId : String)
    (vector : V) (payload : P) (ix : Index V) : Except VectorStoreError Unit × FaissStore V P :=
  let m := (st.memory.metadata.get? collection).getD {}
  let st := st.setMetadata collection m
  if cfg.space.dim vector ≠ cfg.vectorDim then
    (.error (.valueError ("FAISSVectorStore.upsert vector dimension mismatch collection=" ++
      collection ++ " got=" ++ Nat.repr (cfg.space.dim vector) ++ " expected=" ++
      Nat.repr cfg.vectorDim)), st)
  else
    match claimId cfg m ix pointId with
    | .error e => (.error e, st)
    | .ok (existing, m, ix) =>
      let st := (st.setIndex collection ix).setMetadata collection m
      if ix.d ≠ cfg.vectorDim then (.error .assertionError, st)
      else
        let ix := ix.addWithId existing (cfg.prepare vector)
        let m := { m with payload := m.payload.set pointId payload }
        saveIndex cfg stop ((st.setIndex collection ix).setMetadata collection m) collection ix

/-- `stops` are for the save of a new collection and for the upsert's own. -/
def upsert (stops : Option SaveStep × Option SaveStep) (st : FaissStore V P)
    (collection pointId : String) (vector : V) (payload : P) :
    Except VectorStoreError Unit × FaissStore V P :=
  match loadIndex cfg st collection with
  | (.error e, st) => (.error e, st)
  | (.ok (some ix), st) => upsertLoaded cfg stops.2 st collection pointId vector payload ix
  | (.ok none, st) =>
    match ensureCollection cfg stops.1 st collection cfg.vectorDim with
    | (.error e, st) => (.error e, st)
    | (.ok _, st) =>
      match loadIndex cfg st collection with
      | (.error e, st) => (.error e, st)
      | (.ok (some ix), st) => upsertLoaded cfg stops.2 st collection pointId vector payload ix
      | (.ok none, st) =>
        (.error (.runtimeError ("FAISSVectorStore.upsert could not load or create collection " ++
          "collection=" ++ collection)), st)

/-- `id_map.pop` and `payload_map.pop` for each point, and the int ids to remove. -/
def popPoints (m : Metadata P) : List String → Metadata P × List Int
  | [] => (m, [])
  | p :: pointIds =>
    let popped := { m with idMap := m.idMap.erase p, payload := m.payload.erase p }
    let (m', ids) := popPoints popped pointIds
    (m', (m.idMap.get? p).toList ++ ids)

def delete (stop : Option SaveStep) (st : FaissStore V P) (collection : String)
    (pointIds : List String) : Except VectorStoreError Unit × FaissStore V P :=
  match loadIndex cfg st collection with
  | (.error e, st) => (.error e, st)
  | (.ok none, st) => (.ok (), st)
  | (.ok (some ix), st) =>
    match st.memory.metadata.get? collection with
    | none => saveIndex cfg stop st collection ix
    | some m =>
      let (m, ids) := popPoints m pointIds
      let st := st.setMetadata collection m
      if ids = [] then saveIndex cfg stop st collection ix
      else
        match removeIds cfg ix ids with
        | .error e => (.error e, st)
        | .ok ix => saveIndex cfg stop (st.setIndex collection ix) collection ix

def getVectorSize (st : FaissStore V P) (collection : String) :
    Except VectorStoreError (Option Nat) × FaissStore V P :=
  match loadIndex cfg st collection with
  | (.error e, st) => (.error e, st)
  | (.ok none, st) => (.ok none, st)
  | (.ok (some ix), st) => (.ok (some ix.d), st)

end

end CacheSeek.Backends
