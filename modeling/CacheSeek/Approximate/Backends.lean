import CacheSeek.Approximate.Payload
import CacheSeek.Lib.Lists
import CacheSeek.Lib.Score

namespace CacheSeek.Approximate
open CacheSeek.Lib CacheSeek.Prefix

structure VectorPayload where
  prompt : String
  savedSteps : List Int
  taskType : String
  deriving DecidableEq, Repr

structure VectorPoint where
  vector : List Rat
  payload : VectorPayload
  deriving DecidableEq

structure CacheRecord where
  prompt : String
  savedSteps : List Int
  sizeMb : Rat
  numFrames : Int
  cacheType : String
  accessCount : Nat
  deriving DecidableEq

/-- The three stores. The vector store is the configured collection of it. -/
structure Stores where
  kv : Dict String Bytes := ∅
  vectors : Dict String VectorPoint := ∅
  metadata : Dict String CacheRecord := ∅

inductive AuditEvent where
  | saveStored (cacheId taskType : String) (savedSteps : List Int) (sizeMb : Rat) (numFrames : Int)
  | kvMissingAfterVectorHit (cacheId : String) (skipStep : Int) (similarity rerankScore : Score)
  | lookupHit (cacheId taskType : String) (skipStep : Int) (similarity rerankScore : Score)
  deriving DecidableEq

inductive BackendCall where
  | serialize (step : Int)
  | kvPut (key : String)
  | kvGet (key : String)
  | kvRemove (key : String)
  | encodePrompt
  | encodeVideo
  | vectorSearch
  | ensureCollection
  | upsert (pointId : String)
  | vectorDelete (pointId : String)
  | registerCache (cacheId : String)
  | removeCache (cacheId : String)
  | recordAccess (cacheId : String)
  deriving DecidableEq

/-- How a call ends: it returns, raises without effect, or raises after taking effect. -/
inductive CallEnd where
  | returns
  | raises (exc : Failure)
  | raisesDone (exc : Failure)
  deriving DecidableEq

abbrev Faults := BackendCall → Nat → CallEnd

/-- The stores and the audit log; `calls` and `raised` count the calls and those that raised. -/
structure World where
  stores : Stores := {}
  audit : List AuditEvent := []
  calls : Nat := 0
  raised : Nat := 0

namespace World

def call (faults : Faults) (w : World) (c : BackendCall) (effect : Stores → Stores) :
    Except Failure Unit × World :=
  match faults c w.calls with
  | .returns => (.ok (), { w with stores := effect w.stores, calls := w.calls + 1 })
  | .raises exc => (.error exc, { w with calls := w.calls + 1, raised := w.raised + 1 })
  | .raisesDone exc => (.error exc,
      { w with stores := effect w.stores, calls := w.calls + 1, raised := w.raised + 1 })

def auditEmit (w : World) (e : AuditEvent) : World := { w with audit := w.audit ++ [e] }

def kvPut (faults : Faults) (w : World) (key : String) (value : Bytes) : Except Failure Unit × World :=
  w.call faults (.kvPut key) fun s => { s with kv := s.kv.set key value }

def kvRemove (faults : Faults) (w : World) (key : String) : Except Failure Unit × World :=
  w.call faults (.kvRemove key) fun s => { s with kv := s.kv.erase key }

def kvGet (faults : Faults) (w : World) (key : String) : Except Failure (Option Bytes) × World :=
  match w.call faults (.kvGet key) id with
  | (.error exc, w) => (.error exc, w)
  | (.ok _, w) => (.ok (w.stores.kv.get? key), w)

def upsert (faults : Faults) (w : World) (pointId : String) (vector : List Rat)
    (payload : VectorPayload) : Except Failure Unit × World :=
  w.call faults (.upsert pointId) fun s => { s with vectors := s.vectors.set pointId ⟨vector, payload⟩ }

def vectorDelete (faults : Faults) (w : World) (pointId : String) : Except Failure Unit × World :=
  w.call faults (.vectorDelete pointId) fun s => { s with vectors := s.vectors.erase pointId }

def registerCache (faults : Faults) (w : World) (cacheId prompt : String) (savedSteps : List Int)
    (sizeMb : Rat) (numFrames : Int) (cacheType : String) : Except Failure Unit × World :=
  w.call faults (.registerCache cacheId) fun s =>
    let known := ((s.metadata.get? cacheId).map CacheRecord.accessCount).getD 0
    let record : CacheRecord := ⟨prompt, sortedSet savedSteps, sizeMb, numFrames, cacheType, known⟩
    { s with metadata := s.metadata.set cacheId record }

def removeCache (faults : Faults) (w : World) (cacheId : String) : Except Failure Unit × World :=
  w.call faults (.removeCache cacheId) fun s => { s with metadata := s.metadata.erase cacheId }

def recordAccess (faults : Faults) (w : World) (cacheId : String) : Except Failure Unit × World :=
  w.call faults (.recordAccess cacheId) fun s =>
    match s.metadata.get? cacheId with
    | none => s
    | some r => { s with metadata := s.metadata.set cacheId { r with accessCount := r.accessCount + 1 } }

end World

structure CacheConfig where
  videoSimilarityThreshold : Option Rat := some (1 / 10)
  videoVectorCollection : String := "video"
  rerankEnabled : Bool := true
  rerankTopK : Int := 5
  rerankScoreThreshold : Rat := 4 / 5
  maxSkipStep : Int := 5
  staircaseSkipEnabled : Bool := false
  skipStepTauTable : List (Int × Rat) := [(3, 63 / 100), (7, 17 / 20), (11, 17 / 20), (14, 101 / 100)]

/-- `score_mm` of a reranker: the query and, for each candidate, its text. -/
abbrev Reranker := String → List (Option String) → Except Failure (List Score)

/-- An instance. A reranker without `score_mm` is none. -/
structure VideoBasedApproximateCache (T F : Type) where
  config : CacheConfig
  io : TorchIO T
  hasVectorStore : Bool
  promptEncoder : Option (String → Option (List Rat))
  videoEncoder : Option (List F → String → Option (List Rat))
  reranker : Option Reranker

structure CacheQuery where
  prompt : String
  taskType : String := "t2v"
  deriving DecidableEq, Repr

def CacheQuery.task (q : CacheQuery) : String := if q.taskType = "" then "t2v" else q.taskType

structure ModelOutputs (T F : Type) where
  latentStatesDict : Dict Int (LatentValue T) := ∅
  embeddingVideoFrames : Option (List F) := none
  numFrames : Int := 0
  savedSteps : List Int := []

end CacheSeek.Approximate
