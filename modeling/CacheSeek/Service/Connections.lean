import CacheSeek.Approximate.Payload
import CacheSeek.Lib.LazyCalls

namespace CacheSeek.Service
open CacheSeek.Lib CacheSeek.Approximate

structure Path where
  absolute : Bool
  names : List String
  deriving DecidableEq, Repr

namespace Path

def parent (p : Path) : Path := { p with names := p.names.dropLast }

def child (p : Path) (name : String) : Path := { p with names := p.names ++ [name] }

def text (p : Path) : String :=
  let names := "/".intercalate p.names
  if p.absolute then "/" ++ names else if p.names = [] then "." else names

end Path

/-- What a `ConnectionManager` reads of its configuration. -/
structure ConnectionConfig where
  vectorStoreType : String := "faiss"
  qdrantUrl : Option String := some ""
  qdrantApiKey : Option String := none
  faissIndexDir : Option String := none
  vectorDim : Int := 2048
  kvStoreType : String := "local_file"
  fluxonConfigPath : Option String := some ""
  textEmbeddingModelPath : String := ""
  textEmbeddingInstruction : String := "Represent the user's input"
  textEmbeddingDeviceId : Option Int := none
  textEmbeddingTorchDtype : Option String := none
  textEmbeddingAttnImpl : Option String := none
  videoEmbeddingEnabled : Bool := true
  videoEmbeddingModelPath : String := "Qwen/Qwen3-VL-Embedding-2B"
  videoEmbeddingInstruction : String := "Represent the user's input"
  videoEmbeddingMaxFrames : Int := 16
  videoEmbeddingFps : Rat := 1
  videoEmbeddingDeviceId : Option Int := none
  videoEmbeddingTorchDtype : Option String := none
  videoEmbeddingAttnImpl : Option String := none
  rerankEnabled : Bool := true
  rerankModelPath : String := ""
  rerankDeviceId : Option Int := none
  rerankBatchSize : Int := 2
  rerankTorchDtype : Option String := none

inductive Field where
  | vectorStore
  | kvStore
  | promptEncoder
  | videoEncoder
  | reranker
  deriving DecidableEq, Repr

/-- The flags: the encoders and the reranker share one. -/
inductive Flag where
  | vectorStoreCreated
  | kvStoreCreated
  | encodersCreated
  deriving DecidableEq, Repr

inductive Backend where
  | faiss (indexDir : String) (vectorDim : Int) (indexType : String)
  | qdrant (url : String) (apiKey : Option String)
  | fluxon (configPath : Option String)
  | localFile (storageDir : String)
  | encoder (modelPath instruction : String) (maxFrames : Int) (fps : Rat) (deviceId : Option Int)
      (torchDtype attnImplementation : Option String)
  | reranker (modelPath : String) (deviceId : Option Int) (batchSize : Int) (torchDtype : Option String)
  deriving DecidableEq, Repr

/-- An object: what it was constructed with, and which of these it is. -/
structure Handle where
  serial : Nat
  backend : Backend
  deriving DecidableEq, Repr

/-- How the constructor called for each field ends: with a new object, or with an exception. -/
abbrev Constructors := Field → Except Failure Nat

namespace ConnectionManager

variable (config : ConnectionConfig) (storageDir : Option Path) (construct : Constructors)

def object (field : Field) (backend : Backend) : Except Failure Handle :=
  (construct field).map fun serial => ⟨serial, backend⟩

/-- `str.lower`, as far as ASCII letters go: no other letter lowers to the name of a backend. -/
def lower (s : String) : String := String.ofList (s.toList.map Char.toLower)

/-- `a or b` of two texts. -/
def orElse (a b : String) : String := if a = "" then b else a

def faissBackend : Backend :=
  let cacheDir := (storageDir.map Path.parent).getD ⟨false, []⟩
  let indexDir := (config.faissIndexDir.filter (· ≠ "")).getD (cacheDir.child "faiss").text
  .faiss indexDir config.vectorDim "cosine"

def vectorBackend : Option Backend :=
  let storeType := lower config.vectorStoreType
  if storeType = "faiss" then some (faissBackend config storageDir)
  else if storeType = "qdrant" then some (.qdrant (config.qdrantUrl.getD "") config.qdrantApiKey)
  else none

def createVectorStore : Except Failure (Option Handle) :=
  match vectorBackend config storageDir with
  | none => .ok none
  | some backend => (object construct .vectorStore backend).map some

def kvBackend : Backend :=
  if lower config.kvStoreType = "fluxon" then .fluxon config.fluxonConfigPath
  else .localFile (storageDir.getD ⟨false, ["storage"]⟩).text

def createKvStore : Except Failure (Option Handle) :=
  match kvBackend config storageDir, construct .kvStore with
  | .fluxon configPath, .error exc =>
    .error ⟨"RuntimeError", "FluxonKVStore init failed config_path=" ++ configPath.getD "None" ++
      " err_type=" ++ exc.errType ++ " err=" ++ exc.err⟩
  | _, .error exc => .error exc
  | backend, .ok serial => .ok (some ⟨serial, backend⟩)

def defaultEncoder : String := "Qwen/Qwen3-VL-Embedding-2B"

def promptEncoderBackend : Backend :=
  let modelPath := orElse (orElse config.textEmbeddingModelPath config.videoEmbeddingModelPath) defaultEncoder
  .encoder modelPath config.textEmbeddingInstruction config.videoEmbeddingMaxFrames config.videoEmbeddingFps
    config.textEmbeddingDeviceId config.textEmbeddingTorchDtype config.textEmbeddingAttnImpl

def videoModelPath : String :=
  orElse (orElse config.videoEmbeddingModelPath config.textEmbeddingModelPath) defaultEncoder

def videoEncoderBackend : Backend :=
  .encoder (videoModelPath config) config.videoEmbeddingInstruction config.videoEmbeddingMaxFrames
    config.videoEmbeddingFps config.videoEmbeddingDeviceId config.videoEmbeddingTorchDtype
    config.videoEmbeddingAttnImpl

def rerankerBackend : Backend :=
  .reranker (orElse config.rerankModelPath "Qwen/Qwen3-VL-Reranker-2B") config.rerankDeviceId
    (if config.rerankBatchSize = 0 then 2 else config.rerankBatchSize) config.rerankTorchDtype

def createPromptEncoder : Except Failure (Option Handle) :=
  if config.textEmbeddingModelPath ≠ "" ∨ config.videoEmbeddingEnabled then
    (object construct .promptEncoder (promptEncoderBackend config)).map some
  else .ok none

/-- The prompt encoder serves for video when it has the video model on the video device. -/
def servesVideo (promptEncoder : Handle) : Bool :=
  match promptEncoder.backend with
  | .encoder modelPath _ _ _ deviceId _ _ =>
    modelPath = videoModelPath config && deviceId = config.videoEmbeddingDeviceId
  | _ => false

def createVideoEncoder (promptEncoder : Option Handle) : Except Failure (Option Handle) :=
  if config.videoEmbeddingEnabled then
    match promptEncoder.filter (servesVideo config) with
    | some shared => .ok (some shared)
    | none => (object construct .videoEncoder (videoEncoderBackend config)).map some
  else .ok none

def createReranker : Option Handle :=
  if config.rerankEnabled then (object construct .reranker (rerankerBackend config)).toOption else none

def createEncoders : Except Failure (Option Handle × Option Handle × Option Handle) :=
  match createPromptEncoder config construct with
  | .error exc => .error exc
  | .ok promptEncoder =>
    match createVideoEncoder config construct promptEncoder with
    | .error exc => .error exc
    | .ok videoEncoder => .ok (promptEncoder, videoEncoder, createReranker config construct)

def flag : Field → Flag
  | .vectorStore => .vectorStoreCreated
  | .kvStore => .kvStoreCreated
  | .promptEncoder => .encodersCreated
  | .videoEncoder => .encodersCreated
  | .reranker => .encodersCreated

def fields : Flag → List Field
  | .vectorStoreCreated => [.vectorStore]
  | .kvStoreCreated => [.kvStore]
  | .encodersCreated => [.promptEncoder, .videoEncoder, .reranker]

/-- `shutdown` goes through the stores and leaves the encoders. -/
def layout : LazyFields.Layout Flag Field where
  group := flag
  fields := fields
  closable := [.vectorStore, .kvStore]
  mem_fields := by
    intro a g
    cases a <;> cases g <;> simp [fields, flag]
  closable_group := by
    intro a b ha hb
    cases a <;> cases b <;> simp_all [flag]

/-- Whether an object has a `shutdown` or a `close`: of the stores only Qdrant's has. -/
def hasClose : Backend → Bool
  | .qdrant _ _ => true
  | _ => false

def create (g : Flag) (construct : Constructors) : Except Failure (Field → Option Handle) :=
  match g with
  | .vectorStoreCreated =>
    (createVectorStore config storageDir construct).map fun store => fun _ => store
  | .kvStoreCreated =>
    (createKvStore config storageDir construct).map fun store => fun _ => store
  | .encodersCreated =>
    (createEncoders config construct).map fun (promptEncoder, videoEncoder, reranker) => fun
      | .promptEncoder => promptEncoder
      | .videoEncoder => videoEncoder
      | .reranker => reranker
      | _ => none

end ConnectionManager

abbrev ConnectionManager (θ : Type) := LazyFields.State θ Flag Field Handle Failure

/-- A thread reads an attribute, calls `shutdown`, or goes on. -/
abbrev ConnectionEvent (θ : Type) := LazyFields.Event θ Field Constructors

namespace ConnectionManager

variable {θ : Type} [DecidableEq θ]

def init (θ : Type) : ConnectionManager θ := LazyFields.State.init θ Flag Field Handle Failure

def step (config : ConnectionConfig) (storageDir : Option Path) (m : ConnectionManager θ)
    (e : ConnectionEvent θ) : Option (ConnectionManager θ) :=
  LazyFields.step layout (create config storageDir) m e

/-- The objects that shutdowns have closed, in order; the others they drop. -/
def closeCalls (m : ConnectionManager θ) : List Handle := m.released.filter fun h => hasClose h.backend

end ConnectionManager

end CacheSeek.Service
