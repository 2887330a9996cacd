import CacheSeek.Prefix.Binding

namespace CacheSeek.Prefix
open CacheSeek.Lib CacheSeek.Stores

structure KeyFields where
  imageMode : String
  imageSize : Int × Int
  imageBytes : Bytes
  prompt : String
  attrs : List Scalar
  modelFingerprint : Bytes
  deriving DecidableEq

def keyFields (session : SessionConfig) (modelFingerprint : Bytes) : KeyFields :=
  ⟨session.imageMode, session.imageSize, session.imageBytes, strip session.prompt,
    SESSION_KEY_FIELDS.map session.attr, modelFingerprint⟩

/-- A deterministic chunked engine. All but the control comes from the key fields. A step
sees its noise, its control, the generator and the rings; it makes a latent and, for
each layer, the keys and values that it writes at the chunk's place, one write or more. -/
structure Engine (N C L ρ β : Type) where
  geo : KeyFields → Geometry
  bufFrames : KeyFields → Nat
  layers : KeyFields → Nat
  timesteps : KeyFields → Nat
  noiseChunks : KeyFields → List N
  generator : KeyFields → ρ
  zero : β
  step : KeyFields → Nat → N → Option C → ρ → List (KvCache β) → L × List (List (List β × List β))
  roomy : ∀ κ, Roomy (geo κ) (bufFrames κ)
  count : ∀ κ i x c g rings, (step κ i x c g rings).2.length = layers κ
  writes : ∀ κ i x c g rings, ∀ ws ∈ (step κ i x c g rings).2, ws ≠ [] ∧
    ∀ w ∈ ws, w.1.length = (geo κ).chunkTokens ∧ w.2.length = (geo κ).chunkTokens

structure SessionPlan (C : Type) where
  session : SessionConfig
  modelFingerprint : Bytes
  controlChunks : Option (List C)
  breakEvenK : Int
  ingestEnabled : Bool
  chunks : Nat
  now : Rat

def SessionPlan.keys {C : Type} (plan : SessionPlan C) : KeyFields :=
  keyFields plan.session plan.modelFingerprint

namespace Engine

variable {N C L ρ β : Type} (E : Engine N C L ρ β) (torch : Torch N C ρ)

/-- `create_runtime`. -/
def createRuntime (plan : SessionPlan C) : Runtime N C L ρ β :=
  let κ := plan.keys
  let buf := List.replicate (E.bufFrames κ * (E.geo κ).frameTokens) E.zero
  { noiseChunks := E.noiseChunks κ
    controlChunks := plan.controlChunks
    selfKvCache := List.replicate (E.layers κ) ⟨buf, buf, 0, 0⟩
    timesteps := E.timesteps κ
    generator := E.generator κ
    geo := E.geo κ }

def config (plan : SessionPlan C) : WorldKVConfig :=
  makeRollingConfig (E.bufFrames plan.keys) (E.geo plan.keys).kvSinkSize (E.geo plan.keys).chunkSize
    plan.breakEvenK

def writeChunk (κ : KeyFields) (i : Nat) (kv : KvCache β) (ws : List (List β × List β)) : KvCache β :=
  ws.foldl (fun kv w => kvWrite (E.bufFrames κ * (E.geo κ).frameTokens)
    ((E.geo κ).kvSinkSize * (E.geo κ).frameTokens) kv w.1 w.2 (i * (E.geo κ).chunkTokens)) kv

def denoiseChunk (κ : KeyFields) (i : Nat) (x : N) (c : Option C) (g : ρ) (rings : List (KvCache β)) :
    L × List (KvCache β) × ρ :=
  let (latent, writes) := E.step κ i x c g (rings.map KvCache.visible)
  (latent, List.zipWith (E.writeChunk κ i) rings writes,
    burn torch g (torch.shape x) (E.timesteps κ - 1))

structure Progress (L ρ β : Type) where
  outputs : List L
  rings : List (KvCache β)
  generator : ρ

def coldRun (plan : SessionPlan C) : Nat → Progress L ρ β
  | 0 =>
    let rt := E.createRuntime plan
    ⟨[], rt.selfKvCache, rt.generator⟩
  | i + 1 =>
    let p := coldRun plan i
    match (E.noiseChunks plan.keys)[i]? with
    | none => p
    | some x =>
      let (latent, rings, g) := E.denoiseChunk torch plan.keys i x
        ((E.createRuntime plan).control i) p.generator p.rings
      ⟨p.outputs ++ [latent], rings, g⟩

end Engine

section
variable {σ N C T L ρ β : Type} (digest : Bytes → Bytes) (S : KVTierStore σ (LayerValue T) L)
  (torch : Torch N C ρ) (dim : TensorDim T β) (E : Engine N C L ρ β)

def sessionChunk (plan : SessionPlan C) (b : Bound σ N C L ρ β) (i : Nat) :
    Except PyError L × Bound σ N C L ρ β :=
  let cached := b.runtime.worldKvCachedLatents
  let b := { b with runtime := { b.runtime with worldKvCachedLatents := cached.erase (i : Int) } }
  match cached.get? (i : Int) with
  | some (some latent) => (.ok latent, b)
  | _ =>
    match b.runtime.noiseChunks[i]? with
    | none => (.error .indexError, b)
    | some x =>
      let (latent, rings, g) := E.denoiseChunk torch plan.keys i x (b.runtime.control i)
        b.runtime.generator b.runtime.selfKvCache
      let b := { b with runtime := { b.runtime with selfKvCache := rings, generator := g } }
      match onChunkFinalized S dim (E.config plan) b i latent with
      | (.error e, b) => (.error e, b)
      | (.ok _, b) => (.ok latent, b)

def sessionChunks (plan : SessionPlan C) : Bound σ N C L ρ β → List Nat →
    Except PyError (List L) × Bound σ N C L ρ β
  | b, [] => (.ok [], b)
  | b, i :: is =>
    match sessionChunk S torch dim E plan b i with
    | (.error e, b) => (.error e, b)
    | (.ok latent, b) =>
      match sessionChunks plan b is with
      | (.error e, b) => (.error e, b)
      | (.ok latents, b) => (.ok (latent :: latents), b)

/-- `run_session` with a new binding. -/
def runSession (plan : SessionPlan C) (f : NamespaceForest) (s : σ) :
    Except PyError (List L) × Bound σ N C L ρ β :=
  let b : Bound σ N C L ρ β :=
    { binding := { modelFingerprint := plan.modelFingerprint, ingestEnabled := plan.ingestEnabled }
      forest := f
      store := s
      runtime := E.createRuntime plan }
  match onRuntimeCreated digest S torch dim (E.config plan) plan.now b plan.session with
  | (.error e, b) => (.error e, b)
  | (.ok _, b) => sessionChunks S torch dim E plan b (List.range plan.chunks)

/-- What may happen to the shared forest: a session, or the eviction of one of its nodes. -/
inductive Visit (C : Type) where
  | session (plan : SessionPlan C)
  | evict (n : NodeId)

def visit (fs : NamespaceForest × σ) : Visit C → NamespaceForest × σ
  | .session plan =>
    let b := (runSession digest S torch dim E plan fs.1 fs.2).2
    (b.forest, b.store)
  | .evict n => if n < fs.1.nodes.size then (evictBlob S fs.1 fs.2 n).2 else fs

end

end CacheSeek.Prefix
