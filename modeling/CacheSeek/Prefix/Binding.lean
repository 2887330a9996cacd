import CacheSeek.Prefix.Ring
import CacheSeek.Prefix.SnapshotText

namespace CacheSeek.Prefix
open CacheSeek.Lib CacheSeek.Stores

/-- What the hooks ask of torch and numpy: a tensor's shape, a draw of that shape from a generator,
and `np.round(arr / ACTION_KEY_EPS).astype(np.int64)` of a control tensor as float32. -/
structure Torch (N C ρ : Type) where
  shape : N → List Nat
  randn : ρ → List Nat → ρ
  quantized : C → List (BitVec 64)

/-- An int64 as `tobytes` lays it out. -/
def int64Bytes (n : BitVec 64) : Bytes := littleEndian 8 n.toNat

/-- `hexdigest()[:32]` of the quantized control values. -/
def controlKey (digest : Bytes → Bytes) (q : List (BitVec 64)) : String :=
  String.ofList ((hex (digest (q.flatMap int64Bytes))).toList.take 32)

/-- The runtime, as far as the hooks read or write it; of `timesteps` only the length counts. -/
structure Runtime (N C L ρ β : Type) where
  noiseChunks : List N
  controlChunks : Option (List C)
  selfKvCache : List (KvCache β)
  timesteps : Nat
  generator : ρ
  geo : Geometry
  worldKvCachedLatents : Dict Int (Option L) := ∅

def Runtime.control {N C L ρ β : Type} (rt : Runtime N C L ρ β) (i : Nat) : Option C :=
  rt.controlChunks.bind fun cs => cs[i]?

def actionKey {N C ρ : Type} (digest : Bytes → Bytes) (torch : Torch N C ρ) : Option C → ActionKey
  | none => .str "noctrl"
  | some c => .str (controlKey digest (torch.quantized c))

def chunkActionKeys {N C L ρ β : Type} (digest : Bytes → Bytes) (torch : Torch N C ρ)
    (rt : Runtime N C L ρ β) : List ActionKey :=
  (List.range rt.noiseChunks.length).map fun i => actionKey digest torch (rt.control i)

structure ExactQuery where
  rootHash : Option Bytes
  actions : Option (List ActionKey)

inductive LookupResult where
  | miss (reason : String)
  | fastForward (k : Nat) (node : NodeId) (ns : Namespace)
  deriving DecidableEq

def exactLookup (cfg : WorldKVConfig) (f : NamespaceForest) (q : ExactQuery) : LookupResult :=
  match q.rootHash, q.actions with
  | some root, some actions =>
    let m := f.lookup root actions
    match m.ns, m.node with
    | none, _ => .miss "exact_prefix_namespace_miss"
    | some _, none => .miss "exact_prefix_no_match"
    | some ns, some node =>
      if m.matchedLen = 0 then .miss "exact_prefix_no_match"
      else if (m.matchedLen : Int) < cfg.breakEvenK then .miss "exact_prefix_below_break_even"
      else .fastForward m.matchedLen node ns
  | _, _ => .miss "exact_prefix_query_missing_fields"

/-- A session's cursor in the trie. -/
structure Binding where
  modelFingerprint : Bytes
  ingestEnabled : Bool := true
  snapshotPath : Option String := none
  snapshotOnFinalize : Bool := false
  ns : Option Namespace := none
  parent : Option NodeId := none
  actions : List ActionKey := []
  chain : List Bytes := []
  lastFastForward : Nat := 0

/-- What the hooks work on: the binding, the shared forest and store, the runtime,
and the snapshot files written. -/
structure Bound (σ N C L ρ β : Type) where
  binding : Binding
  forest : NamespaceForest
  store : σ
  runtime : Runtime N C L ρ β
  files : Dict String String := ∅

section
variable {σ N C T L ρ β : Type} (digest : Bytes → Bytes) (S : KVTierStore σ (LayerValue T) L)
  (torch : Torch N C ρ) (dim : TensorDim T β) (cfg : WorldKVConfig)

def pathUp (f : NamespaceForest) : Nat → Option NodeId → List NodeId
  | 0, _ => []
  | _ + 1, none => []
  | fuel + 1, some n => if 0 ≤ (f.node n).depth then n :: pathUp f fuel (f.node n).parent else []

def readLatents (f : NamespaceForest) : σ → List NodeId → Dict Int (Option L) →
    Except PyError (Dict Int (Option L)) × σ
  | s, [], cached => (.ok cached, s)
  | s, n :: path, cached =>
    match (f.node n).skeleton with
    | none => (.error .attributeError, s)
    | some sk =>
      match S.getSkeleton s sk.latentLocator with
      | (.error e, s) => (.error e, s)
      | (.ok latent, s) => readLatents f s path (cached.set (f.node n).depth latent)

def burn (g : ρ) (shape : List Nat) : Nat → ρ
  | 0 => g
  | n + 1 => burn (torch.randn g shape) shape n

def burnSkipped (noise : List N) (draws : Nat) : ρ → List Nat → Except PyError Unit × ρ
  | g, [] => (.ok (), g)
  | g, i :: is =>
    match noise[i]? with
    | none => (.error .indexError, g)
    | some x => burnSkipped noise draws (burn torch g (torch.shape x) draws) is

/-- Hook 1: after the runtime is built. -/
def onRuntimeCreated (now : Rat) (b : Bound σ N C L ρ β) (session : SessionConfig) :
    Except PyError Unit × Bound σ N C L ρ β :=
  match sessionRootHash digest session b.binding.modelFingerprint with
  | none => (.error .overflowError, b)
  | some root =>
    let (f, ns) := b.forest.getOrCreateNamespace root root
    let actions := chunkActionKeys digest torch b.runtime
    let b := { b with forest := f, binding := { b.binding with ns := some ns, actions } }
    match buildActionChain digest root (actions.map ActionKey.bytes) with
    | none => (.error .overflowError, b)
    | some chain =>
      let b := { b with binding := { b.binding with chain } }
      match exactLookup cfg b.forest ⟨some root, some actions⟩ with
      | .miss _ =>
        (.ok (), { b with binding := { b.binding with parent := some ns.root, lastFastForward := 0 } })
      | .fastForward k node _ =>
        match materialize S (ringKVWindow b.runtime.geo dim) cfg now b.forest b.store node
            ⟨b.runtime.selfKvCache, 0⟩ with
        | (.error e, f, s, w) =>
          (.error e, { b with
            forest := f, store := s, runtime := { b.runtime with selfKvCache := w.selfKvCache } })
        | (.ok false, f, s, w) =>
          (.ok (), { b with
            forest := f, store := s, runtime := { b.runtime with selfKvCache := w.selfKvCache }
            binding := { b.binding with parent := some ns.root, lastFastForward := 0 } })
        | (.ok true, f, s, w) =>
          let b := { b with
            forest := f, store := s, runtime := { b.runtime with selfKvCache := w.selfKvCache }
            binding := { b.binding with parent := some node, lastFastForward := k } }
          match readLatents S f s (pathUp f f.nodes.size (some node)).reverse ∅ with
          | (.error e, s) => (.error e, { b with store := s })
          | (.ok cached, s) =>
            let (res, g) := burnSkipped torch b.runtime.noiseChunks (b.runtime.timesteps - 1)
              b.runtime.generator (List.range k)
            (res, { b with
              store := s
              runtime := { b.runtime with worldKvCachedLatents := cached, generator := g } })

/-- `xs[s:e]` with Python's reading of a negative start. -/
def pySlice (xs : List β) (s e : Int) : List β :=
  let start := if s < 0 then (s + xs.length).toNat else s.toNat
  (xs.take e.toNat).drop start

/-- The newest chunk's clean KV, at the physical tail of each layer. -/
def chunkPayload (rt : Runtime N C L ρ β) : List (LayerValue T) :=
  rt.selfKvCache.map fun kv =>
    let e : Int := kv.localEnd
    let s := e - rt.geo.chunkTokens
    .pair (some (dim.ofColumns (pySlice kv.k s e))) (some (dim.ofColumns (pySlice kv.v s e)))

def payloadBytes : List (LayerValue T) → Int
  | [] => 0
  | .pair (some k) (some v) :: payload => dim.nbytes k + dim.nbytes v + payloadBytes payload
  | _ :: payload => payloadBytes payload

def flushSnapshot (b : Bound σ N C L ρ β) : Bound σ N C L ρ β :=
  match b.binding.snapshotPath with
  | none => b
  | some path => { b with files := b.files.set path b.forest.saveForestSnapshot }

/-- Hook 2: after the clean-KV rewrite of a chunk. -/
def onChunkFinalized (b : Bound σ N C L ρ β) (idx : Nat) (denoised : L) :
    Except PyError Unit × Bound σ N C L ρ β :=
  match b.binding.ingestEnabled, b.binding.ns with
  | true, some ns =>
    let payload := chunkPayload dim b.runtime
    match b.binding.actions[idx]?, b.binding.chain[idx]? with
    | some action, some nodeKey =>
      match ingest S cfg b.forest b.store
          { parent := b.binding.parent.getD ns.root, action, nodeKey, depth := idx,
            kvPayload := payload, latent := denoised, nbytes := payloadBytes dim payload } with
      | (.error e, f, s) => (.error e, { b with forest := f, store := s })
      | (.ok node, f, s) =>
        let b := { b with forest := f, store := s, binding := { b.binding with parent := some node } }
        (.ok (), if b.binding.snapshotOnFinalize then flushSnapshot b else b)
    | _, _ => (.error .indexError, b)
  | _, _ => (.ok (), b)

end

end CacheSeek.Prefix
