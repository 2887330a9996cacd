import CacheSeek.Lib.Blocks
import CacheSeek.Stores.Tier

namespace CacheSeek.Prefix
open CacheSeek.Lib CacheSeek.Stores

/-- One layer's self-KV buffer: its physical token slots and both end indices. -/
structure KvCache (β : Type) where
  k : List β
  v : List β
  globalEnd : Nat
  localEnd : Nat
  deriving DecidableEq, Repr

def KvCache.visible {β : Type} (kv : KvCache β) : KvCache β :=
  { kv with k := kv.k.take kv.localEnd, v := kv.v.take kv.localEnd }

structure Geometry where
  chunkSize : Nat
  frameTokens : Nat
  kvSinkSize : Nat
  deriving DecidableEq, Repr

def Geometry.chunkTokens (geo : Geometry) : Nat := geo.chunkSize * geo.frameTokens

/-- A sink and a chunk fit into a buffer of `bufFrames` frames. -/
structure Roomy (geo : Geometry) (bufFrames : Nat) : Prop where
  chunk : 0 < geo.chunkSize
  tokens : 0 < geo.frameTokens
  room : geo.kvSinkSize + geo.chunkSize ≤ bufFrames

structure TensorDim (T β : Type) where
  columns : T → List β
  ofColumns : List β → T
  nbytes : T → Int

/-- `kv_tokens` and `sink_tokens` are the capacity and the sink of the buffer. -/
def kvWrite {β : Type} (kvTokens sinkTokens : Nat) (kv : KvCache β) (kNew vNew : List β)
    (currentStart : Nat) : KvCache β :=
  let numNew := kNew.length
  let currentEnd := currentStart + numNew
  if currentEnd > kv.globalEnd ∧ numNew + kv.localEnd > kvTokens then
    let evicted := numNew + kv.localEnd - kvTokens
    let rolled := kv.localEnd - evicted - sinkTokens
    let k := splice kv.k sinkTokens ((kv.k.drop (sinkTokens + evicted)).take rolled)
    let v := splice kv.v sinkTokens ((kv.v.drop (sinkTokens + evicted)).take rolled)
    let localEnd := kv.localEnd + currentEnd - kv.globalEnd - evicted
    ⟨splice k (localEnd - numNew) kNew, splice v (localEnd - numNew) vNew, currentEnd, localEnd⟩
  else
    let localEnd := kv.localEnd + currentEnd - kv.globalEnd
    ⟨splice kv.k (localEnd - numNew) kNew, splice kv.v (localEnd - numNew) vNew, currentEnd, localEnd⟩

def ceilDiv (a b : Nat) : Nat := (a + b - 1) / b

def makeRollingConfig (localAttnSize sinkSize chunkSize : Nat) (breakEvenK : Int) : WorldKVConfig :=
  let recentFrames := max (localAttnSize - sinkSize) 1
  { windowChunks := ceilDiv recentFrames chunkSize
    sinkChunks := ceilDiv sinkSize chunkSize
    breakEvenK }

structure RingKVWindow (β : Type) where
  selfKvCache : List (KvCache β)
  localEndTokens : Nat := 0

namespace RingKVWindow

variable {T β : Type} (geo : Geometry) (dim : TensorDim T β)

/-- The frames a cold run would have in a buffer of `bufFrames` frames, in their places. -/
def physicalFrames (bufFrames totalFrames : Nat) : List Nat :=
  if totalFrames ≤ bufFrames then List.range totalFrames
  else List.range geo.kvSinkSize ++
    List.range' (totalFrames - (bufFrames - geo.kvSinkSize)) (bufFrames - geo.kvSinkSize)

def framesToSeed (kv : KvCache β) (depth : Int) : List Nat :=
  physicalFrames geo (kv.k.length / geo.frameTokens) ((depth + 1).toNat * geo.chunkSize)

def missingChunk (chunk : Nat) : PyError :=
  .keyError ("world_kv ring needs chunk " ++ Nat.repr chunk ++ " but manager window did not provide " ++
    "it; check make_rolling_config matches runtime kv geometry")

/-- `k_c, v_c = value`: None does not unpack, and a tensor's batch has one row. -/
def unpack : LayerValue T → Except PyError (Option T × Option T)
  | .miss => .error .typeError
  | .single _ => .error (.valueError "not enough values to unpack (expected 2, got 1)")
  | .pair k v => .ok (k, v)

/-- `buf[:, pos * ft : (pos + 1) * ft] = t[:, off : off + ft]`; None has no columns,
and of other widths than the slot's only one column broadcasts. -/
def assignFrame (buf : List β) (pos : Nat) (t : Option T) (off : Nat) : Except PyError (List β) :=
  match t with
  | none => .error .typeError
  | some t =>
    let src := ((dim.columns t).drop off).take geo.frameTokens
    let width := ((buf.drop (pos * geo.frameTokens)).take geo.frameTokens).length
    if src.length = width then .ok (splice buf (pos * geo.frameTokens) src)
    else match src with
      | [x] => .ok (splice buf (pos * geo.frameTokens) (List.replicate width x))
      | _ => .error (.runtimeError "shape mismatch")

/-- `dict(blobs)[depth]`. -/
def chunkBlob (blobs : List (Int × LayerValue T)) (chunk : Nat) : Option (LayerValue T) :=
  blobs.reverse.lookup (chunk : Int)

/-- One frame of `seed_layer`: frame `g` into slot `pos`, its keys before its values. -/
def seedFrame (blobs : List (Int × LayerValue T)) (kv : KvCache β) (pos g : Nat) :
    Except PyError Unit × KvCache β :=
  match chunkBlob blobs (g / geo.chunkSize) with
  | none => (.error (missingChunk (g / geo.chunkSize)), kv)
  | some value =>
    match unpack value with
    | .error e => (.error e, kv)
    | .ok (kc, vc) =>
      let off := g % geo.chunkSize * geo.frameTokens
      match assignFrame geo dim kv.k pos kc off with
      | .error e => (.error e, kv)
      | .ok k =>
        match assignFrame geo dim kv.v pos vc off with
        | .error e => (.error e, { kv with k })
        | .ok v => (.ok (), { kv with k, v })

def seedFrames (blobs : List (Int × LayerValue T)) :
    KvCache β → Nat → List Nat → Except PyError Unit × KvCache β
  | kv, _, [] => (.ok (), kv)
  | kv, pos, g :: frames =>
    match seedFrame geo dim blobs kv pos g with
    | (.error e, kv) => (.error e, kv)
    | (.ok _, kv) => seedFrames blobs kv (pos + 1) frames

/-- Lay one layer's cached KV out as the ring of a cold run. -/
def seedLayer (w : RingKVWindow β) (layer : Nat) (blobs : List (Int × LayerValue T)) (depth : Int) :
    Except PyError Unit × RingKVWindow β :=
  match w.selfKvCache[layer]? with
  | none => (.error .indexError, w)
  | some kv =>
    let frames := framesToSeed geo kv depth
    match seedFrames geo dim blobs kv 0 frames with
    | (.error e, kv) => (.error e, { w with selfKvCache := w.selfKvCache.set layer kv })
    | (.ok _, kv) =>
      (.ok (), ⟨w.selfKvCache.set layer kv, frames.length * geo.frameTokens⟩)

def setResumeDepth (w : RingKVWindow β) (depth : Int) : RingKVWindow β :=
  { w with selfKvCache := w.selfKvCache.map fun kv =>
      { kv with
        globalEnd := (depth + 1).toNat * geo.chunkSize * geo.frameTokens
        localEnd := w.localEndTokens } }

end RingKVWindow

def ringKVWindow {T β : Type} (geo : Geometry) (dim : TensorDim T β) :
    RollingWindow (RingKVWindow β) (LayerValue T) where
  seedLayer w layer blobs depth := w.seedLayer geo dim layer blobs depth
  setResumeDepth w depth := w.setResumeDepth geo depth

end CacheSeek.Prefix
