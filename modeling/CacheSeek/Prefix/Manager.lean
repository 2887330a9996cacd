import CacheSeek.Prefix.Trie

namespace CacheSeek.Prefix
open CacheSeek.Lib

inductive PyError where
  | keyError (msg : String)
  | indexError
  | typeError
  | valueError (msg : String)
  | overflowError
  | attributeError
  | runtimeError (msg : String)
  | store
  deriving DecidableEq, Repr

/-- What became of `on_ready` by the time `put_async` came back: called, kept
for later, or dropped because the write raised. -/
inductive PutResult where
  | published
  | pending
  | raised
  deriving DecidableEq, Repr

/-- Tiered blob store: `σ` its state, `P` a per-layer payload, `L` a latent.
`on_ready` is the publication of a handle and is passed as that handle. -/
structure KVTierStore (σ P L : Type) where
  putAsync : σ → String → List P → HandleId → PutResult × σ
  getLayer : σ → BlobHandle → Nat → Except PyError P × σ
  putSkeleton : σ → String → L → Except PyError Unit × σ
  getSkeleton : σ → String → Except PyError (Option L) × σ
  free : σ → BlobHandle → σ

structure RollingWindow (ω P : Type) where
  seedLayer : ω → Nat → List (Int × P) → Int → Except PyError Unit × ω
  setResumeDepth : ω → Int → ω

structure WorldKVConfig where
  windowChunks : Int
  sinkChunks : Int
  breakEvenK : Int
  commitTier : Tier := .fluxonDram
  deriving DecidableEq, Repr

namespace NamespaceForest

def publish (f : NamespaceForest) (h : HandleId) : NamespaceForest :=
  { f with handles := f.handles.modify h fun b => { b with ready := true } }

def pinSink (f : NamespaceForest) (cfg : WorldKVConfig) (n : NodeId) (depth : Int) :
    NamespaceForest :=
  if depth < cfg.sinkChunks then f.modifyNode n fun p => { p with pinned := true } else f

def latentLocator (nodeKey : Bytes) : String := hex nodeKey ++ ":lat"

def kvLocator (nodeKey : Bytes) : String := hex nodeKey ++ ":kv"

def setSkeleton (f : NamespaceForest) (n : NodeId) (nodeKey : Bytes) : NamespaceForest :=
  f.modifyNode n fun p => { p with skeleton := some ⟨latentLocator nodeKey⟩ }

/-- `node.blob = handle` for a new handle, not ready yet. -/
def attachBlob (f : NamespaceForest) (n : NodeId) (b : BlobHandle) : NamespaceForest × HandleId :=
  ({ f with handles := f.handles.alloc b, nodes := f.nodes.modify n fun p =>
      { p with blob := some f.handles.size } }, f.handles.size)

end NamespaceForest

/-- The arguments of `ingest`. The namespace is used for its lock only. -/
structure IngestArgs (P L : Type) where
  parent : NodeId
  action : ActionKey
  nodeKey : Bytes
  depth : Int
  kvPayload : List P
  latent : L
  nbytes : Int := 0
  nLayers : Option Int := none

def IngestArgs.newHandle {P L : Type} (a : IngestArgs P L) (cfg : WorldKVConfig) : BlobHandle :=
  { tier := cfg.commitTier
    locator := NamespaceForest.kvLocator a.nodeKey
    nbytes := a.nbytes
    nLayers := a.nLayers.getD a.kvPayload.length
    ready := false }

section
variable {σ ω P L : Type} (S : KVTierStore σ P L) (W : RollingWindow ω P) (cfg : WorldKVConfig)

/-- Write on chunk finalize: node, pin, skeleton, handle, blob, in this order. -/
def ingest (f : NamespaceForest) (s : σ) (a : IngestArgs P L) :
    Except PyError NodeId × NamespaceForest × σ :=
  let (f, n) := f.commit a.parent a.action a.nodeKey a.depth
  let f := f.pinSink cfg n a.depth
  match S.putSkeleton s (NamespaceForest.latentLocator a.nodeKey) a.latent with
  | (.error e, s) => (.error e, f, s)
  | (.ok _, s) =>
    let f := f.setSkeleton n a.nodeKey
    let (f, h) := f.attachBlob n (a.newHandle cfg)
    match S.putAsync s (NamespaceForest.kvLocator a.nodeKey) a.kvPayload h with
    | (.published, s) => (.ok n, f.publish h, s)
    | (.pending, s) => (.ok n, f, s)
    | (.raised, s) => (.error .store, f, s)

/-- Drop the heavy KV but keep the skeleton. -/
def evictBlob (f : NamespaceForest) (s : σ) (n : NodeId) : Bool × NamespaceForest × σ :=
  let p := f.node n
  match p.blob with
  | none => (false, f, s)
  | some h =>
    if p.pinned || p.refCount > 0 then (false, f, s)
    else (true, f.modifyNode n fun p => { p with blob := none }, S.free s (f.handle h))

/-- First loop of `_window_path`: the nearest nodes, newest first, and where it stopped. -/
def collectRecent (f : NamespaceForest) : Nat → Option NodeId → List NodeId →
    List NodeId × Option NodeId
  | 0, n, recent => (recent, n)
  | fuel + 1, n, recent =>
    match n with
    | none => (recent, none)
    | some m =>
      if 0 ≤ (f.node m).depth ∧ (recent.length : Int) < cfg.windowChunks then
        collectRecent f fuel (f.node m).parent (recent ++ [m])
      else (recent, n)

def collectSinks (f : NamespaceForest) : Nat → Option NodeId → List NodeId → List NodeId
  | 0, _, sinks => sinks
  | fuel + 1, n, sinks =>
    match n with
    | none => sinks
    | some m =>
      if 0 ≤ (f.node m).depth then
        let sinks := if (f.node m).depth < cfg.sinkChunks then sinks ++ [m] else sinks
        collectSinks f fuel (f.node m).parent sinks
      else sinks

/-- Sink and up to W nearest ancestors, oldest first. A walk up the parents
passes each node once, so the number of nodes bounds both loops. -/
def windowPath (f : NamespaceForest) (n : NodeId) : List NodeId :=
  let (recent, top) := collectRecent cfg f f.nodes.size (some n) []
  (collectSinks cfg f f.nodes.size top []).reverse ++ recent.reverse

def addRef (d : Int) (f : NamespaceForest) (n : NodeId) : NamespaceForest :=
  f.modifyNode n fun p => { p with refCount := p.refCount + d }

def touch (now : Rat) (f : NamespaceForest) (n : NodeId) : NamespaceForest :=
  f.modifyNode n fun p => { p with lastAccess := now }

/-- One layer's payloads along the path, oldest first. -/
def readLayer (f : NamespaceForest) (layer : Nat) : σ → List NodeId →
    Except PyError (List (Int × P)) × σ
  | s, [] => (.ok [], s)
  | s, n :: path =>
    match S.getLayer s (f.handle ((f.node n).blob.getD 0)) layer with
    | (.error e, s) => (.error e, s)
    | (.ok p, s) =>
      match readLayer f layer s path with
      | (.error e, s) => (.error e, s)
      | (.ok ps, s) => (.ok (((f.node n).depth, p) :: ps), s)

def seedLayers (f : NamespaceForest) (path : List NodeId) (depth : Int) :
    List Nat → σ → ω → Except PyError Unit × σ × ω
  | [], s, w => (.ok (), s, w)
  | layer :: layers, s, w =>
    match readLayer S f layer s path with
    | (.error e, s) => (.error e, s, w)
    | (.ok blobs, s) =>
      match W.seedLayer w layer blobs depth with
      | (.error e, w) => (.error e, s, w)
      | (.ok _, w) => seedLayers f path depth layers s w

/-- `path[-1].blob.n_layers`. -/
def pathLayers (f : NamespaceForest) (path : List NodeId) : Nat :=
  match path.getLast? with
  | none => 0
  | some n => (f.handle ((f.node n).blob.getD 0)).nLayers.toNat

/-- Gather the path's KV into the window, its nodes held by `ref_count` meanwhile. -/
def materialize (now : Rat) (f : NamespaceForest) (s : σ) (n : NodeId) (w : ω) :
    Except PyError Bool × NamespaceForest × σ × ω :=
  let path := windowPath cfg f n
  if path.isEmpty || path.any (fun m => !f.hasKv m) then (.ok false, f, s, w)
  else
    let f := path.foldl (addRef 1) f
    match seedLayers S W f path (f.node n).depth (List.range (pathLayers f path)) s w with
    | (.error e, s, w) => (.error e, path.foldl (addRef (-1)) f, s, w)
    | (.ok _, s, w) =>
      let w := W.setResumeDepth w (f.node n).depth
      let f := path.foldl (touch now) f
      (.ok true, path.foldl (addRef (-1)) f, s, w)

structure FastForwardResult where
  startChunk : Nat
  node : Option NodeId
  ns : Option Namespace
  deriving DecidableEq

def tryFastForward (now : Rat) (f : NamespaceForest) (s : σ) (rootHash : Bytes)
    (actions : List ActionKey) (w : ω) :
    Except PyError FastForwardResult × NamespaceForest × σ × ω :=
  let m := f.lookup rootHash actions
  match m.ns, m.node with
  | none, _ => (.ok ⟨0, none, none⟩, f, s, w)
  | some ns, none => (.ok ⟨0, some ns.root, some ns⟩, f, s, w)
  | some ns, some n =>
    if m.matchedLen = 0 ∨ (m.matchedLen : Int) < cfg.breakEvenK then
      (.ok ⟨0, some ns.root, some ns⟩, f, s, w)
    else
      match materialize S W cfg now f s n w with
      | (.error e, f, s, w) => (.error e, f, s, w)
      | (.ok false, f, s, w) => (.ok ⟨0, some ns.root, some ns⟩, f, s, w)
      | (.ok true, f, s, w) => (.ok ⟨m.matchedLen, some n, some ns⟩, f, s, w)

end

end CacheSeek.Prefix
