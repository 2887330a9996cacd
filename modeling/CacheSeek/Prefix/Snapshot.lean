import CacheSeek.Lib.Worklist
import CacheSeek.Prefix.Manager

namespace CacheSeek.Prefix
open CacheSeek.Lib

def SNAPSHOT_VERSION : Int := 1

structure BlobData where
  tier : String
  locator : String
  nbytes : Int
  nLayers : Int
  deriving DecidableEq, Repr

@[ext] structure NodeData where
  nodeKey : String
  action : ActionKey
  depth : Int
  parent : Option String
  pinned : Bool
  skeleton : Option String
  blob : Option BlobData
  deriving DecidableEq, Repr

/-- `pinned` is `none` where the entry does not say. -/
structure NamespaceData where
  rootHash : String
  configBlobHash : String
  pinned : Option Bool
  nodes : List NodeData
  deriving DecidableEq, Repr

structure SnapshotData where
  version : Int
  namespaces : List NamespaceData
  deriving DecidableEq, Repr

namespace NamespaceForest

def blobData (b : BlobHandle) : BlobData := ⟨b.tier.value, b.locator, b.nbytes, b.nLayers⟩

def nodeData (f : NamespaceForest) (n : NodeId) : NodeData :=
  let p := f.node n
  { nodeKey := hex p.nodeKey
    action := p.action
    depth := p.depth
    parent := p.parent.map fun m => hex (f.node m).nodeKey
    pinned := p.pinned
    skeleton := p.skeleton.map Skeleton.latentLocator
    blob := if f.hasKv n then p.blob.map fun h => blobData (f.handle h) else none }

def successors (f : NamespaceForest) (n : NodeId) : List NodeId := (f.node n).children.values

def realNodes (f : NamespaceForest) (ns : Namespace) : List NodeId :=
  sweep f.successors f.nodes.size (f.successors ns.root)

def namespaceData (f : NamespaceForest) (ns : Namespace) : NamespaceData :=
  ⟨hex ns.rootHash, hex ns.configBlobHash, some ns.pinned, (f.realNodes ns).map f.nodeData⟩

def snapshot (f : NamespaceForest) : SnapshotData :=
  ⟨SNAPSHOT_VERSION, f.namespaces.values.map f.namespaceData⟩

end NamespaceForest

/-- The loader within one world: the forest, `by_key`, and the count. -/
structure Loading where
  forest : NamespaceForest
  byKey : Dict String NodeId
  loaded : Nat

def parseHex (s : String) : Except PyError Bytes :=
  match fromHex s with
  | some b => .ok b
  | none => .error (.valueError "non-hexadecimal number found in fromhex() arg")

def BlobData.handle (b : BlobData) : Except PyError BlobHandle :=
  match Tier.ofValue b.tier with
  | some tier => .ok ⟨tier, b.locator, b.nbytes, b.nLayers, true⟩
  | none => .error (.valueError ("'" ++ b.tier ++ "' is not a valid Tier"))

def Loading.parent (l : Loading) (root : NodeId) (nd : NodeData) : Option NodeId :=
  match nd.parent with
  | none => some root
  | some key => if key = "" then some root else l.byKey.get? key

/-- `n.blob`, in a heap that has its handle. -/
def NamespaceForest.storeBlob (f : NamespaceForest) : Option BlobHandle →
    NamespaceForest × Option HandleId
  | none => (f, none)
  | some b => ({ f with handles := f.handles.alloc b }, some f.handles.size)

def NodeData.node (nd : NodeData) (parent : NodeId) (nodeKey : Bytes) (blob : Option HandleId) :
    TrieNode :=
  { nodeKey
    action := nd.action
    depth := nd.depth
    parent := some parent
    pinned := nd.pinned
    skeleton := (nd.skeleton.filter (· ≠ "")).map Skeleton.mk
    blob }

/-- The node of an entry under `parent`. It replaces a child of the same action. -/
def Loading.add (l : Loading) (parent : NodeId) (nodeKey : Bytes) (nd : NodeData)
    (blob : Option BlobHandle) : Loading :=
  let (f, h) := l.forest.storeBlob blob
  let (f, n) := f.addChild parent (nd.node parent nodeKey h)
  ⟨f, l.byKey.set nd.nodeKey n, l.loaded + 1⟩

def Loading.step (root : NodeId) (l : Loading) (nd : NodeData) : Except PyError Unit × Loading :=
  match l.parent root nd with
  | none => (.ok (), l)
  | some parent =>
    match parseHex nd.nodeKey with
    | .error e => (.error e, l)
    | .ok nodeKey =>
      match nd.blob with
      | none => (.ok (), l.add parent nodeKey nd none)
      | some b =>
        match b.handle with
        | .error e => (.error e, l)
        | .ok h => (.ok (), l.add parent nodeKey nd (some h))

def Loading.steps (root : NodeId) : Loading → List NodeData → Except PyError Unit × Loading
  | l, [] => (.ok (), l)
  | l, nd :: nodes =>
    match l.step root nd with
    | (.error e, l) => (.error e, l)
    | (.ok _, l) => Loading.steps root l nodes

def byDepth (nodes : List NodeData) : List NodeData := nodes.insertionSort fun a b => a.depth ≤ b.depth

namespace NamespaceForest

def setPinned (f : NamespaceForest) (ns : Namespace) (pinned : Bool) : NamespaceForest :=
  { f with namespaces := f.namespaces.set ns.rootHash { ns with pinned } }

def loadNamespace (f : NamespaceForest) (loaded : Nat) (d : NamespaceData) :
    Except PyError Unit × NamespaceForest × Nat :=
  match parseHex d.rootHash, parseHex d.configBlobHash with
  | .error e, _ => (.error e, f, loaded)
  | .ok _, .error e => (.error e, f, loaded)
  | .ok r, .ok c =>
    let (f, ns) := f.getOrCreateNamespace r c
    let f := f.setPinned ns (d.pinned.getD ns.pinned)
    let byKey := (∅ : Dict String NodeId).set (hex (f.node ns.root).nodeKey) ns.root
    let (res, l) := Loading.steps ns.root ⟨f, byKey, loaded⟩ (byDepth d.nodes)
    (res, l.forest, l.loaded)

def loadNamespaces : NamespaceForest → Nat → List NamespaceData →
    Except PyError Nat × NamespaceForest
  | f, loaded, [] => (.ok loaded, f)
  | f, loaded, d :: ds =>
    match f.loadNamespace loaded d with
    | (.error e, f, _) => (.error e, f)
    | (.ok _, f, loaded) => loadNamespaces f loaded ds

/-- Rebuild a snapshot into this forest; returns the number of nodes loaded. -/
def loadSnapshot (f : NamespaceForest) (data : SnapshotData) : Except PyError Nat × NamespaceForest :=
  f.loadNamespaces 0 data.namespaces

end NamespaceForest

end CacheSeek.Prefix
