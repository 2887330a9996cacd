import CacheSeek.Lib.Dict
import CacheSeek.Lib.Heap
import CacheSeek.Prefix.Keys

namespace CacheSeek.Prefix
open CacheSeek.Lib

inductive Tier where
  | hbmStaging
  | cpu
  | fluxonDram
  | disk
  deriving DecidableEq, Repr

def Tier.value : Tier → String
  | .hbmStaging => "hbm_staging"
  | .cpu => "cpu"
  | .fluxonDram => "fluxon_dram"
  | .disk => "disk"

/-- `Tier(value)`; `none` is its ValueError. -/
def Tier.ofValue (s : String) : Option Tier :=
  [Tier.hbmStaging, .cpu, .fluxonDram, .disk].find? fun t => t.value = s

structure BlobHandle where
  tier : Tier
  locator : String
  nbytes : Int
  nLayers : Int
  ready : Bool
  deriving DecidableEq, Repr

instance : Inhabited BlobHandle := ⟨⟨.fluxonDram, "", 0, 0, false⟩⟩

structure Skeleton where
  latentLocator : String
  deriving DecidableEq, Repr

/-- Identities of the trie nodes and blob handles a forest has made. -/
abbrev NodeId := Nat
abbrev HandleId := Nat

structure TrieNode where
  nodeKey : Bytes
  action : ActionKey
  depth : Int
  parent : Option NodeId
  children : Dict ActionKey NodeId := ∅
  skeleton : Option Skeleton := none
  blob : Option HandleId := none
  refCount : Int := 0
  lastAccess : Rat := 0
  pinned : Bool := false

instance : Inhabited TrieNode := ⟨⟨[], .int 0, 0, none, ∅, none, none, 0, 0, false⟩⟩

/-- One world; `root` is its virtual root node. -/
structure Namespace where
  rootHash : Bytes
  configBlobHash : Bytes
  root : NodeId
  pinned : Bool := false
  deriving DecidableEq, Repr

/-- The forest and the objects it refers to. Nodes and handles are shared and
mutable, so they live in heaps and everything else holds their identities. -/
structure NamespaceForest where
  namespaces : Dict Bytes Namespace
  nodes : Heap TrieNode
  handles : Heap BlobHandle

namespace NamespaceForest

def empty : NamespaceForest := ⟨∅, .empty, .empty⟩

def node (f : NamespaceForest) (n : NodeId) : TrieNode := f.nodes.get n

def handle (f : NamespaceForest) (h : HandleId) : BlobHandle := f.handles.get h

def modifyNode (f : NamespaceForest) (n : NodeId) (u : TrieNode → TrieNode) : NamespaceForest :=
  { f with nodes := f.nodes.modify n u }

def hasKv (f : NamespaceForest) (n : NodeId) : Bool :=
  match (f.node n).blob with
  | none => false
  | some h => (f.handle h).ready

def child (f : NamespaceForest) (n : NodeId) (a : ActionKey) : Option NodeId :=
  (f.node n).children.get? a

def resolve (f : NamespaceForest) (rootHash : Bytes) : Option Namespace :=
  f.namespaces.get? rootHash

def virtualRoot (rootHash : Bytes) : TrieNode :=
  { nodeKey := rootHash, action := .int (-1), depth := -1, parent := none, pinned := true }

def getOrCreateNamespace (f : NamespaceForest) (rootHash configBlobHash : Bytes) :
    NamespaceForest × Namespace :=
  match f.namespaces.get? rootHash with
  | some ns => (f, ns)
  | none =>
    let ns : Namespace := ⟨rootHash, configBlobHash, f.nodes.size, false⟩
    ({ f with
        namespaces := f.namespaces.set rootHash ns
        nodes := f.nodes.alloc (virtualRoot rootHash) }, ns)

structure PrefixMatch where
  ns : Option Namespace
  node : Option NodeId
  matchedLen : Nat
  deriving DecidableEq

/-- The descent of `lookup`: published children only, action verified. -/
def descend (f : NamespaceForest) (n : NodeId) (k : Nat) : List ActionKey → NodeId × Nat
  | [] => (n, k)
  | a :: actions =>
    match f.child n a with
    | none => (n, k)
    | some c =>
      if !f.hasKv c || (f.node c).action ≠ a then (n, k) else f.descend c (k + 1) actions

def lookup (f : NamespaceForest) (rootHash : Bytes) (actions : List ActionKey) : PrefixMatch :=
  match f.namespaces.get? rootHash with
  | none => ⟨none, none, 0⟩
  | some ns =>
    let (n, k) := f.descend ns.root 0 actions
    ⟨some ns, some n, k⟩

def addChild (f : NamespaceForest) (parent : NodeId) (node : TrieNode) : NamespaceForest × NodeId :=
  let id := f.nodes.size
  let f := { f with nodes := f.nodes.alloc node }
  (f.modifyNode parent fun p => { p with children := p.children.set node.action id }, id)

def commit (f : NamespaceForest) (parent : NodeId) (action : ActionKey) (nodeKey : Bytes)
    (depth : Int) : NamespaceForest × NodeId :=
  match f.child parent action with
  | some existing => (f, existing)
  | none => f.addChild parent { nodeKey, action, depth, parent := some parent }

end NamespaceForest

end CacheSeek.Prefix
