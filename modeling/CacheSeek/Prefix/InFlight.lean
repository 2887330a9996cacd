import CacheSeek.Prefix.Manager

namespace CacheSeek.Prefix
open CacheSeek.Lib

/-- Where a call of `materialize` is: before the read of a layer, or ended. -/
inductive MaterializePc where
  | layer (k : Nat)
  | returned (ok : Bool)
  | raised (e : PyError)
  deriving DecidableEq

structure MaterializeCall (ω : Type) where
  node : NodeId
  path : List NodeId
  nLayers : Nat
  window : ω
  pc : MaterializePc

def MaterializeCall.unfinished {ω : Type} (c : MaterializeCall ω) : Bool :=
  match c.pc with
  | .layer _ => true
  | _ => false

structure ManagerState (σ ω : Type) where
  forest : NamespaceForest
  store : σ
  calls : List (MaterializeCall ω)

/-- What can happen next. `raise` is an exception of the store or the window, at any layer. -/
inductive ManagerEvent (P L ω : Type) where
  | create (rootHash configBlobHash : Bytes)
  | ingest (a : IngestArgs P L)
  | evict (n : NodeId)
  | start (n : NodeId) (w : ω)
  | seed (i : Nat)
  | raise (i : Nat) (e : PyError)
  | finish (i : Nat) (now : Rat)

namespace NamespaceForest

/-- No node but the child for the action has the key. -/
def KeyFree (f : NamespaceForest) (parent : NodeId) (action : ActionKey) (nodeKey : Bytes) : Prop :=
  match f.child parent action with
  | some n => (f.node n).nodeKey = nodeKey
  | none => ∀ n < f.nodes.size, (f.node n).nodeKey ≠ nodeKey

instance (f : NamespaceForest) (parent : NodeId) (action : ActionKey) (nodeKey : Bytes) :
    Decidable (f.KeyFree parent action nodeKey) := by
  unfold KeyFree
  cases f.child parent action with
  | some n => exact inferInstanceAs (Decidable ((f.node n).nodeKey = nodeKey))
  | none => exact inferInstanceAs (Decidable (∀ n < f.nodes.size, (f.node n).nodeKey ≠ nodeKey))

end NamespaceForest

section
variable {σ ω P L : Type} (S : KVTierStore σ P L) (W : RollingWindow ω P) (cfg : WorldKVConfig)

namespace ManagerState

def close (m : ManagerState σ ω) (i : Nat) (c : MaterializeCall ω) (pc : MaterializePc) :
    ManagerState σ ω :=
  { m with
    forest := c.path.foldl (addRef (-1)) m.forest
    calls := m.calls.set i { c with pc } }

def start (m : ManagerState σ ω) (n : NodeId) (w : ω) : ManagerState σ ω :=
  let path := windowPath cfg m.forest n
  if path.isEmpty || path.any (fun x => !m.forest.hasKv x) then
    { m with calls := m.calls ++ [⟨n, path, 0, w, .returned false⟩] }
  else
    let f := path.foldl (addRef 1) m.forest
    { m with forest := f, calls := m.calls ++ [⟨n, path, pathLayers f path, w, .layer 0⟩] }

def seed (m : ManagerState σ ω) (i : Nat) (c : MaterializeCall ω) (k : Nat) : ManagerState σ ω :=
  match readLayer S m.forest k m.store c.path with
  | (.error e, s) => { m with store := s }.close i c (.raised e)
  | (.ok blobs, s) =>
    match W.seedLayer c.window k blobs (m.forest.node c.node).depth with
    | (.error e, w) => { m with store := s }.close i { c with window := w } (.raised e)
    | (.ok _, w) => { m with store := s, calls := m.calls.set i { c with window := w, pc := .layer (k + 1) } }

def finish (m : ManagerState σ ω) (i : Nat) (c : MaterializeCall ω) (now : Rat) : ManagerState σ ω :=
  { m with forest := c.path.foldl (touch now) m.forest }.close i
    { c with window := W.setResumeDepth c.window (m.forest.node c.node).depth } (.returned true)

/-- One event. Payloads all have `count` layers, and distinct nodes distinct keys. -/
def step (count : Nat) (m : ManagerState σ ω) : ManagerEvent P L ω → Option (ManagerState σ ω)
  | .create rootHash configBlobHash =>
    if (m.forest.resolve rootHash).isSome ∨ ∀ n < m.forest.nodes.size, (m.forest.node n).nodeKey ≠ rootHash then
      some { m with forest := (m.forest.getOrCreateNamespace rootHash configBlobHash).1 }
    else none
  | .ingest a =>
    if a.parent < m.forest.nodes.size ∧ m.forest.KeyFree a.parent a.action a.nodeKey ∧
        a.kvPayload.length = count ∧ (a.newHandle cfg).nLayers = count then
      let (_, f, s) := Prefix.ingest S cfg m.forest m.store a
      some { m with forest := f, store := s }
    else none
  | .evict n =>
    if n < m.forest.nodes.size then
      let (_, f, s) := evictBlob S m.forest m.store n
      some { m with forest := f, store := s }
    else none
  | .start n w => if n < m.forest.nodes.size then some (m.start cfg n w) else none
  | .seed i =>
    match m.calls[i]? with
    | none => none
    | some c =>
      match c.pc with
      | .layer k => if k < c.nLayers then some (m.seed S W i c k) else none
      | _ => none
  | .raise i e =>
    match m.calls[i]? with
    | none => none
    | some c =>
      match c.pc with
      | .layer _ => some (m.close i c (.raised e))
      | _ => none
  | .finish i now =>
    match m.calls[i]? with
    | none => none
    | some c =>
      match c.pc with
      | .layer k => if c.nLayers ≤ k then some (m.finish W i c now) else none
      | _ => none

def init (store : σ) : ManagerState σ ω := ⟨.empty, store, []⟩

/-- The unfinished calls whose path contains the node. -/
def holders (m : ManagerState σ ω) (n : NodeId) : Nat :=
  m.calls.countP fun c => c.unfinished && decide (n ∈ c.path)

end ManagerState

end

end CacheSeek.Prefix
