import CacheSeek.Stores.Tier
import CacheSeek.Lib.Run

namespace CacheSeek.Prefix
open CacheSeek.Lib CacheSeek.Stores

/-- How one put of a tensor ends. It may raise before or after the tensor landed;
a sidecar that cannot be written is not an error. -/
inductive Outcome where
  | ok (sidecar : Bool)
  | raise (landed : Bool)
  deriving DecidableEq, Repr

/-- `_put_one` with a given outcome; None has no shape. -/
def tryPut {τ : Type} (ops : TensorOps τ) (s : TensorTier τ) (key : String) (t : Option τ)
    (o : Outcome) : Bool × TensorTier τ :=
  match t, o with
  | none, _ => (false, s)
  | some t, .ok sidecar =>
    let s := (s.note ops key t).land key t
    (true, if sidecar then s.putSidecar ops key t else s)
  | some t, .raise landed =>
    let s := s.note ops key t
    (false, if landed then s.land key t else s)

/-- Where an `ingest` call is: the statement it executes next. -/
inductive IngestPc (τ : Type) where
  | commit
  | pin (n : NodeId)
  | putSkeleton (n : NodeId)
  | setSkeleton (n : NodeId)
  | attach (n : NodeId)
  | putAsync (n : NodeId) (h : HandleId)
  | writing (n : NodeId) (h : HandleId) (pending : List (String × Option τ))
  | returned (n : NodeId)
  | raised

structure IngestCall (τ : Type) where
  args : IngestArgs (LayerValue τ) τ
  pc : IngestPc τ

structure PutItem (τ : Type) where
  locator : String
  payload : List (LayerValue τ)
  handle : HandleId

/-- History of a blob's write: whose hands it is in, or how it ended. -/
inductive WriteStatus where
  | caller (call : Nat)
  | queued
  | worker
  | aborted
  | published
  deriving DecidableEq, Repr

/-- Concurrent `ingest` calls, the put queue and its worker over one forest and
store. `status` is history only: no step reads it. -/
structure Machine (τ : Type) where
  forest : NamespaceForest
  store : TensorTier τ
  calls : List (IngestCall τ)
  queue : List (PutItem τ)
  worker : Option (HandleId × List (String × Option τ))
  status : HandleId → WriteStatus

inductive MachineEvent (τ : Type) where
  | create (root configBlobHash : Bytes)
  | call (args : IngestArgs (LayerValue τ) τ)
  | advance (call : Nat) (outcome : Outcome)
  | get
  | put (outcome : Outcome)
  | finish
  | evict (n : NodeId)
  | read (handle : BlobHandle) (layer : Nat)

/-- Parameters of a machine: the store's mode and what callers pass to `ingest`. -/
structure MachineConfig (τ : Type) where
  ops : TensorOps τ
  cfg : WorldKVConfig
  async : Bool
  maxPending : Int
  accepts : NamespaceForest → IngestArgs (LayerValue τ) τ → Bool

namespace Machine

variable {τ : Type} (M : MachineConfig τ)

def init (store : TensorTier τ) : Machine τ := ⟨.empty, store, [], [], none, fun _ => .published⟩

def setStatus (m : Machine τ) (h : HandleId) (st : WriteStatus) : Machine τ :=
  { m with status := fun x => if x = h then st else m.status x }

def setPc (m : Machine τ) (i : Nat) (c : IngestCall τ) (pc : IngestPc τ) : Machine τ :=
  { m with calls := m.calls.set i { c with pc } }

/-- The next statement of call `i`. A call on a full queue waits. -/
def advance (m : Machine τ) (i : Nat) (c : IngestCall τ) (o : Outcome) : Option (Machine τ) :=
  let a := c.args
  match c.pc with
  | .commit =>
    let (f, n) := m.forest.commit a.parent a.action a.nodeKey a.depth
    some ({ m with forest := f }.setPc i c (.pin n))
  | .pin n =>
    some ({ m with forest := m.forest.pinSink M.cfg n a.depth }.setPc i c (.putSkeleton n))
  | .putSkeleton n =>
    match tryPut M.ops m.store (NamespaceForest.latentLocator a.nodeKey) (some a.latent) o with
    | (true, s) => some ({ m with store := s }.setPc i c (.setSkeleton n))
    | (false, s) => some ({ m with store := s }.setPc i c .raised)
  | .setSkeleton n =>
    some ({ m with forest := m.forest.setSkeleton n a.nodeKey }.setPc i c (.attach n))
  | .attach n =>
    let (f, h) := m.forest.attachBlob n (a.newHandle M.cfg)
    some (({ m with forest := f }.setStatus h (.caller i)).setPc i c (.putAsync n h))
  | .putAsync n h =>
    if M.async then
      if M.maxPending ≤ 0 ∨ (m.queue.length : Int) < M.maxPending then
        let item := ⟨NamespaceForest.kvLocator a.nodeKey, a.kvPayload, h⟩
        some (({ m with queue := m.queue ++ [item] }.setStatus h .queued).setPc i c (.returned n))
      else none
    else
      some (m.setPc i c (.writing n h
        (TensorTier.payloadWrites (NamespaceForest.kvLocator a.nodeKey) 0 a.kvPayload)))
  | .writing n h [] =>
    some (({ m with forest := m.forest.publish h }.setStatus h .published).setPc i c (.returned n))
  | .writing n h ((key, t) :: pending) =>
    match tryPut M.ops m.store key t o with
    | (true, s) => some ({ m with store := s }.setPc i c (.writing n h pending))
    | (false, s) => some (({ m with store := s }.setStatus h .aborted).setPc i c .raised)
  | .returned _ => none
  | .raised => none

def step (m : Machine τ) : MachineEvent τ → Option (Machine τ)
  | .create r c => some { m with forest := (m.forest.getOrCreateNamespace r c).1 }
  | .call a =>
    if a.parent < m.forest.nodes.size ∧ M.accepts m.forest a = true then
      some { m with calls := m.calls ++ [⟨a, .commit⟩] }
    else none
  | .advance i o =>
    match m.calls[i]? with
    | none => none
    | some c => m.advance M i c o
  | .get =>
    match m.worker, m.queue with
    | none, item :: queue =>
      some ({ m with
        queue
        worker := some (item.handle, TensorTier.payloadWrites item.locator 0 item.payload)
        }.setStatus item.handle .worker)
    | _, _ => none
  | .put o =>
    match m.worker with
    | some (h, (key, t) :: pending) =>
      match tryPut M.ops m.store key t o with
      | (true, s) => some { m with store := s, worker := some (h, pending) }
      | (false, s) => some ({ m with store := s, worker := none }.setStatus h .aborted)
    | _ => none
  | .finish =>
    match m.worker with
    | some (h, []) =>
      some ({ m with forest := m.forest.publish h, worker := none }.setStatus h .published)
    | _ => none
  | .evict n =>
    if n < m.forest.nodes.size then
      let (_, f, s) := evictBlob (tensorStoreTierStore M.ops) m.forest m.store n
      some { m with forest := f, store := s }
    else none
  | .read b layer => some { m with store := (m.store.getLayer M.ops b layer).2 }

end Machine

end CacheSeek.Prefix
