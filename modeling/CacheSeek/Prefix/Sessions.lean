import CacheSeek.Prefix.Manager
import CacheSeek.Lib.Run

namespace CacheSeek.Prefix
open CacheSeek.Lib

/-- One request generating its chunks in order; chunk `next` goes under `mount`. -/
structure Session where
  root : Bytes
  actions : List ActionKey
  chain : List Bytes
  next : Nat
  mount : NodeId

/-- The history of a forest: which path of which world was stored or dropped. -/
inductive Event where
  | created (root : Bytes)
  | ingested (root : Bytes) (path : List ActionKey)
  | evicted (root : Bytes) (path : List ActionKey)
  deriving DecidableEq, Repr

/-- Stored, and not dropped since; the history has its newest event first. -/
def live (r : Bytes) (p : List ActionKey) : List Event → Bool
  | [] => false
  | .created _ :: log => live r p log
  | .ingested r' p' :: log => if r = r' ∧ p = p' then true else live r p log
  | .evicted r' p' :: log => if r = r' ∧ p = p' then false else live r p log

/-- Whether an event is about one of the paths a lookup of `actions` passes. -/
def Event.concerns (r : Bytes) (actions : List ActionKey) : Event → Bool
  | .created r' => r' = r
  | .ingested r' p => r' = r && p.isPrefixOf actions
  | .evicted r' p => r' = r && p.isPrefixOf actions

namespace NamespaceForest

def addressFrom (f : NamespaceForest) : Nat → NodeId → List ActionKey → Bytes × List ActionKey
  | 0, n, path => ((f.node n).nodeKey, path)
  | fuel + 1, n, path =>
    match (f.node n).parent with
    | none => ((f.node n).nodeKey, path)
    | some m => f.addressFrom fuel m ((f.node n).action :: path)

def address (f : NamespaceForest) (n : NodeId) : Bytes × List ActionKey :=
  f.addressFrom n n []

end NamespaceForest

/-- A forest over one store, its sessions, and the history of both. -/
structure World (σ : Type) where
  forest : NamespaceForest
  store : σ
  sessions : List Session
  log : List Event

inductive Op (P L ω : Type) where
  | create (root configBlobHash : Bytes)
  | start (root : Bytes) (actions : List ActionKey) (resume : Bool)
  | ingest (session : Nat) (kvPayload : List P) (latent : L) (nbytes : Int) (nLayers : Option Int)
  | materialize (node : NodeId) (window : ω) (now : Rat)
  | evict (node : NodeId)

section
variable {σ ω P L : Type} (digest : Bytes → Bytes) (S : KVTierStore σ P L) (W : RollingWindow ω P)
  (cfg : WorldKVConfig)

def Session.ingestArgs (s : Session) (action : ActionKey) (nodeKey : Bytes) (kvPayload : List P)
    (latent : L) (nbytes : Int) (nLayers : Option Int) : IngestArgs P L :=
  { parent := s.mount, action, nodeKey, depth := s.next, kvPayload, latent, nbytes, nLayers }

/-- A session starts at the root or after the chunks the forest has; nodes and
sessions that do not exist have no steps. -/
def World.step (w : World σ) : Op P L ω → Option (World σ)
  | .create r c =>
    some { w with forest := (w.forest.getOrCreateNamespace r c).1, log := .created r :: w.log }
  | .start r actions resume =>
    match buildActionChain digest r (actions.map ActionKey.bytes) with
    | none => none
    | some chain =>
      let m := w.forest.lookup r actions
      match m.ns, m.node with
      | some ns, some n =>
        let s := if resume then ⟨r, actions, chain, m.matchedLen, n⟩
          else ⟨r, actions, chain, 0, ns.root⟩
        some { w with sessions := w.sessions ++ [s] }
      | _, _ => none
  | .ingest i kvPayload latent nbytes nLayers =>
    match w.sessions[i]? with
    | none => none
    | some s =>
      match s.actions[s.next]?, s.chain[s.next]? with
      | some a, some k =>
        match Prefix.ingest S cfg w.forest w.store
            (s.ingestArgs a k kvPayload latent nbytes nLayers) with
        | (.error _, f, st) => some { w with forest := f, store := st }
        | (.ok n, f, st) =>
          some
            { forest := f
              store := st
              sessions := w.sessions.set i { s with next := s.next + 1, mount := n }
              log := .ingested s.root (s.actions.take (s.next + 1)) :: w.log }
      | _, _ => none
  | .materialize n window now =>
    if n < w.forest.nodes.size then
      let (_, f, st, _) := Prefix.materialize S W cfg now w.forest w.store n window
      some { w with forest := f, store := st }
    else none
  | .evict n =>
    if n < w.forest.nodes.size then
      match evictBlob S w.forest w.store n with
      | (false, f, st) => some { w with forest := f, store := st }
      | (true, f, st) =>
        let (r, p) := w.forest.address n
        some { w with forest := f, store := st, log := .evicted r p :: w.log }
    else none

def World.init (store : σ) : World σ := ⟨.empty, store, [], []⟩

/-- A store whose writes are done and published when they return. -/
structure Synchronous (S : KVTierStore σ P L) : Prop where
  put : ∀ s loc payload h, (S.putAsync s loc payload h).1 = .published
  skeleton : ∀ s loc latent, (S.putSkeleton s loc latent).1 = .ok ()

end

end CacheSeek.Prefix
