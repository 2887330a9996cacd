import CacheSeek.Lib.Restart
import CacheSeek.Prefix.Shape
import CacheSeek.Prefix.SnapshotText

namespace CacheSeek.Prefix
open CacheSeek.Lib NamespaceForest

structure Process (σ : Type) where
  forest : NamespaceForest
  store : σ

/-- What sessions ask of a process. They name nodes by the actions that lead to them. -/
inductive ProcessCall (ω P L : Type) where
  | create (rootHash configBlobHash : Bytes)
  | lookup (rootHash : Bytes) (actions : List ActionKey)
  | resume (now : Rat) (rootHash : Bytes) (actions : List ActionKey) (window : ω)
  | ingest (rootHash : Bytes) (path : List ActionKey) (action : ActionKey) (kvPayload : List P) (latent : L)
      (nbytes : Int)
  | latent (rootHash : Bytes) (path : List ActionKey)
  | evict (rootHash : Bytes) (path : List ActionKey)

inductive ProcessAnswer (ω L : Type) where
  | done
  | matched (known : Bool) (matchedLen : Nat)
  | resumed (startChunk : Except PyError Nat) (window : ω)
  | ingested (res : Except PyError Unit)
  | latent (res : Except PyError (Option L))
  | evicted (dropped : Bool)

namespace Process

variable {σ ω P L : Type} (digest : Bytes → Bytes) (S : KVTierStore σ P L) (W : RollingWindow ω P)
  (cfg : WorldKVConfig)

def chunkArgs (f : NamespaceForest) (n : NodeId) (action : ActionKey) (key : Bytes) (kvPayload : List P)
    (latent : L) (nbytes : Int) : IngestArgs P L :=
  { parent := n, action, nodeKey := key, depth := (f.node n).depth + 1, kvPayload, latent, nbytes }

def ingestAt (p : Process σ) (n : NodeId) (action : ActionKey) (kvPayload : List P) (latent : L)
    (nbytes : Int) : ProcessAnswer ω L × Process σ :=
  match nodeKey digest (p.forest.node n).nodeKey action.bytes with
  | none => (.ingested (.error .overflowError), p)
  | some key =>
    let (res, f, s) := Prefix.ingest S cfg p.forest p.store
      (chunkArgs p.forest n action key kvPayload latent nbytes)
    (.ingested (res.map fun _ => ()), ⟨f, s⟩)

def latentAt (p : Process σ) (n : NodeId) : ProcessAnswer ω L × Process σ :=
  match (p.forest.node n).skeleton with
  | none => (.latent (.error .attributeError), p)
  | some sk =>
    let (res, s) := S.getSkeleton p.store sk.latentLocator
    (.latent res, { p with store := s })

def call (p : Process σ) : ProcessCall ω P L → ProcessAnswer ω L × Process σ
  | .create r c => (.done, { p with forest := (p.forest.getOrCreateNamespace r c).1 })
  | .lookup r actions =>
    let m := p.forest.lookup r actions
    (.matched m.ns.isSome m.matchedLen, p)
  | .resume now r actions w =>
    let (res, f, s, w) := tryFastForward S W cfg now p.forest p.store r actions w
    (.resumed (res.map FastForwardResult.startChunk) w, ⟨f, s⟩)
  | .ingest r path action kvPayload latent nbytes =>
    match p.forest.nodeAt r path with
    | none => (.done, p)
    | some n => p.ingestAt digest S cfg n action kvPayload latent nbytes
  | .latent r path =>
    match p.forest.nodeAt r path with
    | none => (.done, p)
    | some n => p.latentAt S n
  | .evict r path =>
    match p.forest.nodeAt r path with
    | none => (.done, p)
    | some n =>
      let (dropped, f, s) := evictBlob S p.forest p.store n
      (.evicted dropped, ⟨f, s⟩)

/-- The process that loads the snapshot file of another, over the store that it left behind. -/
def restart (renew : σ → σ) (p : Process σ) : Option (Process σ) :=
  match loadForestSnapshot (some p.forest.saveForestSnapshot) none with
  | some (.ok _, g) => some ⟨g, renew p.store⟩
  | _ => none

end Process

end CacheSeek.Prefix
