import CacheSeek.Prefix.Manager

namespace CacheSeek.Stores
open CacheSeek.Lib CacheSeek.Prefix

structure InMemoryTier (P L : Type) where
  blobs : Dict String (List P) := ∅
  skeletons : Dict String L := ∅

/-- Writes are done, and published, before `put_async` returns. -/
def inMemoryTierStore (P L : Type) : KVTierStore (InMemoryTier P L) P L where
  putAsync s locator payload _ := (.published, { s with blobs := s.blobs.set locator payload })
  getLayer s handle layer :=
    match s.blobs.get? handle.locator with
    | none => (.error (.keyError handle.locator), s)
    | some payload =>
      match payload[layer]? with
      | none => (.error .indexError, s)
      | some p => (.ok p, s)
  putSkeleton s locator latent := (.ok (), { s with skeletons := s.skeletons.set locator latent })
  getSkeleton s locator := (.ok (s.skeletons.get? locator), s)
  free s handle := { s with blobs := s.blobs.erase handle.locator }

/-- What a layer's payload can be, as stored or as read back; `none` stands for None. -/
inductive LayerValue (τ : Type) where
  | miss
  | single (t : τ)
  | pair (k v : Option τ)
  deriving DecidableEq, Repr

/-- No tensor is missing. -/
def LayerValue.whole {τ : Type} : LayerValue τ → Bool
  | .miss => false
  | .single _ => true
  | .pair k v => k.isSome && v.isSome

structure TensorSpec where
  shape : List Nat
  dtype : String
  deriving DecidableEq, Repr

/-- The tensors of the backing store: their spec, and what `get_tensor` makes of
a stored buffer under a given spec. -/
structure TensorOps (τ : Type) where
  spec : τ → TensorSpec
  view : τ → TensorSpec → Except PyError τ

/-- A tensor read under its own spec comes back as it was. -/
def TensorOps.Lawful {τ : Type} (ops : TensorOps τ) : Prop := ∀ t, ops.view t (ops.spec t) = .ok t

/-- The adapter's specs over a backing store that is a map. `sidecars` holds the
texts under `:spec` keys; a backend without bytes `put/get` has none. -/
structure TensorTier (τ : Type) where
  specs : Dict String TensorSpec := ∅
  tensors : Dict String τ := ∅
  sidecars : Option (Dict String String) := some ∅

def TensorSpec.toText (spec : TensorSpec) : String :=
  Json.dumps Json.defaultStyle (.arr [.arr (spec.shape.map fun n => .int n), .str spec.dtype])

def TensorSpec.shapeOf : List Json → Except PyError (List Nat)
  | [] => .ok []
  | .int n :: xs => do
    let ns ← shapeOf xs
    .ok (n.toNat :: ns)
  | _ :: _ => .error .typeError

/-- `shape, dt = json.loads(raw)`. -/
def TensorSpec.ofText (raw : String) : Except PyError TensorSpec :=
  match Json.loads raw with
  | some (.arr [.arr xs, .str dtype]) => do
    let shape ← shapeOf xs
    .ok ⟨shape, dtype⟩
  | _ => .error (.valueError raw)

namespace TensorTier

variable {τ : Type} (ops : TensorOps τ)

def layerKey (locator : String) (layer : Nat) : String := locator ++ ":L" ++ Nat.repr layer

/-- `_specs[key] = spec`, made before anything is written. -/
def note (s : TensorTier τ) (key : String) (t : τ) : TensorTier τ :=
  { s with specs := s.specs.set key (ops.spec t) }

def land (s : TensorTier τ) (key : String) (t : τ) : TensorTier τ :=
  { s with tensors := s.tensors.set key t }

def putSidecar (s : TensorTier τ) (key : String) (t : τ) : TensorTier τ :=
  { s with sidecars := s.sidecars.map fun m => m.set (key ++ ":spec") (ops.spec t).toText }

/-- `_put_one`; None has no shape. -/
def putOne (s : TensorTier τ) (key : String) : Option τ → Except PyError Unit × TensorTier τ
  | none => (.error .typeError, s)
  | some t => (.ok (), ((s.note ops key t).land key t).putSidecar ops key t)

def view (s : TensorTier τ) (key : String) (spec : TensorSpec) : Except PyError (Option τ) :=
  match s.tensors.get? key with
  | none => .ok none
  | some t => (ops.view t spec).map some

def getOne (s : TensorTier τ) (key : String) : Except PyError (Option τ) × TensorTier τ :=
  match s.specs.get? key with
  | some spec => (s.view ops key spec, s)
  | none =>
    match s.sidecars.bind fun m => m.get? (key ++ ":spec") with
    | none => (.ok none, s)
    | some raw =>
      match TensorSpec.ofText raw with
      | .error e => (.error e, s)
      | .ok spec => (s.view ops key spec, { s with specs := s.specs.set key spec })

/-- The keys and values that `_do_put_payload` puts, in order. -/
def payloadWrites (locator : String) (layer : Nat) : List (LayerValue τ) → List (String × Option τ)
  | [] => []
  | .pair k v :: payload =>
    (layerKey locator layer ++ ":k", k) :: (layerKey locator layer ++ ":v", v) ::
      payloadWrites locator (layer + 1) payload
  | .single t :: payload =>
    (layerKey locator layer, some t) :: payloadWrites locator (layer + 1) payload
  | .miss :: payload => (layerKey locator layer, none) :: payloadWrites locator (layer + 1) payload

def putAll (s : TensorTier τ) : List (String × Option τ) → Except PyError Unit × TensorTier τ
  | [] => (.ok (), s)
  | (key, t) :: writes =>
    match s.putOne ops key t with
    | (.error e, s) => (.error e, s)
    | (.ok _, s) => putAll s writes

def getLayer (s : TensorTier τ) (handle : BlobHandle) (layer : Nat) :
    Except PyError (LayerValue τ) × TensorTier τ :=
  match s.getOne ops (layerKey handle.locator layer ++ ":k") with
  | (.error e, s) => (.error e, s)
  | (.ok (some k), s) =>
    match s.getOne ops (layerKey handle.locator layer ++ ":v") with
    | (.error e, s) => (.error e, s)
    | (.ok v, s) => (.ok (.pair (some k) v), s)
  | (.ok none, s) =>
    match s.getOne ops (layerKey handle.locator layer) with
    | (.error e, s) => (.error e, s)
    | (.ok none, s) => (.ok .miss, s)
    | (.ok (some t), s) => (.ok (.single t), s)

end TensorTier

/-- TensorStoreTierStore with `async_put=False`; `free` reclaims nothing. -/
def tensorStoreTierStore {τ : Type} (ops : TensorOps τ) :
    KVTierStore (TensorTier τ) (LayerValue τ) τ where
  putAsync s locator payload _ :=
    match s.putAll ops (TensorTier.payloadWrites locator 0 payload) with
    | (.error _, s) => (.raised, s)
    | (.ok _, s) => (.published, s)
  getLayer s handle layer := s.getLayer ops handle layer
  putSkeleton s locator latent := s.putOne ops locator (some latent)
  getSkeleton s locator := s.getOne ops locator
  free s _ := s

end CacheSeek.Stores
