import CacheSeek.Stores.Tier

namespace CacheSeek.Stores
open CacheSeek.Lib CacheSeek.Prefix

/-- A duck-typed tensor store: `put_tensor`, `get_tensor`, and the bytes `put` and `get` of the sidecars. -/
structure TensorStore (β τ : Type) where
  putTensor : β → String → τ → β
  getTensor : β → String → TensorSpec → Except PyError (Option τ)
  put : β → String → String → β
  get : β → String → Option String

/-- A correct map, with one space of keys or one for tensors and one for bytes. -/
structure TensorStore.Correct {β τ : Type} (B : TensorStore β τ) (spec : τ → TensorSpec) : Prop where
  getTensor_self : ∀ b key t, B.getTensor (B.putTensor b key t) key (spec t) = .ok (some t)
  getTensor_other : ∀ b key key' t sp, key' ≠ key →
    B.getTensor (B.putTensor b key t) key' sp = B.getTensor b key' sp
  getTensor_put : ∀ b key key' raw sp, key' ≠ key → B.getTensor (B.put b key raw) key' sp = B.getTensor b key' sp
  get_self : ∀ b key raw, B.get (B.put b key raw) key = some raw
  get_other : ∀ b key key' raw, key' ≠ key → B.get (B.put b key raw) key' = B.get b key'
  get_putTensor : ∀ b key key' t, key' ≠ key → B.get (B.putTensor b key t) key' = B.get b key'

structure TensorStoreTier (β : Type) where
  specs : Dict String TensorSpec := ∅
  ts : β

namespace TensorStoreTier

variable {β τ : Type} (B : TensorStore β τ) (spec : τ → TensorSpec)

def renew (s : TensorStoreTier β) : TensorStoreTier β := { s with specs := ∅ }

/-- `_put_one`; None has no shape. -/
def putOne (s : TensorStoreTier β) (key : String) : Option τ → Except PyError Unit × TensorStoreTier β
  | none => (.error .typeError, s)
  | some t => (.ok (), {
      specs := s.specs.set key (spec t)
      ts := B.put (B.putTensor s.ts key t) (key ++ ":spec") (spec t).toText })

def getOne (s : TensorStoreTier β) (key : String) : Except PyError (Option τ) × TensorStoreTier β :=
  match s.specs.get? key with
  | some sp => (B.getTensor s.ts key sp, s)
  | none =>
    match B.get s.ts (key ++ ":spec") with
    | none => (.ok none, s)
    | some raw =>
      match TensorSpec.ofText raw with
      | .error e => (.error e, s)
      | .ok sp => (B.getTensor s.ts key sp, { s with specs := s.specs.set key sp })

/-- `_do_put_payload`. -/
def putAll (s : TensorStoreTier β) : List (String × Option τ) → Except PyError Unit × TensorStoreTier β
  | [] => (.ok (), s)
  | (key, t) :: writes =>
    match s.putOne B spec key t with
    | (.error e, s) => (.error e, s)
    | (.ok _, s) => putAll s writes

def getLayer (s : TensorStoreTier β) (handle : BlobHandle) (layer : Nat) :
    Except PyError (LayerValue τ) × TensorStoreTier β :=
  match s.getOne B (TensorTier.layerKey handle.locator layer ++ ":k") with
  | (.error e, s) => (.error e, s)
  | (.ok (some k), s) =>
    match s.getOne B (TensorTier.layerKey handle.locator layer ++ ":v") with
    | (.error e, s) => (.error e, s)
    | (.ok v, s) => (.ok (.pair (some k) v), s)
  | (.ok none, s) =>
    match s.getOne B (TensorTier.layerKey handle.locator layer) with
    | (.error e, s) => (.error e, s)
    | (.ok none, s) => (.ok .miss, s)
    | (.ok (some t), s) => (.ok (.single t), s)

end TensorStoreTier

def tensorStoreOver {β τ : Type} (B : TensorStore β τ) (spec : τ → TensorSpec) :
    KVTierStore (TensorStoreTier β) (LayerValue τ) τ where
  putAsync s locator payload _ :=
    match s.putAll B spec (TensorTier.payloadWrites locator 0 payload) with
    | (.error _, s) => (.raised, s)
    | (.ok _, s) => (.published, s)
  getLayer s handle layer := s.getLayer B handle layer
  putSkeleton s locator latent := s.putOne B spec locator (some latent)
  getSkeleton s locator := s.getOne B locator
  free s _ := s

/-- The backing store of `TensorTier`. -/
def dictStore {τ : Type} (ops : TensorOps τ) : TensorStore (Dict String τ × Dict String String) τ where
  putTensor b key t := (b.1.set key t, b.2)
  getTensor b key sp :=
    match b.1.get? key with
    | none => .ok none
    | some t => (ops.view t sp).map some
  put b key raw := (b.1, b.2.set key raw)
  get b key := b.2.get? key

namespace TensorStoreTier

variable {τ : Type} (ops : TensorOps τ)

def toTensorTier (s : TensorStoreTier (Dict String τ × Dict String String)) : TensorTier τ :=
  { specs := s.specs, tensors := s.ts.1, sidecars := some s.ts.2 }

theorem dictStore_correct (hops : ops.Lawful) : (dictStore ops).Correct ops.spec where
  getTensor_self b key t := by
    simp only [dictStore, Dict.get?_set_self, hops t]
    rfl
  getTensor_other b key key' t sp h := by simp only [dictStore, Dict.get?_set_ne _ _ h]
  getTensor_put b key key' raw sp h := rfl
  get_self b key raw := Dict.get?_set_self _ _ _
  get_other b key key' raw h := Dict.get?_set_ne _ _ h
  get_putTensor b key key' t h := rfl

theorem toTensorTier_putOne (s : TensorStoreTier (Dict String τ × Dict String String)) (key : String)
    (t : Option τ) : s.toTensorTier.putOne ops key t =
      ((s.putOne (dictStore ops) ops.spec key t).1, (s.putOne (dictStore ops) ops.spec key t).2.toTensorTier) := by
  cases t with
  | none => rfl
  | some t => rfl

theorem toTensorTier_putAll (s : TensorStoreTier (Dict String τ × Dict String String))
    (writes : List (String × Option τ)) : s.toTensorTier.putAll ops writes =
      ((s.putAll (dictStore ops) ops.spec writes).1,
        (s.putAll (dictStore ops) ops.spec writes).2.toTensorTier) := by
  induction writes generalizing s with
  | nil => rfl
  | cons w writes ih =>
    obtain ⟨key, t⟩ := w
    cases t with
    | none => rfl
    | some t => exact ih (s.putOne (dictStore ops) ops.spec key (some t)).2

theorem toTensorTier_getOne (s : TensorStoreTier (Dict String τ × Dict String String)) (key : String) :
    s.toTensorTier.getOne ops key =
      ((s.getOne (dictStore ops) key).1, (s.getOne (dictStore ops) key).2.toTensorTier) := by
  simp only [getOne, TensorTier.getOne, toTensorTier, dictStore, Option.bind_some]
  cases s.specs.get? key with
  | some sp => rfl
  | none =>
    cases s.ts.2.get? (key ++ ":spec") with
    | none => rfl
    | some raw =>
      simp only
      cases TensorSpec.ofText raw with
      | error e => rfl
      | ok sp => rfl

theorem toTensorTier_getLayer (s : TensorStoreTier (Dict String τ × Dict String String)) (handle : BlobHandle)
    (layer : Nat) : s.toTensorTier.getLayer ops handle layer =
      ((s.getLayer (dictStore ops) handle layer).1, (s.getLayer (dictStore ops) handle layer).2.toTensorTier) := by
  simp only [getLayer, TensorTier.getLayer, toTensorTier_getOne]
  cases s.getOne (dictStore ops) (TensorTier.layerKey handle.locator layer ++ ":k") with
  | mk res s1 =>
    cases res with
    | error e => rfl
    | ok k =>
      cases k with
      | some k =>
        simp only [toTensorTier_getOne]
        cases s1.getOne (dictStore ops) (TensorTier.layerKey handle.locator layer ++ ":v") with
        | mk res s2 => cases res <;> rfl
      | none =>
        simp only [toTensorTier_getOne]
        cases s1.getOne (dictStore ops) (TensorTier.layerKey handle.locator layer) with
        | mk res s2 =>
          cases res with
          | error e => rfl
          | ok t => cases t <;> rfl

/-- `TensorTier` is the instance over two dictionaries. -/
theorem toTensorTier_simulates (s : TensorStoreTier (Dict String τ × Dict String String)) :
    (∀ locator payload h, (tensorStoreTierStore ops).putAsync s.toTensorTier locator payload h =
      (((tensorStoreOver (dictStore ops) ops.spec).putAsync s locator payload h).1,
        ((tensorStoreOver (dictStore ops) ops.spec).putAsync s locator payload h).2.toTensorTier)) ∧
    (∀ handle layer, (tensorStoreTierStore ops).getLayer s.toTensorTier handle layer =
      (((tensorStoreOver (dictStore ops) ops.spec).getLayer s handle layer).1,
        ((tensorStoreOver (dictStore ops) ops.spec).getLayer s handle layer).2.toTensorTier)) ∧
    (∀ locator latent, (tensorStoreTierStore ops).putSkeleton s.toTensorTier locator latent =
      (((tensorStoreOver (dictStore ops) ops.spec).putSkeleton s locator latent).1,
        ((tensorStoreOver (dictStore ops) ops.spec).putSkeleton s locator latent).2.toTensorTier)) ∧
    ∀ locator, (tensorStoreTierStore ops).getSkeleton s.toTensorTier locator =
      (((tensorStoreOver (dictStore ops) ops.spec).getSkeleton s locator).1,
        ((tensorStoreOver (dictStore ops) ops.spec).getSkeleton s locator).2.toTensorTier) := by
  refine ⟨?_, fun handle layer => toTensorTier_getLayer ops s handle layer,
    fun locator latent => toTensorTier_putOne ops s locator (some latent),
    fun locator => toTensorTier_getOne ops s locator⟩
  intro locator payload h
  simp only [tensorStoreTierStore, tensorStoreOver, toTensorTier_putAll]
  cases s.putAll (dictStore ops) ops.spec (TensorTier.payloadWrites locator 0 payload) with
  | mk res s1 => cases res <;> rfl

end TensorStoreTier

end CacheSeek.Stores
