import CacheSeek.Prefix.Publication
import CacheSeek.Proofs.StoreKeys

namespace CacheSeek.Proofs.StoreContents
open CacheSeek.Lib CacheSeek.Prefix CacheSeek.Prefix.NamespaceForest CacheSeek.Stores
open CacheSeek.Stores.TensorTier CacheSeek.Proofs.StoreKeys

variable {τ : Type}

/-- Content addressing: the key of a child, and a key's payload and latent. -/
structure Values (τ : Type) where
  keyOf : Bytes → ActionKey → Bytes
  payloadOf : Bytes → List (τ × τ)
  latentOf : Bytes → τ

namespace Values

def blob (V : Values τ) (k : Bytes) : List (String × Option τ) :=
  payloadWrites (kvLocator k) 0 (pairs (V.payloadOf k))

def skeleton (V : Values τ) (k : Bytes) : String × Option τ :=
  (latentLocator k, some (V.latentOf k))

/-- Callers pass `ingest` what the node key determines. -/
def Admits (V : Values τ) (M : MachineConfig τ) : Prop :=
  ∀ f a, M.accepts f a = true → a.nodeKey = V.keyOf (f.node a.parent).nodeKey a.action ∧
    a.kvPayload = pairs (V.payloadOf a.nodeKey) ∧ a.latent = V.latentOf a.nodeKey ∧
    ∀ k, a.nLayers = some k → k ≤ (V.payloadOf a.nodeKey).length

def Holds (V : Values τ) (w : String × Option τ) : Prop := Content V.payloadOf V.latentOf w

theorem holds_skeleton (V : Values τ) (k : Bytes) : V.Holds (V.skeleton k) := ⟨k, Or.inl rfl⟩

theorem holds_blob (V : Values τ) {k : Bytes} {w : String × Option τ} (h : w ∈ V.blob k) :
    V.Holds w := ⟨k, Or.inr h⟩

end Values

def Has (ops : TensorOps τ) (s : TensorTier τ) (w : String × Option τ) : Prop :=
  ∃ t, w.2 = some t ∧ s.specs.get? w.1 = some (ops.spec t) ∧ s.tensors.get? w.1 = some t

/-- Everything `s` had, `s'` has. -/
def Keeps (V : Values τ) (ops : TensorOps τ) (s s' : TensorTier τ) : Prop :=
  ∀ w, V.Holds w → Has ops s w → Has ops s' w

theorem Keeps.refl (V : Values τ) (ops : TensorOps τ) (s : TensorTier τ) : Keeps V ops s s :=
  fun _ _ h => h

variable {V : Values τ} {ops : TensorOps τ} {s : TensorTier τ}

theorem has_note {key : String} {t : τ} (hc : V.Holds (key, some t)) {w : String × Option τ}
    (hw : V.Holds w) (h : Has ops s w) : Has ops (s.note ops key t) w := by
  obtain ⟨u, hu, hs, ht⟩ := h
  obtain ⟨key', t'⟩ := w
  simp only at hu hs ht
  subst t'
  refine ⟨u, rfl, ?_, ht⟩
  simp only [note, Dict.get?_set]
  split
  · rename_i he
    subst key'
    rw [Option.some.inj (hw.unique hc)]
  · exact hs

theorem has_land {key : String} {t : τ} (hc : V.Holds (key, some t)) {w : String × Option τ}
    (hw : V.Holds w) (h : Has ops s w) : Has ops (s.land key t) w := by
  obtain ⟨u, hu, hs, ht⟩ := h
  obtain ⟨key', t'⟩ := w
  simp only at hu hs ht
  subst t'
  refine ⟨u, rfl, hs, ?_⟩
  simp only [land, Dict.get?_set]
  split
  · rename_i he
    subst key'
    rw [Option.some.inj (hw.unique hc)]
  · exact ht

/-- A put of what its key stands for takes nothing away, however it ends. -/
theorem tryPut_keeps {key : String} {t : Option τ} (hc : V.Holds (key, t)) (o : Outcome) :
    Keeps V ops s (tryPut ops s key t o).2 := by
  intro w hw h
  cases t with
  | none => exact h
  | some t =>
    have h1 := has_note (s := s) hc hw h
    have h2 := has_land hc hw h1
    cases o with
    | ok sidecar => cases sidecar <;> exact h2
    | raise landed =>
      cases landed with
      | false => exact h1
      | true => exact h2

theorem tryPut_has {key : String} {t : Option τ} {o : Outcome}
    (h : (tryPut ops s key t o).1 = true) : Has ops (tryPut ops s key t o).2 (key, t) := by
  cases t with
  | none => cases h
  | some t =>
    cases o with
    | ok sidecar => cases sidecar <;> exact ⟨t, rfl, by simp [tryPut, note, land, putSidecar],
        by simp [tryPut, note, land, putSidecar]⟩
    | raise landed => cases h

theorem getOne_keeps (key : String) : Keeps V ops s (s.getOne ops key).2 := by
  intro w hw h
  simp only [getOne]
  cases hk : s.specs.get? key with
  | some spec => exact h
  | none =>
    simp only
    split
    · exact h
    · split
      · exact h
      · obtain ⟨u, hu, hs, ht⟩ := h
        refine ⟨u, hu, ?_, ht⟩
        rw [Dict.get?_set, if_neg, hs]
        intro he
        rw [he, hk] at hs
        cases hs

theorem getLayer_keeps (b : BlobHandle) (layer : Nat) :
    Keeps V ops s (s.getLayer ops b layer).2 := by
  intro w hw h
  have h1 := getOne_keeps (layerKey b.locator layer ++ ":k") w hw h
  simp only [getLayer]
  split
  · rename_i he
    rw [he] at h1
    exact h1
  · rename_i s1 he
    rw [he] at h1
    have h2 := getOne_keeps (layerKey b.locator layer ++ ":v") w hw h1
    split <;> (rename_i he2; rw [he2] at h2; exact h2)
  · rename_i s1 he
    rw [he] at h1
    have h2 := getOne_keeps (layerKey b.locator layer) w hw h1
    split <;> (rename_i he2; rw [he2] at h2; exact h2)

theorem getOne_has (hops : ops.Lawful) {key : String} {t : τ} (h : Has ops s (key, some t)) :
    s.getOne ops key = (.ok (some t), s) := by
  obtain ⟨u, hu, hs, ht⟩ := h
  cases hu
  simp only [getOne, hs, view, ht, hops t]
  rfl

/-- A blob whose puts have all landed reads back layer by layer. -/
theorem getLayer_has (hops : ops.Lawful) {k : Bytes} (h : ∀ w ∈ V.blob k, Has ops s w)
    {b : BlobHandle} (hb : b.locator = kvLocator k) {i : Nat} {p : τ × τ}
    (hp : (V.payloadOf k)[i]? = some p) :
    s.getLayer ops b i = (.ok (.pair (some p.1) (some p.2)), s) := by
  have hk : Has ops s (partKey k i 'k', some p.1) :=
    h _ (mem_payloadWrites.mpr ⟨i, p, hp, Or.inl (by rw [Nat.zero_add])⟩)
  have hv : Has ops s (partKey k i 'v', some p.2) :=
    h _ (mem_payloadWrites.mpr ⟨i, p, hp, Or.inr (by rw [Nat.zero_add])⟩)
  have hk := getOne_has hops hk
  have hv := getOne_has hops hv
  simp only [partKey, show String.ofList [':', 'k'] = ":k" from rfl,
    show String.ofList [':', 'v'] = ":v" from rfl] at hk hv
  simp only [getLayer, hb, hk, hv]

end CacheSeek.Proofs.StoreContents
