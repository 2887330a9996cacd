import CacheSeek.Proofs.StoreKeys
import CacheSeek.Prefix.Holdings

namespace CacheSeek.Proofs.StoreLaws
open CacheSeek.Lib CacheSeek.Prefix CacheSeek.Prefix.NamespaceForest CacheSeek.Stores
open CacheSeek.Proofs.StoreKeys

variable {σ T L : Type}

/-- The payload can be read back layer by layer under the key's locator. -/
def HasBlob {P : Type} (S : KVTierStore σ P L) (s : σ) (k : Bytes) (payload : List P) : Prop :=
  ∀ b : BlobHandle, b.locator = kvLocator k → ∀ l p, payload[l]? = some p →
    (S.getLayer s b l).1 = .ok p

def HasLatent {P : Type} (S : KVTierStore σ P L) (s : σ) (k : Bytes) (latent : L) : Prop :=
  (S.getSkeleton s (latentLocator k)).1 = .ok (some latent)

structure Retains {P : Type} (S : KVTierStore σ P L) (s s' : σ) : Prop where
  blob : ∀ {k payload}, HasBlob S s k payload → HasBlob S s' k payload
  latent : ∀ {k latent}, HasLatent S s k latent → HasLatent S s' k latent

theorem Retains.refl {P : Type} (S : KVTierStore σ P L) (s : σ) : Retains S s s := ⟨id, id⟩

theorem Retains.trans {P : Type} {S : KVTierStore σ P L} {s s' s'' : σ} (h : Retains S s s')
    (h' : Retains S s' s'') : Retains S s s'' := ⟨fun hb => h'.blob (h.blob hb), fun hl => h'.latent (h.latent hl)⟩

/-- A payload of key and value pairs, as the binding makes them. -/
def Paired (payload : List (LayerValue T)) : Prop :=
  ∀ p ∈ payload, ∃ k v, p = .pair (some k) (some v)

/-- A store that has what was put when the put returns, until the same locator is put
again or freed. -/
structure KeepsPuts (S : KVTierStore σ (LayerValue T) L) : Prop where
  put : ∀ s k {payload} h, Paired payload →
    (S.putAsync s (kvLocator k) payload h).1 = .published ∧
      HasBlob S (S.putAsync s (kvLocator k) payload h).2 k payload
  putBlob : ∀ s k {payload} h, Paired payload → ∀ {k' q}, k' ≠ k → HasBlob S s k' q →
    HasBlob S (S.putAsync s (kvLocator k) payload h).2 k' q
  putLatent : ∀ s k {payload} h, Paired payload → ∀ {k' l}, HasLatent S s k' l →
    HasLatent S (S.putAsync s (kvLocator k) payload h).2 k' l
  skeleton : ∀ s k l, (S.putSkeleton s (latentLocator k) l).1 = .ok () ∧
    HasLatent S (S.putSkeleton s (latentLocator k) l).2 k l
  skeletonBlob : ∀ s k l {k' q}, HasBlob S s k' q →
    HasBlob S (S.putSkeleton s (latentLocator k) l).2 k' q
  skeletonLatent : ∀ s k l {k' l'}, k' ≠ k → HasLatent S s k' l' →
    HasLatent S (S.putSkeleton s (latentLocator k) l).2 k' l'
  getLayer : ∀ s b i, Retains S s (S.getLayer s b i).2
  getSkeleton : ∀ s loc, Retains S s (S.getSkeleton s loc).2
  freeBlob : ∀ s b {k q}, b.locator ≠ kvLocator k → HasBlob S s k q → HasBlob S (S.free s b) k q
  freeLatent : ∀ s b {k l}, HasLatent S s k l → HasLatent S (S.free s b) k l

theorem inMemory_hasBlob {s : InMemoryTier (LayerValue T) L} {k : Bytes}
    {payload : List (LayerValue T)} (h : s.blobs.get? (kvLocator k) = some payload) :
    HasBlob (inMemoryTierStore (LayerValue T) L) s k payload := by
  intro b hb l p hp
  simp only [inMemoryTierStore, hb, h, hp]

theorem hasBlob_congr {s s' : InMemoryTier (LayerValue T) L} {k : Bytes}
    (hs : s'.blobs.get? (kvLocator k) = s.blobs.get? (kvLocator k)) {q : List (LayerValue T)}
    (h : HasBlob (inMemoryTierStore (LayerValue T) L) s k q) :
    HasBlob (inMemoryTierStore (LayerValue T) L) s' k q := by
  intro b hb l p hp
  rw [← h b hb l p hp]
  simp only [inMemoryTierStore, hb, hs]
  cases s.blobs.get? (kvLocator k) with
  | none => rfl
  | some payload =>
    cases hl : payload[l]? with
    | none => simp only [hl]
    | some x => simp only [hl]

theorem inMemory_getLayer (s : InMemoryTier (LayerValue T) L) (b : BlobHandle) (i : Nat) :
    ((inMemoryTierStore (LayerValue T) L).getLayer s b i).2 = s := by
  simp only [inMemoryTierStore]
  cases s.blobs.get? b.locator with
  | none => rfl
  | some payload =>
    cases hi : payload[i]? with
    | none => simp only [hi]
    | some x => simp only [hi]

theorem inMemory_keepsPuts (T L : Type) : KeepsPuts (inMemoryTierStore (LayerValue T) L) where
  put s k payload h _ := ⟨rfl, inMemory_hasBlob (Dict.get?_set_self _ _ _)⟩
  putBlob s k payload h _ k' q hne hb :=
    hasBlob_congr (Dict.get?_set_ne _ _ fun he => hne (kvLocator_inj he)) hb
  putLatent s k payload h _ k' l hl := hl
  skeleton s k l := ⟨rfl, congrArg Except.ok (Dict.get?_set_self _ _ _)⟩
  skeletonBlob s k l k' q hb := by
    refine hasBlob_congr (s := s) ?_ hb
    rfl
  skeletonLatent s k l k' l' hne hl :=
    (congrArg Except.ok (Dict.get?_set_ne _ _ fun he => hne (latentLocator_inj he))).trans hl
  getLayer s b i := by
    rw [inMemory_getLayer]
    exact Retains.refl _ s
  getSkeleton s loc := Retains.refl _ s
  freeBlob s b k q hne hb := by
    refine hasBlob_congr ?_ hb
    simp only [inMemoryTierStore, Dict.get?_erase, if_neg (Ne.symm hne)]
  freeLatent s b k l hl := hl

section
variable {S : KVTierStore σ (LayerValue T) L}

/-- Over such a store `ingest` fills the committed node, and the store has the chunk. -/
theorem KeepsPuts.ingest (hS : KeepsPuts S) (cfg : WorldKVConfig) (f : NamespaceForest) (s : σ)
    (a : IngestArgs (LayerValue T) L) (hp : Paired a.kvPayload) :
    ∃ s', ingest S cfg f s a =
        (.ok (f.commit a.parent a.action a.nodeKey a.depth).2,
          fill cfg (f.commit a.parent a.action a.nodeKey a.depth).1
            (f.commit a.parent a.action a.nodeKey a.depth).2 a, s') ∧
      HasBlob S s' a.nodeKey a.kvPayload ∧ HasLatent S s' a.nodeKey a.latent ∧
      (∀ {k q}, k ≠ a.nodeKey → HasBlob S s k q → HasBlob S s' k q) ∧
      (∀ {k l}, k ≠ a.nodeKey → HasLatent S s k l → HasLatent S s' k l) := by
  simp only [Prefix.ingest]
  generalize f.commit a.parent a.action a.nodeKey a.depth = c
  obtain ⟨hok, hlat⟩ := hS.skeleton s a.nodeKey a.latent
  have hsb : ∀ {k q}, HasBlob S s k q → HasBlob S _ k q := hS.skeletonBlob s a.nodeKey a.latent
  have hsl : ∀ {k l}, k ≠ a.nodeKey → HasLatent S s k l → HasLatent S _ k l :=
    hS.skeletonLatent s a.nodeKey a.latent
  generalize S.putSkeleton s (latentLocator a.nodeKey) a.latent = x at *
  obtain ⟨_, s1⟩ := x
  simp only at hok
  subst hok
  have hsize : (((c.1.pinSink cfg c.2 a.depth).setSkeleton c.2 a.nodeKey).attachBlob c.2
      (a.newHandle cfg)).2 = c.1.handles.size := by
    simp only [attachBlob, setSkeleton, modifyNode_handles, pinSink_handles]
  obtain ⟨hpub, hblob⟩ := hS.put s1 a.nodeKey c.1.handles.size hp
  have hpb : ∀ {k q}, k ≠ a.nodeKey → HasBlob S s1 k q → HasBlob S _ k q :=
    hS.putBlob s1 a.nodeKey c.1.handles.size hp
  have hpl : ∀ {k l}, HasLatent S s1 k l → HasLatent S _ k l :=
    hS.putLatent s1 a.nodeKey c.1.handles.size hp
  simp only [hsize]
  generalize S.putAsync s1 (kvLocator a.nodeKey) a.kvPayload c.1.handles.size = y at *
  obtain ⟨_, s2⟩ := y
  simp only at hpub
  subst hpub
  exact ⟨s2, rfl, hblob, hpl hlat, fun hne hb => hpb hne (hsb hb), fun hne hl => hpl (hsl hne hl)⟩

end

end CacheSeek.Proofs.StoreLaws
