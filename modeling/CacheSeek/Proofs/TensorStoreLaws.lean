import CacheSeek.Proofs.LastPayload
import CacheSeek.Proofs.StoreLaws

namespace CacheSeek.Proofs.TensorStoreLaws
open CacheSeek.Lib CacheSeek.Prefix CacheSeek.Prefix.NamespaceForest CacheSeek.Stores
open CacheSeek.Proofs.StoreSlots CacheSeek.Proofs.LastPayload CacheSeek.Proofs.StoreLaws

variable {β τ : Type} {B : TensorStore β τ} {spec : τ → TensorSpec} {s s' : TensorStoreTier β}

def reads (B : TensorStore β τ) (s : TensorStoreTier β) (key : String) : Except PyError (Option τ) :=
  (s.getOne B key).1

def readUnder (B : TensorStore β τ) (ts : β) (key : String) : Option TensorSpec → Except PyError (Option τ)
  | some sp => B.getTensor ts key sp
  | none =>
    match B.get ts (key ++ ":spec") with
    | none => .ok none
    | some raw =>
      match TensorSpec.ofText raw with
      | .error e => .error e
      | .ok sp => B.getTensor ts key sp

theorem reads_under (s : TensorStoreTier β) (key : String) :
    reads B s key = readUnder B s.ts key (s.specs.get? key) := by
  unfold reads TensorStoreTier.getOne readUnder
  cases s.specs.get? key with
  | some sp => rfl
  | none =>
    cases B.get s.ts (key ++ ":spec") with
    | none => rfl
    | some raw =>
      dsimp only
      cases TensorSpec.ofText raw <;> rfl

/-- A read notes the spec that the next one would find. -/
theorem getOne_reads (s : TensorStoreTier β) (key key' : String) :
    reads B (s.getOne B key).2 key' = reads B s key' := by
  cases hsp : s.specs.get? key with
  | some sp => simp only [TensorStoreTier.getOne, hsp]
  | none =>
    cases hraw : B.get s.ts (key ++ ":spec") with
    | none => simp only [TensorStoreTier.getOne, hsp, hraw]
    | some raw =>
      cases hof : TensorSpec.ofText raw with
      | error e => simp only [TensorStoreTier.getOne, hsp, hraw, hof]
      | ok sp =>
        simp only [TensorStoreTier.getOne, hsp, hraw, hof, reads_under]
        by_cases he : key' = key
        · simp only [he, Dict.get?_set_self, hsp, readUnder, hraw, hof]
        · simp only [Dict.get?_set_ne _ _ he]

/-- What `get_layer` makes of the answers for a pair and for one tensor. -/
def layerAnswer (k v whole : Except PyError (Option τ)) : Except PyError (LayerValue τ) :=
  match k with
  | .error e => .error e
  | .ok (some k) =>
    match v with
    | .error e => .error e
    | .ok v => .ok (.pair (some k) v)
  | .ok none =>
    match whole with
    | .error e => .error e
    | .ok none => .ok .miss
    | .ok (some t) => .ok (.single t)

theorem getLayer_reads (s : TensorStoreTier β) (b : BlobHandle) (i : Nat) :
    (s.getLayer B b i).1 = layerAnswer (reads B s (TensorTier.layerKey b.locator i ++ ":k"))
        (reads B s (TensorTier.layerKey b.locator i ++ ":v")) (reads B s (TensorTier.layerKey b.locator i)) ∧
      ∀ key, reads B (s.getLayer B b i).2 key = reads B s key := by
  have hnext := fun key' => getOne_reads (B := B) s (TensorTier.layerKey b.locator i ++ ":k") key'
  have hv := hnext (TensorTier.layerKey b.locator i ++ ":v")
  have hw := hnext (TensorTier.layerKey b.locator i)
  simp only [TensorStoreTier.getLayer]
  rw [← hv, ← hw]
  simp only [reads] at hnext ⊢
  generalize s.getOne B (TensorTier.layerKey b.locator i ++ ":k") = x at hnext ⊢
  obtain ⟨k, s1⟩ := x
  cases k with
  | error e => exact ⟨rfl, hnext⟩
  | ok k =>
    cases k with
    | some k =>
      have hlast := fun key' => getOne_reads (B := B) s1 (TensorTier.layerKey b.locator i ++ ":v") key'
      simp only [reads] at hlast
      dsimp only
      generalize s1.getOne B (TensorTier.layerKey b.locator i ++ ":v") = y at hlast ⊢
      obtain ⟨v, s2⟩ := y
      cases v with
      | error e => exact ⟨rfl, fun key => (hlast key).trans (hnext key)⟩
      | ok v => exact ⟨rfl, fun key => (hlast key).trans (hnext key)⟩
    | none =>
      have hlast := fun key' => getOne_reads (B := B) s1 (TensorTier.layerKey b.locator i) key'
      simp only [reads] at hlast
      dsimp only
      generalize s1.getOne B (TensorTier.layerKey b.locator i) = y at hlast ⊢
      obtain ⟨t, s2⟩ := y
      cases t with
      | error e => exact ⟨rfl, fun key => (hlast key).trans (hnext key)⟩
      | ok t => cases t <;> exact ⟨rfl, fun key => (hlast key).trans (hnext key)⟩

theorem slot_key (node : Bytes) (i : Nat) :
    (Slot.layer node i .k).key = TensorTier.layerKey (kvLocator node) i ++ ":k" ∧
      (Slot.layer node i .v).key = TensorTier.layerKey (kvLocator node) i ++ ":v" ∧
      (Slot.layer node i .whole).key = TensorTier.layerKey (kvLocator node) i :=
  ⟨rfl, rfl, Slot.key_whole node i⟩

/-- A layer of a node is read from its slots. -/
theorem getLayer_slots {node : Bytes} {b : BlobHandle} (hb : b.locator = kvLocator node) (i : Nat) :
    ((tensorStoreOver B spec).getLayer s b i).1 = layerAnswer (reads B s (Slot.layer node i .k).key)
      (reads B s (Slot.layer node i .v).key) (reads B s (Slot.layer node i .whole).key) := by
  obtain ⟨hk, hv, hw⟩ := slot_key node i
  rw [hk, hv, hw, ← hb]
  exact (getLayer_reads s b i).1

theorem hasBlob_reads {node : Bytes} {payload : List (LayerValue τ)}
    (h : ∀ i part, reads B s' (Slot.layer node i part).key = reads B s (Slot.layer node i part).key)
    (hb : HasBlob (tensorStoreOver B spec) s node payload) : HasBlob (tensorStoreOver B spec) s' node payload := by
  intro b hloc i p hp
  rw [getLayer_slots hloc, h, h, h, ← getLayer_slots hloc]
  exact hb b hloc i p hp

theorem hasLatent_iff {node : Bytes} {latent : τ} :
    HasLatent (tensorStoreOver B spec) s node latent ↔ reads B s (Slot.latent node).key = .ok (some latent) :=
  Iff.rfl

theorem retains_reads (h : ∀ key, reads B s' key = reads B s key) : Retains (tensorStoreOver B spec) s s' where
  blob hb := hasBlob_reads (fun _ _ => h _) hb
  latent hl := hasLatent_iff.mpr ((h _).trans (hasLatent_iff.mp hl))

variable (hB : B.Correct spec)
include hB

theorem putOne_self (s : TensorStoreTier β) (a : Slot) (t : τ) :
    reads B (s.putOne B spec a.key (some t)).2 a.key = .ok (some t) := by
  simp only [reads, TensorStoreTier.putOne, TensorStoreTier.getOne, Dict.get?_set_self]
  rw [hB.getTensor_put _ _ _ _ _ (Slot.key_ne_spec a a), hB.getTensor_self]

theorem putOne_other (s : TensorStoreTier β) {a b : Slot} (h : b ≠ a) (t : τ) :
    reads B (s.putOne B spec a.key (some t)).2 b.key = reads B s b.key := by
  have hkey : b.key ≠ a.key := fun he => h (Slot.key_injective he)
  have htensor : ∀ sp, B.getTensor (B.put (B.putTensor s.ts a.key t) (a.key ++ ":spec") (spec t).toText) b.key sp =
      B.getTensor s.ts b.key sp := fun sp => by
    rw [hB.getTensor_put _ _ _ _ _ (Slot.key_ne_spec b a), hB.getTensor_other _ _ _ _ _ hkey]
  have hraw : B.get (B.put (B.putTensor s.ts a.key t) (a.key ++ ":spec") (spec t).toText) (b.key ++ ":spec") =
      B.get s.ts (b.key ++ ":spec") := by
    rw [hB.get_other _ _ _ _ (spec_key_ne h), hB.get_putTensor _ _ _ _ (Slot.key_ne_spec a b).symm]
  simp only [reads_under, TensorStoreTier.putOne, Dict.get?_set_ne _ _ hkey]
  cases s.specs.get? b.key with
  | some sp => exact htensor sp
  | none => simp only [readUnder, hraw, htensor]

/-- A payload of pairs is at its layers, and no other slot has changed. -/
theorem putAll_reads {payload : List (LayerValue τ)} (hp : Paired payload) (s : TensorStoreTier β) (node : Bytes)
    (n : Nat) : ∃ s', s.putAll B spec (TensorTier.payloadWrites (kvLocator node) n payload) = (.ok (), s') ∧
      (∀ b : Slot, (∀ i part, n ≤ i → b ≠ .layer node i part) → reads B s' b.key = reads B s b.key) ∧
      ∀ i k v, payload[i]? = some (.pair (some k) (some v)) →
        reads B s' (Slot.layer node (n + i) .k).key = .ok (some k) ∧
          reads B s' (Slot.layer node (n + i) .v).key = .ok (some v) := by
  induction payload generalizing s n with
  | nil =>
    refine ⟨s, rfl, fun _ _ => rfl, ?_⟩
    intro i k v hi
    simp at hi
  | cons p payload ih =>
    obtain ⟨k, v, hpair⟩ := hp p (by simp)
    have hk := putOne_self hB s (.layer node n .k) k
    have hko := fun b hb => putOne_other hB s (a := .layer node n .k) (b := b) hb k
    generalize hs1 : (s.putOne B spec (Slot.layer node n .k).key (some k)).2 = s1 at hk hko
    have hv := putOne_self hB s1 (.layer node n .v) v
    have hvo := fun b hb => putOne_other hB s1 (a := .layer node n .v) (b := b) hb v
    generalize hs2 : (s1.putOne B spec (Slot.layer node n .v).key (some v)).2 = s2 at hv hvo
    obtain ⟨s', hput, hother, hhas⟩ := ih (fun q hq => hp q (by simp [hq])) s2 (n + 1)
    refine ⟨s', ?_, ?_, ?_⟩
    · rw [← hput, ← hs2, ← hs1, hpair]
      rfl
    · intro b hb
      rw [hother b fun i part hi => hb i part (by omega), hvo b (hb n .v (Nat.le_refl n)),
        hko b (hb n .k (Nat.le_refl n))]
    · intro i k' v' hi
      cases i with
      | zero =>
        rw [List.getElem?_cons_zero, hpair] at hi
        cases hi
        have hkeep : ∀ part, reads B s' (Slot.layer node n part).key = reads B s2 (Slot.layer node n part).key := by
          intro part
          apply hother
          intro j q hj he
          cases he
          omega
        rw [Nat.add_zero, hkeep, hkeep, hv, hvo _ (by simp), hk]
        exact ⟨rfl, rfl⟩
      | succ i =>
        rw [List.getElem?_cons_succ] at hi
        rw [← Nat.add_assoc, Nat.add_right_comm]
        exact hhas i k' v' hi

theorem put_laws (s : TensorStoreTier β) (node : Bytes) {payload : List (LayerValue τ)} (h : HandleId)
    (hp : Paired payload) :
    ((tensorStoreOver B spec).putAsync s (kvLocator node) payload h).1 = .published ∧
      HasBlob (tensorStoreOver B spec) ((tensorStoreOver B spec).putAsync s (kvLocator node) payload h).2 node payload ∧
      ∀ b : Slot, (∀ i part, b ≠ .layer node i part) →
        reads B ((tensorStoreOver B spec).putAsync s (kvLocator node) payload h).2 b.key = reads B s b.key := by
  obtain ⟨s', hput, hother, hhas⟩ := putAll_reads hB hp s node 0
  have hstep : (tensorStoreOver B spec).putAsync s (kvLocator node) payload h = (.published, s') := by
    simp only [tensorStoreOver, hput]
  rw [hstep]
  refine ⟨rfl, ?_, fun b hb => hother b fun i part _ => hb i part⟩
  intro b hloc i p hi
  obtain ⟨k, v, rfl⟩ := hp p (List.mem_of_getElem? hi)
  obtain ⟨hk, hv⟩ := hhas i k v hi
  rw [Nat.zero_add] at hk hv
  rw [getLayer_slots hloc, hk, hv]
  rfl

/-- Over a correct tensor store, what was put stays until it is put again. -/
theorem tensorStoreOver_keepsPuts : KeepsPuts (tensorStoreOver B spec) where
  put s k payload h hp := ⟨(put_laws hB s k h hp).1, (put_laws hB s k h hp).2.1⟩
  putBlob s k payload h hp k' q hne hb := by
    apply hasBlob_reads _ hb
    intro i part
    apply (put_laws hB s k h hp).2.2
    intro j q he
    cases he
    exact hne rfl
  putLatent s k payload h hp k' l hl := by
    rw [hasLatent_iff] at hl ⊢
    rw [← hl]
    apply (put_laws hB s k h hp).2.2
    simp
  skeleton s k l := ⟨rfl, putOne_self hB s (.latent k) l⟩
  skeletonBlob s k l k' q hb := hasBlob_reads (fun i part => putOne_other hB s (a := .latent k) (by simp) l) hb
  skeletonLatent s k l k' l' hne hl := by
    rw [hasLatent_iff] at hl ⊢
    rw [← hl]
    exact putOne_other hB s (a := .latent k) (by simpa using hne) l
  getLayer s b i := retains_reads (getLayer_reads s b i).2
  getSkeleton s loc := retains_reads fun key => getOne_reads s loc key
  freeBlob s b k q _ hb := hb
  freeLatent s b k l hl := hl

end CacheSeek.Proofs.TensorStoreLaws
