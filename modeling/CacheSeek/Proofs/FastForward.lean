import CacheSeek.Proofs.Materialize
import CacheSeek.Proofs.ResumeComplete
import CacheSeek.Proofs.SharedForest

namespace CacheSeek.Proofs.FastForward
open CacheSeek.Lib CacheSeek.Prefix CacheSeek.Prefix.NamespaceForest CacheSeek.Prefix.RingKVWindow
open CacheSeek.Stores CacheSeek.Proofs.ColdRun CacheSeek.Proofs.Materialize CacheSeek.Proofs.RingLayout
open CacheSeek.Proofs.Seeding CacheSeek.Proofs.SharedForest CacheSeek.Proofs.SnapshotLoad
open CacheSeek.Proofs.StoreLaws CacheSeek.Proofs.WindowPath CacheSeek.Proofs.Worlds

variable {σ N C T L ρ β : Type} {digest : Bytes → Bytes} {S : KVTierStore σ (LayerValue T) L}
  {torch : Torch N C ρ} {dim : TensorDim T β} {E : Engine N C L ρ β} {geo : Geometry}
  {bufFrames : Nat}

/-- Cutting a tensor along its tokens and reading the columns again loses nothing. -/
def TensorDim.Lawful (dim : TensorDim T β) : Prop := ∀ xs, dim.columns (dim.ofColumns xs) = xs

theorem le_ceilDiv_mul {a b : Nat} (hb : 0 < b) : a ≤ ceilDiv a b * b := by
  have := Nat.lt_div_mul_add hb (a := a + b - 1)
  unfold ceilDiv
  omega

/-- The manager gathers every chunk of which the ring needs a frame. -/
theorem gathered_frames (h : Roomy geo bufFrames) (breakEvenK : Int) {K g : Nat}
    (hg : g ∈ physicalFrames geo bufFrames (K * geo.chunkSize)) :
    g / geo.chunkSize ∈
      gathered (makeRollingConfig bufFrames geo.kvSinkSize geo.chunkSize breakEvenK) K := by
  have hroom := h.room
  have hlt := mem_physicalFrames_lt (sink_le h) hg
  rw [mem_gathered]
  refine ⟨chunk_lt h.chunk hlt, ?_⟩
  simp only [makeRollingConfig]
  have hsink := le_ceilDiv_mul h.chunk (a := geo.kvSinkSize)
  have hwindow := le_ceilDiv_mul h.chunk (a := max (bufFrames - geo.kvSinkSize) 1)
  generalize ceilDiv geo.kvSinkSize geo.chunkSize = sink at *
  generalize ceilDiv (max (bufFrames - geo.kvSinkSize) 1) geo.chunkSize = window at *
  have hcases : g < geo.kvSinkSize ∨ K * geo.chunkSize ≤ window * geo.chunkSize + g := by
    unfold physicalFrames at hg
    split at hg
    · omega
    · rcases List.mem_append.mp hg with hg | hg
      · exact Or.inl (List.mem_range.mp hg)
      · have := List.mem_range'_1.mp hg
        omega
  rcases hcases with hs | hw
  · left
    have : g / geo.chunkSize < sink := (Nat.div_lt_iff_lt_mul h.chunk).mpr (Nat.lt_of_lt_of_le hs hsink)
    omega
  · right
    have hle : (K - window) * geo.chunkSize ≤ g := by
      rw [Nat.sub_mul]
      omega
    have := (Nat.le_div_iff_mul_le h.chunk).mpr hle
    omega

/-- The reads that a store which keeps what it has must answer. -/
theorem retains_steady (hS : KeepsPuts S) (s : σ) :
    Steady S (Retains S s)
      (fun b l p => ∃ k payload, b.locator = kvLocator k ∧ HasBlob S s k payload ∧ payload[l]? = some p)
      (fun loc l => ∃ k latent, loc = latentLocator k ∧ HasLatent S s k latent ∧ l = some latent) where
  layer := by
    rintro s' hs b l p ⟨k, payload, hk, hb, hp⟩
    exact hs.blob hb b hk l p hp
  skeleton := by
    rintro s' hs _ _ ⟨k, latent, rfl, hl, rfl⟩
    exact hs.latent hl
  afterLayer hs b l := hs.trans (hS.getLayer _ b l)
  afterSkeleton hs loc := hs.trans (hS.getSkeleton _ loc)

/-- Layer `l` of chunk `j` as the cold run has it. -/
def coldValue (torch : Torch N C ρ) (dim : TensorDim T β) (E : Engine N C L ρ β) (plan : SessionPlan C)
    (l j : Nat) : LayerValue T :=
  .pair (some (dim.ofColumns (coldWrite E torch plan l j).1))
    (some (dim.ofColumns (coldWrite E torch plan l j).2))

section
variable {f : NamespaceForest} {s : σ} {r : Bytes} {plan : SessionPlan C} {K : Nat} {n : NodeId}

theorem coldPayload_get {l : Nat} (hl : l < E.layers plan.keys) (j : Nat) :
    (coldPayload torch dim E plan j)[l]? = some (coldValue torch dim E plan l j) := by
  rw [coldPayload, List.getElem?_map, List.getElem?_range hl, Option.map_some]
  rfl

section
variable (hd : Hash digest) (hq : Quantized E torch digest)
  (h : Truthful digest S torch dim E f s)
  (hroot : sessionRootHash digest plan.session plan.modelFingerprint = some r)
include hd hq h hroot

/-- What a session finds along its own actions is its own cold run. -/
theorem truthful_own {j : Nat} (hj : j < (E.noiseChunks plan.keys).length)
    (hn : f.nodeAt r ((actionsOf E torch digest plan).take (j + 1)) = some n) (hkv : f.hasKv n = true) :
    ∃ b, (f.node n).blob = some b ∧ Cold S torch dim E f s n b plan j := by
  obtain ⟨b, hb, _⟩ := hasKv_iff.mp hkv
  obtain ⟨plan', i, hl, h1, h2, h3, h4, l, h5, h6⟩ := h.chunk hn hb
  obtain ⟨rfl, hkeys, hstep⟩ := hl.agree hd hq ⟨hroot, hj, rfl⟩
  refine ⟨b, hb, h1, h2.trans (congrArg (fun κ => (E.layers κ : Int)) hkeys), ?_, h4, l, ?_, h6⟩
  · have hpay : coldPayload torch dim E plan' i = coldPayload torch dim E plan i := by
      simp only [coldPayload, coldWrite, hkeys, hstep]
    rwa [← hpay]
  · rw [coldLatent, ← hstep]
    exact h5

variable (hdim : TensorDim.Lawful dim)
  (hK : K ≤ (E.noiseChunks plan.keys).length)
  (hn : f.nodeAt r ((actionsOf E torch digest plan).take K) = some n)
  (hkv : ∀ j < K, f.hasKv (chunkNode f r ((actionsOf E torch digest plan).take K) j) = true)
include hK hn hkv

theorem truthful_chunk {j : Nat} (hj : j < K) :
    ∃ b, chunkHandle f r ((actionsOf E torch digest plan).take K) j = f.handle b ∧
      Cold S torch dim E f s (chunkNode f r ((actionsOf E torch digest plan).take K) j) b plan j := by
  have hnode := nodeAt_chunkNode hn j
  rw [List.take_take, Nat.min_eq_left hj] at hnode
  obtain ⟨b, hb, hc⟩ := truthful_own hd hq h hroot (Nat.lt_of_lt_of_le hj hK) hnode (hkv j hj)
  exact ⟨b, by rw [chunkHandle, hb, Option.getD_some], hc⟩

include hdim

theorem truthful_stocked :
    Stocked (E.geo plan.keys) dim
      (fun b l p => ∃ k payload, b.locator = kvLocator k ∧ HasBlob S s k payload ∧ payload[l]? = some p)
      f r ((actionsOf E torch digest plan).take K) (E.layers plan.keys) (coldValue torch dim E plan) := by
  have hlen : ((actionsOf E torch digest plan).take K).length = K := by
    rw [List.length_take, actionsOf_length, Nat.min_eq_left hK]
  refine ⟨?_, ?_, ?_, ?_⟩ <;> rw [hlen]
  · exact hkv
  · intro j hj
    obtain ⟨b, hb, hc⟩ := truthful_chunk hd hq h hroot hK hn hkv hj
    rw [hb, hc.layers]
  · intro l hl j hj
    obtain ⟨b, hb, hc⟩ := truthful_chunk hd hq h hroot hK hn hkv hj
    rw [hb]
    exact ⟨_, _, hc.locator, hc.blob, coldPayload_get hl j⟩
  · intro l hl j hj k v he
    cases he
    rw [hdim, hdim]
    exact coldWrite_length hl (Nat.lt_of_lt_of_le hj hK)

end

end

section
variable {plan : SessionPlan C} {K : Nat}

theorem createRuntime_rings (plan : SessionPlan C) :
    Rings (E.geo plan.keys) (E.bufFrames plan.keys) (E.createRuntime plan).selfKvCache := by
  have hr := E.roomy plan.keys
  refine ⟨hr.chunk, hr.tokens, sink_le hr, ?_, ?_⟩
  all_goals
    intro kv hkv
    rw [Engine.createRuntime, List.mem_replicate] at hkv
    rw [hkv.2, List.length_replicate]

theorem resumed_holds (hdim : TensorDim.Lawful dim) {l : Nat} {kv kv' : KvCache β}
    (hk : kv.k.length = E.bufFrames plan.keys * (E.geo plan.keys).frameTokens)
    (hv : kv.v.length = E.bufFrames plan.keys * (E.geo plan.keys).frameTokens)
    (h : Resumed (E.geo plan.keys) (E.bufFrames plan.keys) K (coldValue torch dim E plan l) dim kv kv') :
    RingHolds (E.geo plan.keys) (E.bufFrames plan.keys) K (fun j => (coldWrite E torch plan l j).1)
      (fun j => (coldWrite E torch plan l j).2) kv' := by
  have hlocal := h.localEnd
  rw [length_physicalFrames (sink_le (E.roomy plan.keys))] at hlocal
  have hvk := h.k
  have hvv := h.v
  rw [hlocal] at hvk hvv
  simp only [keysOf, valuesOf, coldValue, hdim _] at hvk hvv
  exact ⟨⟨h.lengthK.trans hk, hvk⟩, ⟨h.lengthV.trans hv, hvv⟩, h.globalEnd, hlocal⟩

theorem burnSkipped_append (noise : List N) (draws : Nat) (g : ρ) (is js : List Nat) :
    burnSkipped torch noise draws g (is ++ js) =
      match burnSkipped torch noise draws g is with
      | (.error e, g) => (.error e, g)
      | (.ok _, g) => burnSkipped torch noise draws g js := by
  induction is generalizing g with
  | nil => rfl
  | cons i is ih =>
    rw [List.cons_append, burnSkipped, burnSkipped]
    cases noise[i]? with
    | none => rfl
    | some x => exact ih _

/-- Burning the draws of the skipped chunks brings the generator to where the cold run has it. -/
theorem burnSkipped_cold (hK : K ≤ (E.noiseChunks plan.keys).length) :
    burnSkipped torch (E.createRuntime plan).noiseChunks ((E.createRuntime plan).timesteps - 1)
      (E.createRuntime plan).generator (List.range K) = (.ok (), (E.coldRun torch plan K).generator) := by
  induction K with
  | zero => rfl
  | succ i ih =>
    obtain ⟨x, hx⟩ : ∃ x, (E.noiseChunks plan.keys)[i]? = some x := ⟨_, List.getElem?_eq_getElem hK⟩
    have hx' : (E.createRuntime plan).noiseChunks[i]? = some x := hx
    rw [List.range_succ, burnSkipped_append, ih (Nat.le_of_lt hK)]
    simp only [burnSkipped, hx', Engine.coldRun, hx]
    rfl

end

end CacheSeek.Proofs.FastForward
