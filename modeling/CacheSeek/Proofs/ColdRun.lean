import CacheSeek.Prefix.Pipeline
import CacheSeek.Proofs.Seeding

namespace CacheSeek.Proofs.ColdRun
open CacheSeek.Lib CacheSeek.Prefix CacheSeek.Prefix.RingKVWindow CacheSeek.Stores
open CacheSeek.Proofs.RingLayout CacheSeek.Proofs.Seeding

variable {N C T L ρ β : Type} {geo : Geometry} {bufFrames K : Nat}

section

/-- The newest chunk's columns are the last ones below the fill. -/
theorem tail_eq (hr : Roomy geo bufFrames) {x : Nat → List β} {buf : List β}
    (hx : ∀ j < K + 1, (x j).length = geo.chunkTokens) (h : Filled geo bufFrames (K + 1) x buf) :
    pySlice buf ((min ((K + 1) * geo.chunkSize) bufFrames * geo.frameTokens : Nat) -
      (geo.chunkTokens : Int)) (min ((K + 1) * geo.chunkSize) bufFrames * geo.frameTokens : Nat) =
      x K := by
  have hroom := hr.room
  obtain ⟨fs, hframes, hlen, hall⟩ := physicalFrames_tail hr (K * geo.chunkSize)
  rw [← Nat.add_one_mul] at hframes hlen
  have hge : geo.chunkSize ≤ min ((K + 1) * geo.chunkSize) bufFrames := by
    rw [Nat.add_one_mul]
    omega
  obtain ⟨e, he⟩ := Nat.exists_eq_add_of_le hge
  have hfs : fs.length = e := by omega
  have hblocks : (fs.flatMap (frameOf geo x)).length = e * geo.frameTokens := by
    rw [length_flatMap_blocks, hfs]
    intro g hg
    exact length_frameOf hr.chunk (hx _ (Nat.lt_succ_of_lt (chunk_lt hr.chunk (hall g hg))))
  have hstart : ((min ((K + 1) * geo.chunkSize) bufFrames * geo.frameTokens : Nat) : Int) -
      (geo.chunkTokens : Int) = (e * geo.frameTokens : Nat) := by
    rw [he, Nat.add_mul, Geometry.chunkTokens]
    omega
  have hvis := h.visible
  rw [hframes, List.flatMap_append, chunk_frames hr.chunk (hx K (Nat.lt_succ_self K))] at hvis
  rw [hstart, pySlice, if_neg (by omega), Int.toNat_natCast, Int.toNat_natCast, hvis, ← hblocks,
    List.drop_left]

end

variable (E : Engine N C L ρ β)

def lastWrite (ws : List (List β × List β)) : List β × List β := ws.getLastD ([], [])

section
variable {E} {κ : KeyFields} {ck cv : Nat → List β} {kv : KvCache β} {ws : List (List β × List β)}

theorem update_length {x : Nat → List β} {n : Nat} {a : List β} (hx : ∀ j < K, (x j).length = n)
    (ha : a.length = n) : ∀ j < K + 1, (Function.update x K a j).length = n := by
  intro j hj
  by_cases h : j = K
  · rw [h, Function.update_self, ha]
  · rw [Function.update_of_ne h]
    exact hx j (by omega)

theorem rewrites_hold
    (hck : ∀ j < K, (ck j).length = (E.geo κ).chunkTokens)
    (hcv : ∀ j < K, (cv j).length = (E.geo κ).chunkTokens) {a : List β × List β}
    (ha : a.1.length = (E.geo κ).chunkTokens ∧ a.2.length = (E.geo κ).chunkTokens)
    (hws : ∀ w ∈ ws, w.1.length = (E.geo κ).chunkTokens ∧ w.2.length = (E.geo κ).chunkTokens)
    (h : RingHolds (E.geo κ) (E.bufFrames κ) (K + 1) (Function.update ck K a.1)
      (Function.update cv K a.2) kv) :
    RingHolds (E.geo κ) (E.bufFrames κ) (K + 1) (Function.update ck K (ws.getLastD a).1)
      (Function.update cv K (ws.getLastD a).2) (E.writeChunk κ K kv ws) := by
  induction ws generalizing a kv with
  | nil => exact h
  | cons w ws ih =>
    have hw := hws w List.mem_cons_self
    have hstep := h.rewrite (E.roomy κ) (update_length hck ha.1) (update_length hcv ha.2) hw.1 hw.2
    rw [Function.update_idem, Function.update_idem] at hstep
    rw [List.getLastD_cons]
    exact ih hw (fun w' hw' => hws w' (List.mem_cons_of_mem w hw')) hstep

theorem writeChunk_holds
    (hck : ∀ j < K, (ck j).length = (E.geo κ).chunkTokens)
    (hcv : ∀ j < K, (cv j).length = (E.geo κ).chunkTokens) (hne : ws ≠ [])
    (hws : ∀ w ∈ ws, w.1.length = (E.geo κ).chunkTokens ∧ w.2.length = (E.geo κ).chunkTokens)
    (h : RingHolds (E.geo κ) (E.bufFrames κ) K ck cv kv) :
    RingHolds (E.geo κ) (E.bufFrames κ) (K + 1) (Function.update ck K (lastWrite ws).1)
      (Function.update cv K (lastWrite ws).2) (E.writeChunk κ K kv ws) := by
  cases ws with
  | nil => exact absurd rfl hne
  | cons w ws =>
    have hw := hws w List.mem_cons_self
    rw [lastWrite, List.getLastD_cons]
    exact rewrites_hold hck hcv hw (fun w' hw' => hws w' (List.mem_cons_of_mem w hw'))
      (h.write (E.roomy κ) hck hcv hw.1 hw.2)

/-- A chunk written at all has a last write. -/
theorem lastWrite_mem (hne : ws ≠ []) : lastWrite ws ∈ ws := by
  rw [lastWrite, List.getLastD_eq_getLast?, List.getLast?_eq_some_getLast hne, Option.getD_some]
  exact List.getLast_mem hne

end

variable (torch : Torch N C ρ) (plan : SessionPlan C)

/-- The step that the cold run takes for chunk `i`. -/
def coldStep (i : Nat) : Option (L × List (List (List β × List β))) :=
  (E.noiseChunks plan.keys)[i]?.map fun x =>
    E.step plan.keys i x ((E.createRuntime plan).control i) (E.coldRun torch plan i).generator
      ((E.coldRun torch plan i).rings.map KvCache.visible)

def coldLatent (i : Nat) : Option L := (coldStep E torch plan i).map Prod.fst

def coldWrite (l i : Nat) : List β × List β :=
  match coldStep E torch plan i with
  | none => ([], [])
  | some step => lastWrite (step.2.getD l [])

/-- A run that is at chunk `i` as the cold run is. -/
structure InStep (i : Nat) (rings : List (KvCache β)) (g : ρ) : Prop where
  count : rings.length = E.layers plan.keys
  ring : ∀ l kv, rings[l]? = some kv → RingHolds (E.geo plan.keys) (E.bufFrames plan.keys) i
    (fun j => (coldWrite E torch plan l j).1) (fun j => (coldWrite E torch plan l j).2) kv
  generator : g = (E.coldRun torch plan i).generator

section
variable {E torch plan} {i : Nat} {x : N} {rings rings' : List (KvCache β)} {g g' : ρ}

theorem coldWrite_length {l j : Nat} (hl : l < E.layers plan.keys)
    (hj : j < (E.noiseChunks plan.keys).length) :
    (coldWrite E torch plan l j).1.length = (E.geo plan.keys).chunkTokens ∧
      (coldWrite E torch plan l j).2.length = (E.geo plan.keys).chunkTokens := by
  obtain ⟨x, hx⟩ : ∃ x, (E.noiseChunks plan.keys)[j]? = some x := ⟨_, List.getElem?_eq_getElem hj⟩
  simp only [coldWrite, coldStep, hx, Option.map_some]
  generalize (E.coldRun torch plan j).generator = g
  generalize (E.coldRun torch plan j).rings.map KvCache.visible = views
  have hcount := E.count plan.keys j x ((E.createRuntime plan).control j) g views
  have hws := E.writes plan.keys j x ((E.createRuntime plan).control j) g views
  rw [← hcount] at hl
  rw [List.getD_eq_getElem?_getD, List.getElem?_eq_getElem hl, Option.getD_some]
  obtain ⟨hne, hlen⟩ := hws _ (List.getElem_mem hl)
  exact hlen _ (lastWrite_mem hne)

/-- Two sessions in step at one chunk see the same window. -/
theorem InStep.visible_eq (h : InStep E torch plan i rings g) (h' : InStep E torch plan i rings' g') :
    rings.map KvCache.visible = rings'.map KvCache.visible ∧ g = g' := by
  refine ⟨?_, h.generator.trans h'.generator.symm⟩
  apply List.ext_getElem?
  intro l
  rw [List.getElem?_map, List.getElem?_map]
  by_cases hl : l < E.layers plan.keys
  · obtain ⟨kv, hkv⟩ : ∃ kv, rings[l]? = some kv := ⟨_, List.getElem?_eq_getElem (h.count ▸ hl)⟩
    obtain ⟨kv', hkv'⟩ : ∃ kv, rings'[l]? = some kv := ⟨_, List.getElem?_eq_getElem (h'.count ▸ hl)⟩
    rw [hkv, hkv', Option.map_some, Option.map_some, (h.ring l kv hkv).visible_eq (h'.ring l kv' hkv')]
  · rw [List.getElem?_eq_none (by have := h.count; omega),
      List.getElem?_eq_none (by have := h'.count; omega)]

/-- Denoising a chunk from the cold run's point of view leads to its next one. -/
theorem denoise_inStep (h : InStep E torch plan i rings g) (hx : (E.noiseChunks plan.keys)[i]? = some x)
    (hcold : rings.map KvCache.visible = (E.coldRun torch plan i).rings.map KvCache.visible) :
    ∃ latent rings' g', E.denoiseChunk torch plan.keys i x ((E.createRuntime plan).control i) g rings =
        (latent, rings', g') ∧ coldLatent E torch plan i = some latent ∧
      InStep E torch plan (i + 1) rings' g' := by
  have hstep : coldStep E torch plan i = some (E.step plan.keys i x
      ((E.createRuntime plan).control i) g (rings.map KvCache.visible)) := by
    simp only [coldStep, hx, Option.map_some, hcold, h.generator]
  have hlt : i < (E.noiseChunks plan.keys).length := (List.getElem?_eq_some_iff.mp hx).1
  have hcount := E.count plan.keys i x ((E.createRuntime plan).control i) g
    (rings.map KvCache.visible)
  have hwrites := E.writes plan.keys i x ((E.createRuntime plan).control i) g
    (rings.map KvCache.visible)
  refine ⟨_, _, _, rfl, by rw [coldLatent, hstep, Option.map_some], ?_, ?_, ?_⟩
  · rw [List.length_zipWith, h.count, hcount, Nat.min_self]
  · intro l kv' hkv'
    rw [List.getElem?_zipWith_eq_some] at hkv'
    obtain ⟨kv, ws, hkv, hws, rfl⟩ := hkv'
    have hl : l < E.layers plan.keys := h.count ▸ (List.getElem?_eq_some_iff.mp hkv).1
    obtain ⟨hne, hlens⟩ := hwrites ws (List.mem_of_getElem? hws)
    have hlast : coldWrite E torch plan l i = lastWrite ws := by
      simp only [coldWrite, hstep, List.getD_eq_getElem?_getD, hws, Option.getD_some]
    have hlen : ∀ j < i, (coldWrite E torch plan l j).1.length = (E.geo plan.keys).chunkTokens ∧
        (coldWrite E torch plan l j).2.length = (E.geo plan.keys).chunkTokens := fun j hj =>
      coldWrite_length hl (Nat.lt_trans hj hlt)
    have hupdate : ∀ {f : Nat → List β} {a : List β}, f i = a → ∀ j < i + 1,
        Function.update f i a j = f j := by
      intro f a ha j _
      by_cases hj : j = i
      · rw [hj, Function.update_self, ha]
      · rw [Function.update_of_ne hj]
    exact (writeChunk_holds (fun j hj => (hlen j hj).1) (fun j hj => (hlen j hj).2) hne hlens
      (h.ring l kv hkv)).congr (E.roomy _).chunk (sink_le (E.roomy _))
        (hupdate (congrArg Prod.fst hlast)) (hupdate (congrArg Prod.snd hlast))
  · simp only [Engine.coldRun, hx, Engine.denoiseChunk, h.generator]

theorem cold_inStep (i : Nat) (hi : i ≤ (E.noiseChunks plan.keys).length) :
    InStep E torch plan i (E.coldRun torch plan i).rings (E.coldRun torch plan i).generator := by
  induction i with
  | zero =>
    refine ⟨List.length_replicate, ?_, rfl⟩
    intro l kv hkv
    rw [Engine.coldRun, Engine.createRuntime, List.getElem?_replicate] at hkv
    split at hkv
    · cases hkv
      have hempty : ∀ y : Nat → List β, Filled (E.geo plan.keys) (E.bufFrames plan.keys) 0 y
          (List.replicate (E.bufFrames plan.keys * (E.geo plan.keys).frameTokens) E.zero) := by
        intro y
        refine ⟨List.length_replicate, ?_⟩
        simp [physicalFrames]
      exact ⟨hempty _, hempty _, by simp, by simp⟩
    · cases hkv
  | succ i ih =>
    obtain ⟨x, hx⟩ : ∃ x, (E.noiseChunks plan.keys)[i]? = some x := ⟨_, List.getElem?_eq_getElem hi⟩
    have h := ih (Nat.le_of_lt hi)
    obtain ⟨latent, rings', g', hd, _, hnext⟩ := denoise_inStep h hx rfl
    simp only [Engine.coldRun, hx, hd]
    exact hnext

theorem coldRun_outputs (h : i ≤ (E.noiseChunks plan.keys).length) :
    (E.coldRun torch plan i).outputs = (List.range i).filterMap (coldLatent E torch plan) := by
  induction i with
  | zero => rfl
  | succ i ih =>
    obtain ⟨x, hx⟩ : ∃ x, (E.noiseChunks plan.keys)[i]? = some x := ⟨_, List.getElem?_eq_getElem h⟩
    have ih := ih (Nat.le_of_lt h)
    have hcold : InStep E torch plan i _ _ := cold_inStep i (Nat.le_of_lt h)
    obtain ⟨latent, rings', g', hd, hlat, _⟩ := denoise_inStep hcold hx rfl
    simp only [Engine.coldRun, hx, hd, ih, List.range_succ, List.filterMap_append, List.filterMap_cons, hlat,
      List.filterMap_nil]

end

def actionsOf (digest : Bytes → Bytes) (plan : SessionPlan C) : List ActionKey :=
  chunkActionKeys digest torch (E.createRuntime plan)

/-- A control counts in a step by its action key only. -/
def Quantized (digest : Bytes → Bytes) : Prop :=
  ∀ κ i x c c' g rings, actionKey digest torch c = actionKey digest torch c' →
    E.step κ i x c g rings = E.step κ i x c' g rings

section
variable {E torch} {digest : Bytes → Bytes} {plan plan' : SessionPlan C} {i : Nat}

theorem actionsOf_length : (actionsOf E torch digest plan).length = (E.noiseChunks plan.keys).length := by
  rw [actionsOf, chunkActionKeys, List.length_map, List.length_range]
  rfl

theorem actionsOf_get {j : Nat} (hj : j < (E.noiseChunks plan.keys).length) :
    (actionsOf E torch digest plan)[j]? =
      some (actionKey digest torch ((E.createRuntime plan).control j)) := by
  have hj : j < (E.createRuntime plan).noiseChunks.length := hj
  rw [actionsOf, chunkActionKeys, List.getElem?_map, List.getElem?_range hj, Option.map_some]

/-- The engine sees the control through its key only. -/
theorem coldStep_congr (hq : Quantized E torch digest) (hkeys : plan.keys = plan'.keys)
    (hrun : E.coldRun torch plan i = E.coldRun torch plan' i)
    (hc : actionKey digest torch ((E.createRuntime plan).control i) =
      actionKey digest torch ((E.createRuntime plan').control i)) :
    coldStep E torch plan i = coldStep E torch plan' i := by
  unfold coldStep
  rw [hkeys, hrun]
  congr 1
  funext x
  exact hq _ _ _ _ _ _ _ hc

/-- Sessions of one world run alike as long as their action keys are the same. -/
theorem coldRun_congr (hq : Quantized E torch digest) (hkeys : plan.keys = plan'.keys)
    (hc : ∀ j < i, actionKey digest torch ((E.createRuntime plan).control j) =
      actionKey digest torch ((E.createRuntime plan').control j)) :
    E.coldRun torch plan i = E.coldRun torch plan' i := by
  induction i with
  | zero => simp only [Engine.coldRun, Engine.createRuntime, hkeys]
  | succ i ih =>
    have ih := ih fun j hj => hc j (Nat.lt_succ_of_lt hj)
    have hstep := hq plan'.keys i
    simp only [Engine.coldRun, hkeys, ih, Engine.denoiseChunk]
    cases (E.noiseChunks plan'.keys)[i]? with
    | none => rfl
    | some x => simp only [hstep x _ _ _ _ (hc i (Nat.lt_succ_self i))]

/-- Plans of the same keys so far compute the same chunk. -/
theorem coldStep_take (hq : Quantized E torch digest) (hkeys : plan.keys = plan'.keys)
    (hi : i < (E.noiseChunks plan.keys).length)
    (ht : (actionsOf E torch digest plan).take (i + 1) = (actionsOf E torch digest plan').take (i + 1)) :
    coldStep E torch plan i = coldStep E torch plan' i := by
  have hc : ∀ j < i + 1, actionKey digest torch ((E.createRuntime plan).control j) =
      actionKey digest torch ((E.createRuntime plan').control j) := by
    intro j hj
    have hlt : j < (E.noiseChunks plan.keys).length := Nat.lt_of_lt_of_le hj hi
    have h1 : (actionsOf E torch digest plan)[j]? = _ := actionsOf_get hlt
    have h2 : (actionsOf E torch digest plan')[j]? = _ := actionsOf_get (hkeys ▸ hlt)
    rw [← List.getElem?_take_of_lt hj, ht, List.getElem?_take_of_lt hj, h2] at h1
    exact (Option.some.inj h1).symm
  exact coldStep_congr hq hkeys (coldRun_congr hq hkeys fun j hj => hc j (Nat.lt_succ_of_lt hj))
    (hc i (Nat.lt_succ_self i))

end

end CacheSeek.Proofs.ColdRun
