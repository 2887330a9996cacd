import CacheSeek.Proofs.ExactReplay

namespace CacheSeek.Proofs.WarmRing
open CacheSeek.Lib CacheSeek.Prefix CacheSeek.Prefix.NamespaceForest CacheSeek.Prefix.RingKVWindow
open CacheSeek.Stores CacheSeek.Proofs.ColdRun CacheSeek.Proofs.ExactReplay CacheSeek.Proofs.FastForward
open CacheSeek.Proofs.ResumeComplete CacheSeek.Proofs.RingLayout CacheSeek.Proofs.Seeding
open CacheSeek.Proofs.SharedForest CacheSeek.Proofs.SnapshotLoad CacheSeek.Proofs.SnapshotRoundTrip
open CacheSeek.Proofs.StoreLaws CacheSeek.Proofs.WindowPath CacheSeek.Proofs.Worlds

variable {σ N C T L ρ β : Type} {digest : Bytes → Bytes} {S : KVTierStore σ (LayerValue T) L}
  {torch : Torch N C ρ} {dim : TensorDim T β}

section
variable {E : Engine N C L ρ β} {r : Bytes} {plan : SessionPlan C} {K i : Nat} {b b' : Bound σ N C L ρ β}

/-- A session that stores what it denoises, with every chunk so far in the forest. -/
structure Donating (digest : Bytes → Bytes) (S : KVTierStore σ (LayerValue T) L) (torch : Torch N C ρ)
    (dim : TensorDim T β) (E : Engine N C L ρ β) (r : Bytes) (plan : SessionPlan C) (K i : Nat)
    (b : Bound σ N C L ρ β) : Prop extends AtChunk digest S torch dim E r plan K i b where
  ingests : b.binding.ingestEnabled = true
  stored : ∀ j < max i K, b.forest.published r ((actionsOf E torch digest plan).take (j + 1)) = true

theorem chunkPayload_paired (rt : Runtime N C L ρ β) : Paired (chunkPayload dim rt) := by
  intro p hp
  obtain ⟨kv, _, rfl⟩ := List.mem_map.mp hp
  exact ⟨_, _, rfl⟩

/-- The second hook publishes the path that is one action longer, and hides none. -/
theorem finalized_published {cfg : WorldKVConfig} {latent : L} {ns : Namespace} {p : List ActionKey}
    {action : ActionKey} (h : onChunkFinalized S dim cfg b i latent = (.ok (), b')) (hS : KeepsPuts S)
    (hsturdy : Sturdy digest b.forest)
    (hing : b.binding.ingestEnabled = true) (hns : b.binding.ns = some ns)
    (hquiet : b.binding.snapshotOnFinalize = false) (hact : b.binding.actions[i]? = some action)
    (hmount : b.forest.nodeAt r p = some (b.binding.parent.getD ns.root)) :
    b'.binding.ingestEnabled = true ∧ b'.forest.published r (p ++ [action]) = true ∧
      ∀ q, b.forest.published r q = true → b'.forest.published r q = true := by
  simp only [onChunkFinalized, hing, hns, hact] at h
  cases hkey : b.binding.chain[i]? with
  | none =>
    simp only [hkey] at h
    cases h
  | some key =>
    simp only [hkey] at h
    obtain ⟨s', hin, _⟩ := hS.ingest cfg b.forest b.store
      ⟨b.binding.parent.getD ns.root, action, key, (i : Int), chunkPayload dim b.runtime, latent,
        payloadBytes dim (chunkPayload dim b.runtime), none⟩ (chunkPayload_paired b.runtime)
    have hpub := published_ingest cfg hsturdy.shape (fun n x hn hx => hsturdy.blob_lt hn hx)
      (a := ⟨b.binding.parent.getD ns.root, action, key, (i : Int), chunkPayload dim b.runtime, latent,
        payloadBytes dim (chunkPayload dim b.runtime), none⟩) hmount r
    rw [hin] at h
    simp only [hquiet, Bool.false_eq_true, ↓reduceIte, Prod.mk.injEq, true_and] at h
    subst h
    refine ⟨rfl, ?_, fun q hq => ?_⟩
    · rw [hpub, if_pos ⟨rfl, rfl⟩]
    · rw [hpub]
      split
      · rfl
      · exact hq

/-- One turn of the chunk loop stores its chunk, or takes one that is stored. -/
theorem Donating.chunk (hx : Exact digest S torch dim E)
    (hroot : sessionRootHash digest plan.session plan.modelFingerprint = some r)
    (hlt : i < (E.noiseChunks plan.keys).length) (h : Donating digest S torch dim E r plan K i b) :
    ∃ latent b', sessionChunk S torch dim E plan b i = (.ok latent, b') ∧
      Donating digest S torch dim E r plan K (i + 1) b' := by
  obtain ⟨latent, b', hrun, hlat, hat⟩ := sessionChunk_cold hx hroot hlt h.toAtChunk
  have hcached := h.cached i (Nat.le_refl i)
  by_cases hi : i < K
  · rw [if_pos hi, hlat] at hcached
    have hmax : max (i + 1) K = max i K := by omega
    have hrun' := hrun
    simp only [sessionChunk, hcached, Prod.mk.injEq, true_and] at hrun'
    subst hrun'
    exact ⟨latent, _, hrun, hat, h.ingests, by rw [hmax]; exact h.stored⟩
  · rw [if_neg hi] at hcached
    have hmax : max i K = i := Nat.max_eq_left (Nat.not_lt.mp hi)
    have hmax' : max (i + 1) K = i + 1 := by omega
    obtain ⟨ns, hns, hmount⟩ := h.mount
    have hmount := hmount h.ingests
    rw [hmax] at hmount
    have hact : b.binding.actions[i]? = some (actionKey digest torch ((E.createRuntime plan).control i)) := by
      rw [h.actions]
      exact actionsOf_get hlt
    obtain ⟨x, hnoise⟩ : ∃ x, (E.noiseChunks plan.keys)[i]? = some x := ⟨_, List.getElem?_eq_getElem hlt⟩
    rw [← h.noise] at hnoise
    have hrun' := hrun
    simp only [sessionChunk, hcached, hnoise] at hrun'
    split at hrun'
    · cases hrun'
    · rename_i b1 hfin
      cases hrun'
      obtain ⟨hing, hnew, hold⟩ := finalized_published hfin hx.store h.truthful.sturdy h.ingests hns h.quiet
        hact hmount
      refine ⟨_, _, hrun, hat, hing, ?_⟩
      rw [hmax']
      intro j hj
      by_cases hji : j = i
      · rw [hji, List.take_add_one, actionsOf_get hlt]
        exact hnew
      · exact hold _ (h.stored j (by omega))

/-- The chunk loop of a donor leaves every chunk in the forest. -/
theorem Donating.chunks (hx : Exact digest S torch dim E)
    (hroot : sessionRootHash digest plan.session plan.modelFingerprint = some r) {m : Nat}
    (hle : i + m ≤ (E.noiseChunks plan.keys).length) (h : Donating digest S torch dim E r plan K i b) :
    ∃ latents b', sessionChunks S torch dim E plan b (List.range' i m) = (.ok latents, b') ∧
      Donating digest S torch dim E r plan K (i + m) b' := by
  induction m generalizing i b with
  | zero => exact ⟨[], b, rfl, h⟩
  | succ m ih =>
    obtain ⟨latent, b1, h1, hb1⟩ := h.chunk hx hroot (by omega)
    obtain ⟨latents, b2, h2, hb2⟩ := ih (i := i + 1) (by omega) hb1
    refine ⟨latent :: latents, b2, ?_, by rw [← Nat.add_assoc, Nat.add_right_comm]; exact hb2⟩
    simp only [List.range'_succ, sessionChunks, h1, h2]

/-- Whatever happened before, a session that stores leaves its first chunks in the forest. -/
theorem session_stores (hx : Exact digest S torch dim E) {f : NamespaceForest} {s : σ}
    (ht : Truthful digest S torch dim E f s)
    (hroot : sessionRootHash digest plan.session plan.modelFingerprint = some r) {chain : List Bytes}
    (hchain : buildActionChain digest r ((actionsOf E torch digest plan).map ActionKey.bytes) = some chain)
    (hing : plan.ingestEnabled = true) (hle : plan.chunks ≤ (E.noiseChunks plan.keys).length) :
    ∃ latents b, runSession digest S torch dim E plan f s = (.ok latents, b) ∧
      Truthful digest S torch dim E b.forest b.store ∧
      ∀ j < plan.chunks, b.forest.published r ((actionsOf E torch digest plan).take (j + 1)) = true := by
  rcases created hx ht plan with ⟨e, b, _, _, hno⟩ | ⟨r', K, b, hroot', hb, hat, hb', hstored⟩
  · rw [hno r hroot] at hchain
    cases hchain
  · rw [hroot] at hroot'
    cases hroot'
    have hdonor : Donating digest S torch dim E r plan K 0 b := ⟨hat, hb'.trans hing, by rwa [Nat.zero_max]⟩
    obtain ⟨latents, b', hrun, hend⟩ := hdonor.chunks hx hroot (m := plan.chunks) (by rwa [Nat.zero_add])
    rw [Nat.zero_add] at hend
    refine ⟨latents, b', ?_, hend.truthful, fun j hj => hend.stored j (Nat.lt_of_lt_of_le hj (Nat.le_max_left ..))⟩
    rw [runSession_ok hb, List.range_eq_range', hrun]

end

/-- The keys and values of a run by chunk and layer: a first write, then the rewrites before
the chunk is finalized. -/
structure Script (N L ρ β : Type) (chunkTokens : Nat) where
  layers : Nat
  timesteps : Nat
  noise : List N
  generator : ρ
  zero : β
  latent : Nat → L
  writes : Nat → Nat → List (List β × List β)
  written : ∀ i l, writes i l ≠ []
  full : ∀ i l, ∀ w ∈ writes i l, w.1.length = chunkTokens ∧ w.2.length = chunkTokens

namespace Script

variable {geo : Geometry} {bufFrames : Nat}

/-- The engine that plays the script, whatever it sees. -/
def engine (script : Script N L ρ β geo.chunkTokens) (roomy : Roomy geo bufFrames) : Engine N C L ρ β where
  geo _ := geo
  bufFrames _ := bufFrames
  layers _ := script.layers
  timesteps _ := script.timesteps
  noiseChunks _ := script.noise
  generator _ := script.generator
  zero := script.zero
  step _ i _ _ _ _ := (script.latent i, (List.range script.layers).map (script.writes i))
  roomy _ := roomy
  count _ i x c g rings := by rw [List.length_map, List.length_range]
  writes _ i x c g rings ws hws := by
    obtain ⟨l, _, rfl⟩ := List.mem_map.mp hws
    exact ⟨script.written i l, script.full i l⟩

def coldRing (script : Script N L ρ β geo.chunkTokens) (bufFrames l : Nat) : Nat → KvCache β
  | 0 =>
    let buf := List.replicate (bufFrames * geo.frameTokens) script.zero
    ⟨buf, buf, 0, 0⟩
  | i + 1 => (script.writes i l).foldl (fun kv w => kvWrite (bufFrames * geo.frameTokens)
      (geo.kvSinkSize * geo.frameTokens) kv w.1 w.2 (i * geo.chunkTokens)) (script.coldRing bufFrames l i)

variable (script : Script N L ρ β geo.chunkTokens) (roomy : Roomy geo bufFrames)

/-- The engine's cold run has these rings. -/
theorem coldRun_rings (plan : SessionPlan C) {i : Nat} (hi : i ≤ script.noise.length) :
    ((script.engine roomy).coldRun torch plan i).rings =
      (List.range script.layers).map fun l => script.coldRing bufFrames l i := by
  induction i with
  | zero =>
    simp only [coldRing, List.map_const', List.length_range]
    rfl
  | succ i ih =>
    have hnoise : ((script.engine roomy : Engine N C L ρ β).noiseChunks plan.keys)[i]? = some script.noise[i] :=
      List.getElem?_eq_getElem hi
    simp only [Engine.coldRun, hnoise, Engine.denoiseChunk, ih (Nat.le_of_lt hi)]
    simp only [engine, List.zipWith_map, List.zipWith_self]
    rfl

end Script

/-- A ring of `slots` slots that looks like the cold one. -/
structure Warm (slots : Nat) (cold kv : KvCache β) : Prop where
  slotsK : kv.k.length = slots
  slotsV : kv.v.length = slots
  globalEnd : kv.globalEnd = cold.globalEnd
  localEnd : kv.localEnd = cold.localEnd
  fits : kv.localEnd ≤ slots
  k : kv.k.take kv.localEnd = cold.k.take cold.localEnd
  v : kv.v.take kv.localEnd = cold.v.take cold.localEnd

theorem warm_of_holds {geo : Geometry} {bufFrames K : Nat} {ck cv : Nat → List β} {cold kv : KvCache β}
    (h : RingHolds geo bufFrames K ck cv kv) (hcold : RingHolds geo bufFrames K ck cv cold) :
    Warm (bufFrames * geo.frameTokens) cold kv := by
  have hvis := h.visible_eq hcold
  simp only [KvCache.visible, KvCache.mk.injEq] at hvis
  obtain ⟨hk, hv, hglobal, hlocal⟩ := hvis
  have hfits : kv.localEnd ≤ bufFrames * geo.frameTokens := by
    rw [h.localEnd]
    exact Nat.mul_le_mul_right _ (Nat.min_le_right ..)
  exact ⟨h.k.length, h.v.length, hglobal, hlocal, hfits, hk, hv⟩

/-- The window of `make_rolling_config` has the newest chunk. -/
theorem gathered_newest {geo : Geometry} {bufFrames K : Nat} (h : Roomy geo bufFrames) (breakEvenK : Int)
    (hK : 0 < K) : gathered (makeRollingConfig bufFrames geo.kvSinkSize geo.chunkSize breakEvenK) K ≠ [] := by
  obtain ⟨j, rfl⟩ := Nat.exists_eq_succ_of_ne_zero (Nat.ne_of_gt hK)
  obtain ⟨fs, hframes, _⟩ := physicalFrames_tail h (j * geo.chunkSize)
  rw [← Nat.succ_mul] at hframes
  have hmem : j * geo.chunkSize ∈ physicalFrames geo bufFrames ((j + 1) * geo.chunkSize) := by
    rw [hframes, List.mem_append, List.mem_range'_1]
    have := h.chunk
    omega
  exact List.ne_nil_of_mem (gathered_frames h breakEvenK hmem)

/-- Over a published path of any engine's chunks, fresh rings get to where the cold run is. -/
theorem published_materialize {E : Engine N C L ρ β} {f : NamespaceForest} {s : σ} {r : Bytes}
    {plan : SessionPlan C} {K : Nat} (hx : Exact digest S torch dim E) (ht : Truthful digest S torch dim E f s)
    (hroot : sessionRootHash digest plan.session plan.modelFingerprint = some r) (hK : 0 < K)
    (hKn : K ≤ (E.noiseChunks plan.keys).length)
    (hstored : ∀ j < K, f.published r ((actionsOf E torch digest plan).take (j + 1)) = true) :
    ∃ n, f.nodeAt r ((actionsOf E torch digest plan).take K) = some n ∧ (f.node n).depth = K - 1 ∧
      ∀ fresh : List (KvCache β), fresh.length = E.layers plan.keys →
        Rings (E.geo plan.keys) (E.bufFrames plan.keys) fresh → ∀ now breakEvenK,
        ∃ f' s' w', materialize S (ringKVWindow (E.geo plan.keys) dim)
            (makeRollingConfig (E.bufFrames plan.keys) (E.geo plan.keys).kvSinkSize (E.geo plan.keys).chunkSize
              breakEvenK) now f s n ⟨fresh, 0⟩ = (.ok true, f', s', w') ∧
          InStep E torch plan K w'.selfKvCache (E.coldRun torch plan K).generator := by
  have hlast := hstored (K - 1) (Nat.sub_one_lt_of_lt hK)
  rw [Nat.sub_add_cancel hK] at hlast
  obtain ⟨n, hn, _⟩ := published_iff.mp hlast
  have hdepth := nodeAt_depth ht.sturdy.shape ht.sturdy.edges hn
  rw [List.length_take, actionsOf_length, Nat.min_eq_left hKn] at hdepth
  have hkv : ∀ j < K, f.hasKv (chunkNode f r ((actionsOf E torch digest plan).take K) j) = true := by
    intro j hj
    obtain ⟨m, hm, hm'⟩ := published_iff.mp (hstored j hj)
    rw [chunkNode_take hj, chunkNode, hm]
    exact hm'
  refine ⟨n, hn, hdepth, ?_⟩
  intro fresh hcount hrings now breakEvenK
  obtain ⟨f', s', w', hm, _, hstep⟩ := materialize_fresh hx ht hroot hKn hn hkv hrings hcount now breakEvenK
    (gathered_newest (E.roomy plan.keys) breakEvenK hK)
  exact ⟨f', s', w', hm, hstep⟩

/-- Whatever was stored before, a donor's chunks give a fresh ring what the cold ring has
after as many chunks, for any geometry. -/
theorem warm_ring_eq_cold {geo : Geometry} {bufFrames : Nat} (roomy : Roomy geo bufFrames)
    (script : Script N L ρ β geo.chunkTokens) (hd : Hash digest) (hS : KeepsPuts S)
    (hdim : TensorDim.Lawful dim) (s : σ) (history : List (Visit C)) {plan : SessionPlan C} {r : Bytes}
    {chain : List Bytes} (hing : plan.ingestEnabled = true)
    (hroot : sessionRootHash digest plan.session plan.modelFingerprint = some r)
    (hchain : buildActionChain digest r
      ((actionsOf (script.engine roomy) torch digest plan).map ActionKey.bytes) = some chain)
    (hle : plan.chunks ≤ script.noise.length) {K : Nat} (hK : 0 < K) (hKle : K ≤ plan.chunks) :
    ∃ latents b n, runSession digest S torch dim (script.engine roomy) plan
        (history.foldl (visit digest S torch dim (script.engine roomy)) (NamespaceForest.empty, s)).1
        (history.foldl (visit digest S torch dim (script.engine roomy)) (NamespaceForest.empty, s)).2 =
          (.ok latents, b) ∧
      b.forest.nodeAt r ((actionsOf (script.engine roomy) torch digest plan).take K) = some n ∧
      (b.forest.node n).depth = K - 1 ∧
      ∀ fresh : List (KvCache β), fresh.length = script.layers →
        (∀ kv ∈ fresh, kv.k.length = bufFrames * geo.frameTokens ∧ kv.v.length = bufFrames * geo.frameTokens) →
        ∀ now breakEvenK, ∃ f' s' w', materialize S (ringKVWindow geo dim)
            (makeRollingConfig bufFrames geo.kvSinkSize geo.chunkSize breakEvenK)
            now b.forest b.store n ⟨fresh, 0⟩ = (.ok true, f', s', w') ∧
          w'.selfKvCache.length = script.layers ∧
          ∀ l < script.layers, ∃ kv, w'.selfKvCache[l]? = some kv ∧
            Warm (bufFrames * geo.frameTokens) (script.coldRing bufFrames l K) kv := by
  have hx : Exact digest S torch dim (script.engine roomy) := ⟨hd, hS, hdim, fun _ _ _ _ _ _ _ _ => rfl⟩
  have hempty : Truthful digest S torch dim (script.engine roomy) (NamespaceForest.empty, s).1
    (NamespaceForest.empty, s).2 := empty_truthful s
  have hkept := history_truthful hx hempty history
  generalize history.foldl (visit digest S torch dim (script.engine roomy)) (NamespaceForest.empty, s) = fs
    at hkept ⊢
  obtain ⟨latents, b, hrun, ht, hstored⟩ := session_stores hx hkept hroot hchain hing hle
  have hKn : K ≤ ((script.engine roomy : Engine N C L ρ β).noiseChunks plan.keys).length := Nat.le_trans hKle hle
  obtain ⟨n, hn, hdepth, hfresh⟩ := published_materialize hx ht hroot hK hKn
    fun j hj => hstored j (Nat.lt_of_lt_of_le hj hKle)
  refine ⟨latents, b, n, hrun, hn, hdepth, ?_⟩
  intro fresh hcount hslots now breakEvenK
  have hrings : Rings geo bufFrames fresh := ⟨roomy.chunk, roomy.tokens, sink_le roomy,
    fun kv hkv => (hslots kv hkv).1, fun kv hkv => (hslots kv hkv).2⟩
  obtain ⟨f', s', w', hm, hwarm⟩ := hfresh fresh hcount hrings now breakEvenK
  refine ⟨f', s', w', hm, hwarm.count, ?_⟩
  intro l hl
  have hcold : InStep (script.engine roomy) torch plan K _ _ := cold_inStep K hKn
  have hkv : w'.selfKvCache[l]? = some _ := List.getElem?_eq_getElem (hwarm.count ▸ hl)
  have hring : ((script.engine roomy).coldRun torch plan K).rings[l]? =
      some (script.coldRing bufFrames l K) := by
    rw [script.coldRun_rings roomy plan hKn, List.getElem?_map, List.getElem?_range hl, Option.map_some]
  exact ⟨_, hkv, warm_of_holds (hwarm.ring l _ hkv) (hcold.ring l _ hring)⟩

/-- Two frames a chunk, each chunk written once more before it is finalized. -/
def rewriting : Script (List Nat) (List Nat) Nat Nat (Geometry.chunkTokens ⟨2, 1, 1⟩) where
  layers := 1
  timesteps := 2
  noise := [[1], [2], [3]]
  generator := 0
  zero := 0
  latent i := [i]
  writes i _ := [([0, 0], [0, 0]), ([2 * i, 2 * i + 1], [2 * i + 10, 2 * i + 11])]
  written _ _ := List.cons_ne_nil _ _
  full _ _ w hw := by
    rcases List.mem_pair.mp hw with rfl | rfl
    · exact ⟨rfl, rfl⟩
    · exact ⟨rfl, rfl⟩

theorem four_frames : Roomy ⟨2, 1, 1⟩ 4 := ⟨by decide, by decide, by decide⟩

set_option maxRecDepth 8000 in
/-- After three chunks in four frames: the sink's frame and the newest three. -/
theorem warm_ring_eq_cold_rolled : ∃ latents b n,
    runSession marked (inMemoryTierStore (LayerValue (List Nat)) (List Nat)) listTorch listDim
      (rewriting.engine four_frames) (demoPlan [[0], [1], [0]] 3)
      NamespaceForest.empty {} = (.ok latents, b) ∧ (b.forest.node n).depth = 2 ∧
    ∃ f' s' w', materialize (inMemoryTierStore (LayerValue (List Nat)) (List Nat))
        (ringKVWindow ⟨2, 1, 1⟩ listDim) (makeRollingConfig 4 1 2 1) 0 b.forest b.store n
        ⟨[⟨[9, 9, 9, 9], [9, 9, 9, 9], 0, 0⟩], 0⟩ = (.ok true, f', s', w') ∧
      ∃ kv, w'.selfKvCache[0]? = some kv ∧ Warm 4 ⟨[0, 3, 4, 5], [10, 13, 14, 15], 6, 4⟩ kv := by
  have hdim : TensorDim.Lawful listDim := fun _ => rfl
  have hing : (demoPlan [[0], [1], [0]] 3).ingestEnabled = true := rfl
  have hroot : sessionRootHash marked demoSession [] =
      some ((sessionRootHash marked demoSession []).getD []) := by decide
  have hchain : buildActionChain marked ((sessionRootHash marked demoSession []).getD [])
      ((actionsOf (rewriting.engine four_frames) listTorch marked
        (demoPlan [[0], [1], [0]] 3)).map ActionKey.bytes) =
      some ((buildActionChain marked ((sessionRootHash marked demoSession []).getD [])
      ((actionsOf (rewriting.engine four_frames) listTorch marked
        (demoPlan [[0], [1], [0]] 3)).map ActionKey.bytes)).getD []) := by decide +kernel
  obtain ⟨latents, b, n, hrun, _, hdepth, hfresh⟩ := warm_ring_eq_cold four_frames rewriting marked_hash
    (inMemory_keepsPuts _ _) hdim {} [] hing hroot hchain
    (by decide) (K := 3) (by decide) (by decide)
  obtain ⟨f', s', w', hm, _, hwarm⟩ := hfresh [⟨[9, 9, 9, 9], [9, 9, 9, 9], 0, 0⟩] rfl (by decide) 0 1
  obtain ⟨kv, hkv, hsame⟩ := hwarm 0 (by decide)
  exact ⟨latents, b, n, hrun, hdepth, f', s', w', hm, kv, hkv, hsame⟩

end CacheSeek.Proofs.WarmRing
