import CacheSeek.Proofs.FastForward

namespace CacheSeek.Proofs.ExactReplay
open CacheSeek.Lib CacheSeek.Prefix CacheSeek.Prefix.NamespaceForest CacheSeek.Prefix.RingKVWindow
open CacheSeek.Stores CacheSeek.Proofs.ColdRun CacheSeek.Proofs.FastForward
open CacheSeek.Proofs.KeyIdentity CacheSeek.Proofs.Materialize CacheSeek.Proofs.ResumeComplete
open CacheSeek.Proofs.RingLayout CacheSeek.Proofs.Seeding CacheSeek.Proofs.SharedForest
open CacheSeek.Proofs.SnapshotLoad CacheSeek.Proofs.SnapshotRoundTrip CacheSeek.Proofs.SnapshotRuns
open CacheSeek.Proofs.StoreLaws
open CacheSeek.Proofs.WindowPath CacheSeek.Proofs.Worlds

variable {σ N C T L ρ β : Type} (digest : Bytes → Bytes) (S : KVTierStore σ (LayerValue T) L)
  (torch : Torch N C ρ) (dim : TensorDim T β) (E : Engine N C L ρ β)

/-- What exact replay relies on: of the hash, the store, the tensors and the controls. -/
structure Exact : Prop where
  hash : Hash digest
  store : KeepsPuts S
  tensors : TensorDim.Lawful dim
  controls : Quantized E torch digest

structure AtChunk (r : Bytes) (plan : SessionPlan C) (K i : Nat) (b : Bound σ N C L ρ β) : Prop where
  truthful : Truthful digest S torch dim E b.forest b.store
  skipped : K ≤ (E.noiseChunks plan.keys).length
  noise : b.runtime.noiseChunks = E.noiseChunks plan.keys
  controls : b.runtime.controlChunks = plan.controlChunks
  geo : b.runtime.geo = E.geo plan.keys
  rings : InStep E torch plan (max i K) b.runtime.selfKvCache b.runtime.generator
  cached : ∀ j, i ≤ j → b.runtime.worldKvCachedLatents.get? (j : Int) =
    if j < K then some (coldLatent E torch plan j) else none
  actions : b.binding.actions = actionsOf E torch digest plan
  chain : buildActionChain digest r (b.binding.actions.map ActionKey.bytes) = some b.binding.chain
  quiet : b.binding.snapshotOnFinalize = false
  mount : ∃ ns, b.binding.ns = some ns ∧ (b.binding.ingestEnabled = true →
    b.forest.nodeAt r ((actionsOf E torch digest plan).take (max i K)) =
      some (b.binding.parent.getD ns.root))
  resumed : b.binding.lastFastForward = K

def start (plan : SessionPlan C) (f : NamespaceForest) (s : σ) : Bound σ N C L ρ β :=
  { binding := { modelFingerprint := plan.modelFingerprint, ingestEnabled := plan.ingestEnabled }
    forest := f
    store := s
    runtime := E.createRuntime plan }

section
variable {digest S torch dim E} {f : NamespaceForest} {s : σ} {r : Bytes} {plan : SessionPlan C}

section
variable {K : Nat} {n : NodeId} (hx : Exact digest S torch dim E)
  (h : Truthful digest S torch dim E f s)
  (hroot : sessionRootHash digest plan.session plan.modelFingerprint = some r)
  (hK : K ≤ (E.noiseChunks plan.keys).length)
  (hn : f.nodeAt r ((actionsOf E torch digest plan).take K) = some n)
  (hkv : ∀ j < K, f.hasKv (chunkNode f r ((actionsOf E torch digest plan).take K) j) = true)
include hx h hroot hK hn hkv

/-- Over a complete path any rings of the engine's size get what the cold run has. -/
theorem materialize_fresh {fresh : List (KvCache β)}
    (hrings : Rings (E.geo plan.keys) (E.bufFrames plan.keys) fresh) (hcount : fresh.length = E.layers plan.keys)
    (now : Rat) (breakEvenK : Int)
    (hg : gathered (makeRollingConfig (E.bufFrames plan.keys) (E.geo plan.keys).kvSinkSize
      (E.geo plan.keys).chunkSize breakEvenK) K ≠ []) :
    ∃ f' s' w', materialize S (ringKVWindow (E.geo plan.keys) dim) (makeRollingConfig (E.bufFrames plan.keys)
        (E.geo plan.keys).kvSinkSize (E.geo plan.keys).chunkSize breakEvenK) now f s n ⟨fresh, 0⟩ =
        (.ok true, f', s', w') ∧ Retains S s s' ∧
      InStep E torch plan K w'.selfKvCache (E.coldRun torch plan K).generator := by
  have hlen : ((actionsOf E torch digest plan).take K).length = K := by
    rw [List.length_take, actionsOf_length, Nat.min_eq_left hK]
  have hst := truthful_stocked hx.hash hx.controls h hroot hx.tensors hK hn hkv
  rw [← hcount] at hst
  have hcomplete : Complete (E.geo plan.keys) (E.bufFrames plan.keys) (makeRollingConfig (E.bufFrames plan.keys)
      (E.geo plan.keys).kvSinkSize (E.geo plan.keys).chunkSize breakEvenK)
      ((actionsOf E torch digest plan).take K).length fresh.length (coldValue torch dim E plan) :=
    fun l _ g hg' => ⟨gathered_frames (E.roomy plan.keys) breakEvenK hg', _, _, rfl⟩
  rw [← hlen] at hg
  obtain ⟨f', s', w', hm, hs', hlen', hres⟩ := materialize_complete
    (w := ⟨fresh, 0⟩) now h.sturdy.shape h.sturdy.edges hn hst
    (retains_steady hx.store s) hrings hg hcomplete (Retains.refl S s)
  refine ⟨f', s', w', hm, hs', hlen'.trans hcount, ?_, rfl⟩
  intro l kv hkv'
  obtain ⟨kv0, kv1, h0, h1, hr⟩ := hres l (hlen' ▸ (List.getElem?_eq_some_iff.mp hkv').1)
  rw [hkv'] at h1
  cases h1
  have hmem := List.mem_of_getElem? h0
  rw [hlen] at hr
  exact resumed_holds hx.tensors (hrings.k kv0 hmem) (hrings.v kv0 hmem) hr

/-- Seeded from its own world, a session has the rings of its cold run. -/
theorem materialize_own :
    ∃ ok f' s' w', materialize S (ringKVWindow (E.geo plan.keys) dim) (E.config plan) plan.now f s n
        ⟨(E.createRuntime plan).selfKvCache, 0⟩ = (.ok ok, f', s', w') ∧
      Untouched f f' ∧ Retains S s s' ∧
      (ok = false → w'.selfKvCache = (E.createRuntime plan).selfKvCache) ∧
      (ok = true → InStep E torch plan K w'.selfKvCache (E.coldRun torch plan K).generator) := by
  have hlen : ((actionsOf E torch digest plan).take K).length = K := by
    rw [List.length_take, actionsOf_length, Nat.min_eq_left hK]
  have hu := materialize_untouched S (ringKVWindow (E.geo plan.keys) dim) (E.config plan) plan.now f s n
    ⟨(E.createRuntime plan).selfKvCache, 0⟩
  by_cases hg : gathered (E.config plan) K = []
  · have hm : materialize S (ringKVWindow (E.geo plan.keys) dim) (E.config plan) plan.now f s n
        ⟨(E.createRuntime plan).selfKvCache, 0⟩ = _ :=
      materialize_empty plan.now h.sturdy.shape h.sturdy.edges hn (by rw [hlen, hg])
    exact ⟨false, f, s, _, hm, Untouched.refl f, Retains.refl S s, fun _ => rfl, fun he => nomatch he⟩
  · obtain ⟨f', s', w', hm, hs', hstep⟩ := materialize_fresh hx h hroot hK hn hkv (createRuntime_rings plan)
      List.length_replicate plan.now plan.breakEvenK hg
    have hm : materialize S (ringKVWindow (E.geo plan.keys) dim) (E.config plan) plan.now f s n
        ⟨(E.createRuntime plan).selfKvCache, 0⟩ = (.ok true, f', s', w') := hm
    rw [hm] at hu
    exact ⟨true, f', s', w', hm, hu, hs', (fun he => nomatch he), fun _ => hstep⟩

/-- The latents of the matched path are those of the cold run. -/
theorem latents_own {f' : NamespaceForest} {s' : σ} (hu : Untouched f f') (hs : Retains S s s') :
    ∃ s'', readLatents S f' s' (pathUp f' f'.nodes.size (some n)).reverse ∅ =
        (.ok (withLatents (coldLatent E torch plan) ∅ (List.range K)), s'') ∧ Retains S s s'' := by
  have hlen : ((actionsOf E torch digest plan).take K).length = K := by
    rw [List.length_take, actionsOf_length, Nat.min_eq_left hK]
  have ht := hu.sameTrie
  have hn' : f'.nodeAt r ((actionsOf E torch digest plan).take K) = some n := by rw [ht.nodeAt, hn]
  have hshape := ht.shape h.sturdy.shape
  have hedges := h.sturdy.edges.sameTrie ht
  have hpath := pathUp_eq hshape hedges hn' (hshape.nodeAt_lt hn')
  rw [hlen] at hpath
  rw [hpath, List.reverse_reverse]
  refine readLatents_ok (retains_steady hx.store s) ?_ ?_ ∅ hs
  · intro j hj
    have hdepth := nodeAt_depth hshape hedges (nodeAt_chunkNode hn' j)
    have hlt := List.mem_range.mp hj
    rw [List.length_take, hlen] at hdepth
    rw [hdepth]
    omega
  · intro j hj
    obtain ⟨b, _, hc⟩ := truthful_chunk hx.hash hx.controls h hroot hK hn hkv (List.mem_range.mp hj)
    have hchunk : chunkNode f' r ((actionsOf E torch digest plan).take K) j =
        chunkNode f r ((actionsOf E torch digest plan).take K) j := by
      rw [chunkNode, chunkNode, ht.nodeAt]
    obtain ⟨t, hnode⟩ := hu.node (chunkNode f r ((actionsOf E torch digest plan).take K) j)
    obtain ⟨l, hl, hlat⟩ := hc.latent
    rw [hchunk, hnode]
    exact ⟨_, hc.skeleton, _, l, rfl, hlat, hl⟩

end

/-- A session that does not resume starts where the cold run does. -/
theorem atChunk_cold {b : Bound σ N C L ρ β} {ns : Namespace}
    (ht : Truthful digest S torch dim E b.forest b.store) (hruntime : b.runtime = E.createRuntime plan)
    (hactions : b.binding.actions = actionsOf E torch digest plan)
    (hchain : buildActionChain digest r (b.binding.actions.map ActionKey.bytes) = some b.binding.chain)
    (hquiet : b.binding.snapshotOnFinalize = false) (hns : b.binding.ns = some ns)
    (hparent : b.binding.parent = some ns.root) (hroot : b.forest.nodeAt r [] = some ns.root)
    (hlast : b.binding.lastFastForward = 0) : AtChunk digest S torch dim E r plan 0 0 b := by
  have hcold : InStep E torch plan 0 _ _ := cold_inStep 0 (Nat.zero_le _)
  refine ⟨ht, Nat.zero_le _, by rw [hruntime]; rfl, by rw [hruntime]; rfl, by rw [hruntime]; rfl, ?_, ?_,
    hactions, hchain, hquiet, ⟨ns, hns, fun _ => ?_⟩, hlast⟩
  · rw [hruntime]
    exact hcold
  · intro j _
    rw [hruntime]
    rfl
  · rw [hparent]
    exact hroot

/-- After the first hook a session is at its first chunk, or it raised and stored nothing. -/
theorem created (hx : Exact digest S torch dim E) (h : Truthful digest S torch dim E f s)
    (plan : SessionPlan C) :
    (∃ e b, onRuntimeCreated digest S torch dim (E.config plan) plan.now (start E plan f s) plan.session =
        (.error e, b) ∧ Truthful digest S torch dim E b.forest b.store ∧
      ∀ r, sessionRootHash digest plan.session plan.modelFingerprint = some r →
        buildActionChain digest r ((actionsOf E torch digest plan).map ActionKey.bytes) = none) ∨
    ∃ r K b, sessionRootHash digest plan.session plan.modelFingerprint = some r ∧
      onRuntimeCreated digest S torch dim (E.config plan) plan.now (start E plan f s) plan.session =
        (.ok (), b) ∧ AtChunk digest S torch dim E r plan K 0 b ∧
      b.binding.ingestEnabled = plan.ingestEnabled ∧
      ∀ j < K, b.forest.published r ((actionsOf E torch digest plan).take (j + 1)) = true := by
  have hfp : (start E plan f s).binding.modelFingerprint = plan.modelFingerprint := rfl
  have hforest : (start E plan f s).forest = f := rfl
  have hacts : chunkActionKeys digest torch (start E plan f s).runtime = actionsOf E torch digest plan := rfl
  simp only [onRuntimeCreated, hfp, hforest, hacts]
  cases hroot : sessionRootHash digest plan.session plan.modelFingerprint with
  | none => exact Or.inl ⟨_, _, rfl, h, fun r hr => by cases hr⟩
  | some r =>
    have h1 := h.create (sessionRoot_apart hx.hash.injective hroot) r
    obtain ⟨_, hres, _⟩ := matched_create (r := r) h.sturdy.shape r (actionsOf E torch digest plan)
    obtain ⟨f1, ns, hc⟩ : ∃ f1 ns, f.getOrCreateNamespace r r = (f1, ns) := ⟨_, _, rfl⟩
    rw [hc] at h1 hres
    simp only [hc]
    cases hchain : buildActionChain digest r ((actionsOf E torch digest plan).map ActionKey.bytes) with
    | none =>
      refine Or.inl ⟨_, _, rfl, h1, ?_⟩
      intro r' hr'
      cases hr'
      exact hchain
    | some chain =>
      have hns := Shape.nodeAt_nil_iff.mpr ⟨ns, hres, rfl⟩
      obtain ⟨n, hl, hle, hn, hp⟩ := lookup_matched (actionsOf E torch digest plan) h1.sturdy.shape hres
      have hmatched : matched f1 r (actionsOf E torch digest plan) =
          (actionsOf E torch digest plan).take (matched f1 r (actionsOf E torch digest plan)).length :=
        List.prefix_iff_eq_take.mp (List.take_prefix _ _)
      generalize (matched f1 r (actionsOf E torch digest plan)).length = K at hl hle hp hmatched
      rw [hmatched] at hn hp
      rw [actionsOf_length] at hle
      rw [exactLookup_eq (E.config plan) hl]
      right
      by_cases h0 : K = 0
      · rw [if_pos h0]
        exact ⟨r, 0, _, rfl, rfl, atChunk_cold h1 rfl rfl hchain rfl rfl rfl hns rfl, rfl,
          fun j hj => absurd hj (Nat.not_lt_zero j)⟩
      · rw [if_neg h0]
        by_cases hk : (K : Int) < (E.config plan).breakEvenK
        · rw [if_pos hk]
          exact ⟨r, 0, _, rfl, rfl, atChunk_cold h1 rfl rfl hchain rfl rfl rfl hns rfl, rfl,
            fun j hj => absurd hj (Nat.not_lt_zero j)⟩
        · rw [if_neg hk]
          obtain ⟨ok, f', s', w', hm, hu, hs, hno, hyes⟩ := materialize_own hx h1 hroot hle hn hp
          have hgeo : (start E plan f s).runtime.geo = E.geo plan.keys := rfl
          have hrings : (start E plan f s).runtime.selfKvCache = (E.createRuntime plan).selfKvCache := rfl
          have hstore : (start E plan f s).store = s := rfl
          simp only [hgeo, hrings, hstore, hm]
          have h2 := (h1.untouched hu).retains hs
          cases ok with
          | false =>
            dsimp only
            rw [hno rfl]
            exact ⟨r, 0, _, rfl, rfl, atChunk_cold h2 rfl rfl hchain rfl rfl rfl
              ((hu.sameTrie.nodeAt r []).trans hns) rfl, rfl, fun j hj => absurd hj (Nat.not_lt_zero j)⟩
          | true =>
            obtain ⟨s'', hlat, hs''⟩ := latents_own hx h1 hroot hle hn hp hu hs
            have hburn : burnSkipped torch (start E plan f s).runtime.noiseChunks
                ((start E plan f s).runtime.timesteps - 1) (start E plan f s).runtime.generator
                (List.range K) = (.ok (), (E.coldRun torch plan K).generator) := burnSkipped_cold hle
            simp only [hlat, hburn]
            refine ⟨r, K, _, rfl, rfl, ⟨(h1.untouched hu).retains hs'', hle, rfl, rfl, rfl, ?_, ?_, rfl, hchain, rfl,
              ⟨ns, rfl, ?_⟩, rfl⟩, rfl, ?_⟩
            · rw [Nat.zero_max]
              exact hyes rfl
            · intro j _
              dsimp only
              rw [get?_withLatents]
              simp only [List.mem_range]
              rfl
            · intro _
              rw [Nat.zero_max, hu.sameTrie.nodeAt, hn]
              rfl
            · intro j hj
              have hnode := nodeAt_chunkNode hn j
              rw [List.take_take, Nat.min_eq_left hj] at hnode
              rw [hu.published h1.sturdy.shape]
              exact published_iff.mpr ⟨_, hnode, hp j hj⟩

section
variable {K i : Nat} {b : Bound σ N C L ρ β} {rings : List (KvCache β)} {g : ρ}

/-- The KV a session stores for a chunk is the cold run's. -/
theorem chunkPayload_eq (hi : i < (E.noiseChunks plan.keys).length)
    (h : InStep E torch plan (i + 1) rings g) {rt : Runtime N C L ρ β} (hr : rt.selfKvCache = rings)
    (hgeo : rt.geo = E.geo plan.keys) : chunkPayload dim rt = coldPayload torch dim E plan i := by
  apply List.ext_getElem?
  intro l
  simp only [chunkPayload, hr, hgeo]
  rw [List.getElem?_map]
  by_cases hl : l < E.layers plan.keys
  · obtain ⟨kv, hkv⟩ : ∃ kv, rings[l]? = some kv := ⟨_, List.getElem?_eq_getElem (h.count ▸ hl)⟩
    have hring := h.ring l kv hkv
    have hlen : ∀ j < i + 1, (coldWrite E torch plan l j).1.length = (E.geo plan.keys).chunkTokens ∧
        (coldWrite E torch plan l j).2.length = (E.geo plan.keys).chunkTokens := fun j hj =>
      coldWrite_length hl (Nat.lt_of_lt_of_le hj hi)
    have hk := tail_eq (E.roomy plan.keys) (fun j hj => (hlen j hj).1) hring.k
    have hv := tail_eq (E.roomy plan.keys) (fun j hj => (hlen j hj).2) hring.v
    rw [hkv, coldPayload_get hl, Option.map_some, hring.localEnd, hk, hv]
    rfl
  · rw [List.getElem?_eq_none (by have := h.count; omega), List.getElem?_eq_none]
    · rfl
    · rw [coldPayload, List.length_map, List.length_range]
      omega

/-- The second hook stores the chunk, if it stores at all, and nothing else changes. -/
theorem finalized (hx : Exact digest S torch dim E)
    (hroot : sessionRootHash digest plan.session plan.modelFingerprint = some r) (hi : K ≤ i)
    (hlt : i < (E.noiseChunks plan.keys).length) {latent : L}
    (hlat : coldLatent E torch plan i = some latent) (h : AtChunk digest S torch dim E r plan K i b)
    (hstep : InStep E torch plan (i + 1) rings g) :
    ∃ b', onChunkFinalized S dim (E.config plan)
        { b with runtime := { b.runtime with selfKvCache := rings, generator := g } } i latent =
          (.ok (), b') ∧ AtChunk digest S torch dim E r plan K (i + 1) b' := by
  obtain ⟨htruth, hskip, hnoise, hcontrols, hgeo, _, hcached, hactions, hchain, hquiet, ⟨ns, hns, hmount⟩,
    hres⟩ := h
  have hmax : max i K = i := Nat.max_eq_left hi
  have hmax' : max (i + 1) K = i + 1 := Nat.max_eq_left (Nat.le_succ_of_le hi)
  have hcached' : ∀ j, i + 1 ≤ j → b.runtime.worldKvCachedLatents.get? (j : Int) =
      if j < K then some (coldLatent E torch plan j) else none := fun j hj =>
    hcached j (Nat.le_of_succ_le hj)
  rw [hmax] at hmount
  cases hing : b.binding.ingestEnabled with
  | false =>
    refine ⟨{ b with runtime := { b.runtime with selfKvCache := rings, generator := g } }, ?_, htruth, hskip,
      hnoise, hcontrols, hgeo, ?_, hcached', hactions, hchain, hquiet, ⟨ns, hns, ?_⟩, hres⟩
    · simp only [onChunkFinalized, hing]
    · rw [hmax']
      exact hstep
    · intro he
      exact absurd (hing.symm.trans he) Bool.false_ne_true
  | true =>
    have hmount := hmount hing
    have hact : b.binding.actions[i]? = some (actionKey digest torch ((E.createRuntime plan).control i)) := by
      rw [hactions]
      exact actionsOf_get hlt
    obtain ⟨hclen, _⟩ := buildActionChain_get hchain
    obtain ⟨key, hkey⟩ : ∃ key, b.binding.chain[i]? = some key := by
      refine ⟨_, List.getElem?_eq_getElem ?_⟩
      rw [hclen, hactions, actionsOf_length]
      exact hlt
    have hpay : chunkPayload dim { b.runtime with selfKvCache := rings, generator := g } =
        coldPayload torch dim E plan i := chunkPayload_eq hlt hstep rfl hgeo
    generalize ha : (⟨b.binding.parent.getD ns.root, actionKey digest torch ((E.createRuntime plan).control i),
      key, (i : Int), coldPayload torch dim E plan i, latent,
      payloadBytes dim (coldPayload torch dim E plan i), none⟩ : IngestArgs (LayerValue T) L) = a
    have htake : (actionsOf E torch digest plan).take i ++ [a.action] =
        (actionsOf E torch digest plan).take (i + 1) := by
      rw [List.take_add_one, ← hactions, hact, ← ha]
      rfl
    have hchained : Chained digest b.forest a := by
      apply chained_of_chain htruth.sturdy hchain (i := i)
      · rw [hactions, hmount, ← ha]
      · rw [hact, ← ha]
      · rw [hkey, ← ha]
      · rw [← ha]
    have hleads : Leads digest torch E r ((actionsOf E torch digest plan).take i ++ [a.action]) plan i :=
      ⟨hroot, hlt, htake⟩
    obtain ⟨m, f', s', hin, ht', hm, _⟩ := htruth.ingest hx.hash hx.store (E.config plan) hleads
      (by rw [hmount, ← ha]) hchained (by rw [← ha]) (by rw [hlat, ← ha]) (by rw [← ha])
    rw [← ha] at hin
    refine ⟨{ b with
        forest := f', store := s', binding := { b.binding with parent := some m }
        runtime := { b.runtime with selfKvCache := rings, generator := g } },
      ?_, ht', hskip, hnoise, hcontrols, hgeo, ?_, hcached', hactions, hchain, hquiet,
      ⟨ns, hns, fun _ => ?_⟩, hres⟩
    · simp only [onChunkFinalized, hing, hns, hact, hkey, hpay]
      rw [hin]
      simp only [hquiet, Bool.false_eq_true, ↓reduceIte]
    · rw [hmax']
      exact hstep
    · rw [hmax', ← htake]
      exact hm

theorem coldLatent_isSome (hlt : i < (E.noiseChunks plan.keys).length) :
    ∃ latent, coldLatent E torch plan i = some latent := by
  rw [coldLatent, coldStep, List.getElem?_eq_getElem hlt]
  exact ⟨_, rfl⟩

/-- One turn of the chunk loop gives the cold run's latent, from the cache or not. -/
theorem sessionChunk_cold (hx : Exact digest S torch dim E)
    (hroot : sessionRootHash digest plan.session plan.modelFingerprint = some r)
    (hlt : i < (E.noiseChunks plan.keys).length) (h : AtChunk digest S torch dim E r plan K i b) :
    ∃ latent b', sessionChunk S torch dim E plan b i = (.ok latent, b') ∧
      coldLatent E torch plan i = some latent ∧ AtChunk digest S torch dim E r plan K (i + 1) b' := by
  obtain ⟨latent, hlat⟩ : ∃ latent, coldLatent E torch plan i = some latent := coldLatent_isSome hlt
  have hcached := h.cached i (Nat.le_refl i)
  have herase : ∀ j, i ≤ j → (b.runtime.worldKvCachedLatents.erase (i : Int)).get? (j : Int) =
      if j = i then none else if j < K then some (coldLatent E torch plan j) else none := by
    intro j hj
    rw [Dict.get?_erase, h.cached j hj]
    by_cases hji : j = i
    · rw [if_pos hji, if_pos (by rw [hji])]
    · rw [if_neg hji, if_neg (by omega)]
  by_cases hi : i < K
  · rw [if_pos hi, hlat] at hcached
    refine ⟨latent, { b with runtime := { b.runtime with
        worldKvCachedLatents := b.runtime.worldKvCachedLatents.erase (i : Int) } }, ?_, hlat, ?_⟩
    · simp only [sessionChunk, hcached]
    · have hmax : max (i + 1) K = max i K := by omega
      refine ⟨h.truthful, h.skipped, h.noise, h.controls, h.geo, by rw [hmax]; exact h.rings, ?_, h.actions,
        h.chain, h.quiet, by rw [hmax]; exact h.mount, h.resumed⟩
      intro j hj
      rw [herase j (Nat.le_of_succ_le hj), if_neg (by omega)]
  · have hK := Nat.not_lt.mp hi
    have hmax : max i K = i := Nat.max_eq_left hK
    rw [if_neg hi] at hcached
    have hrings := h.rings
    rw [hmax] at hrings
    have hcold : InStep E torch plan i _ _ := cold_inStep i (Nat.le_of_lt hlt)
    obtain ⟨x, hnoise⟩ : ∃ x, (E.noiseChunks plan.keys)[i]? = some x := ⟨_, List.getElem?_eq_getElem hlt⟩
    obtain ⟨latent', rings, g, hd, hlat', hstep⟩ := denoise_inStep hrings hnoise (hrings.visible_eq hcold).1
    have hcontrol : b.runtime.control i = (E.createRuntime plan).control i := by
      rw [Runtime.control, h.controls]
      rfl
    have herased : AtChunk digest S torch dim E r plan K i { b with runtime := { b.runtime with
        worldKvCachedLatents := b.runtime.worldKvCachedLatents.erase (i : Int) } } := by
      refine ⟨h.truthful, h.skipped, h.noise, h.controls, h.geo, h.rings, ?_, h.actions, h.chain, h.quiet,
        h.mount, h.resumed⟩
      intro j hj
      rw [herase j hj]
      by_cases hji : j = i
      · rw [if_pos hji, if_neg (by omega)]
      · rw [if_neg hji]
    obtain ⟨b', hfin, hnext⟩ := finalized hx hroot hK hlt hlat' herased hstep
    refine ⟨latent', b', ?_, hlat', hnext⟩
    rw [← h.noise] at hnoise
    rw [← hcontrol] at hd
    simp only [sessionChunk, hcached, hnoise]
    have hd' : E.denoiseChunk torch plan.keys i x (Runtime.control { b.runtime with
        worldKvCachedLatents := b.runtime.worldKvCachedLatents.erase (i : Int) } i) b.runtime.generator
        b.runtime.selfKvCache = (latent', rings, g) := hd
    rw [hd']
    dsimp only at hfin ⊢
    rw [hfin]

theorem sessionChunks_cold (hx : Exact digest S torch dim E)
    (hroot : sessionRootHash digest plan.session plan.modelFingerprint = some r) {m : Nat}
    (hle : i + m ≤ (E.noiseChunks plan.keys).length) (h : AtChunk digest S torch dim E r plan K i b) :
    ∃ b', sessionChunks S torch dim E plan b (List.range' i m) =
        (.ok ((List.range' i m).filterMap (coldLatent E torch plan)), b') ∧
      AtChunk digest S torch dim E r plan K (i + m) b' := by
  induction m generalizing i b with
  | zero => exact ⟨b, rfl, h⟩
  | succ m ih =>
    obtain ⟨latent, b1, h1, hlat, hb1⟩ := sessionChunk_cold hx hroot (by omega) h
    obtain ⟨b2, h2, hb2⟩ := ih (i := i + 1) (by omega) hb1
    refine ⟨b2, ?_, by rw [← Nat.add_assoc, Nat.add_right_comm]; exact hb2⟩
    simp only [List.range'_succ, sessionChunks, h1, h2, List.filterMap_cons, hlat]

/-- A session that asks for more chunks than it has noise for stores nothing for these. -/
theorem sessionChunks_truthful (hx : Exact digest S torch dim E)
    (hroot : sessionRootHash digest plan.session plan.modelFingerprint = some r) (m : Nat)
    (h : AtChunk digest S torch dim E r plan K i b) :
    Truthful digest S torch dim E (sessionChunks S torch dim E plan b (List.range' i m)).2.forest
      (sessionChunks S torch dim E plan b (List.range' i m)).2.store := by
  induction m generalizing i b with
  | zero => exact h.truthful
  | succ m ih =>
    by_cases hlt : i < (E.noiseChunks plan.keys).length
    · obtain ⟨latent, b1, h1, _, hb1⟩ := sessionChunk_cold hx hroot hlt h
      have := ih hb1
      simp only [List.range'_succ, sessionChunks, h1]
      generalize sessionChunks S torch dim E plan b1 (List.range' (i + 1) m) = res at this ⊢
      obtain ⟨e | latents, b2⟩ := res
      · exact this
      · exact this
    · have hcached := h.cached i (Nat.le_refl i)
      have hskip := h.skipped
      rw [if_neg (by omega)] at hcached
      have hnoise : b.runtime.noiseChunks[i]? = none := by
        rw [h.noise]
        exact List.getElem?_eq_none (Nat.not_lt.mp hlt)
      simp only [List.range'_succ, sessionChunks, sessionChunk, hcached, hnoise]
      exact h.truthful

end

theorem runSession_error {plan : SessionPlan C} {e : PyError} {b : Bound σ N C L ρ β}
    (h : onRuntimeCreated digest S torch dim (E.config plan) plan.now (start E plan f s) plan.session = (.error e, b)) :
    runSession digest S torch dim E plan f s = (.error e, b) := by
  unfold start at h
  simp only [runSession, h]

theorem runSession_ok {plan : SessionPlan C} {b : Bound σ N C L ρ β}
    (h : onRuntimeCreated digest S torch dim (E.config plan) plan.now (start E plan f s) plan.session = (.ok (), b)) :
    runSession digest S torch dim E plan f s = sessionChunks S torch dim E plan b (List.range plan.chunks) := by
  unfold start at h
  simp only [runSession, h]

theorem runSession_truthful (hx : Exact digest S torch dim E) (h : Truthful digest S torch dim E f s)
    (plan : SessionPlan C) :
    Truthful digest S torch dim E (runSession digest S torch dim E plan f s).2.forest
      (runSession digest S torch dim E plan f s).2.store := by
  rcases created hx h plan with ⟨e, b, hb, ht, _⟩ | ⟨r, K, b, hroot, hb, hat, _, _⟩
  · rw [runSession_error hb]
    exact ht
  · rw [runSession_ok hb, List.range_eq_range']
    exact sessionChunks_truthful hx hroot plan.chunks hat

theorem visit_truthful (hx : Exact digest S torch dim E) {fs : NamespaceForest × σ}
    (h : Truthful digest S torch dim E fs.1 fs.2) (v : Visit C) :
    Truthful digest S torch dim E (visit digest S torch dim E fs v).1
      (visit digest S torch dim E fs v).2 := by
  cases v with
  | session plan => exact runSession_truthful hx h plan
  | evict n =>
    simp only [visit]
    split
    · rename_i hn
      exact h.evict hx.hash hx.store hn
    · exact h

theorem history_truthful (hx : Exact digest S torch dim E) {fs : NamespaceForest × σ}
    (h : Truthful digest S torch dim E fs.1 fs.2) (history : List (Visit C)) :
    Truthful digest S torch dim E (history.foldl (visit digest S torch dim E) fs).1
      (history.foldl (visit digest S torch dim E) fs).2 := by
  induction history generalizing fs with
  | nil => exact h
  | cons v history ih => exact ih (visit_truthful hx h v)

/-- Whatever happened before, a session gives what a run without the cache gives. -/
theorem exact_replay (hx : Exact digest S torch dim E) (s : σ) (history : List (Visit C))
    {plan : SessionPlan C} {r : Bytes} {chain : List Bytes}
    (hroot : sessionRootHash digest plan.session plan.modelFingerprint = some r)
    (hchain : buildActionChain digest r ((actionsOf E torch digest plan).map ActionKey.bytes) = some chain)
    (hle : plan.chunks ≤ (E.noiseChunks plan.keys).length) :
    ∃ K b, runSession digest S torch dim E plan
        (history.foldl (visit digest S torch dim E) (NamespaceForest.empty, s)).1
        (history.foldl (visit digest S torch dim E) (NamespaceForest.empty, s)).2 =
          (.ok (E.coldRun torch plan plan.chunks).outputs, b) ∧
      b.binding.lastFastForward = K ∧ K ≤ (E.noiseChunks plan.keys).length ∧
      b.runtime.selfKvCache.map KvCache.visible =
        (E.coldRun torch plan (max plan.chunks K)).rings.map KvCache.visible ∧
      b.runtime.generator = (E.coldRun torch plan (max plan.chunks K)).generator := by
  have ht : Truthful digest S torch dim E (NamespaceForest.empty, s).1 (NamespaceForest.empty, s).2 :=
    empty_truthful s
  have h := history_truthful hx ht history
  generalize history.foldl (visit digest S torch dim E) (NamespaceForest.empty, s) = fs at h ⊢
  obtain ⟨f, s⟩ := fs
  dsimp only at h ⊢
  rcases created hx h plan with ⟨e, b, _, _, hno⟩ | ⟨r', K, b, hroot', hb, hat, _, _⟩
  · rw [hno r hroot] at hchain
    cases hchain
  · rw [← Nat.zero_add plan.chunks] at hle
    obtain ⟨b', hrun, hend⟩ := sessionChunks_cold hx hroot' hle hat
    rw [Nat.zero_add] at hle hend
    have hmax : max plan.chunks K ≤ (E.noiseChunks plan.keys).length := Nat.max_le.mpr ⟨hle, hat.skipped⟩
    have hcold : InStep E torch plan (max plan.chunks K) _ _ := cold_inStep (max plan.chunks K) hmax
    refine ⟨K, b', ?_, hend.resumed, hat.skipped, hend.rings.visible_eq hcold⟩
    rw [runSession_ok hb, List.range_eq_range', hrun, coldRun_outputs hle, List.range_eq_range']

end

/-- The latent and the KV of a chunk count the noise, the draws so far, the window and the control. -/
def countingStep (weight : Option (List Rat) → Nat) (x : List Nat) (c : Option (List Rat)) (g : Nat)
    (rings : List (KvCache Nat)) : Nat :=
  x.sum + g + (rings.map fun kv => kv.k.sum + kv.globalEnd).sum + weight c

def countingEngine (noise : List (List Nat)) (weight : Option (List Rat) → Nat) :
    Engine (List Nat) (List Rat) (List Nat) Nat Nat where
  geo _ := ⟨1, 1, 1⟩
  bufFrames _ := 2
  layers _ := 1
  timesteps _ := 2
  noiseChunks _ := noise
  generator _ := 0
  zero := 0
  step _ _ x c g rings :=
    ([countingStep weight x c g rings],
      [[([countingStep weight x c g rings], [countingStep weight x c g rings])]])
  roomy _ := ⟨Nat.one_pos, Nat.one_pos, Nat.le_refl 2⟩
  count _ _ _ _ _ _ := rfl
  writes _ _ _ _ _ _ := by simp [Geometry.chunkTokens]

def demoSession : SessionConfig := ⟨"RGB", (1, 1), [0], "walk", fun _ => .none⟩

def demoPlan (controls : List (List Rat)) (chunks : Nat) : SessionPlan (List Rat) :=
  ⟨demoSession, [], some controls, 1, true, chunks, 0⟩

def keyedWeight (c : Option (List Rat)) : Nat :=
  if actionKey marked listTorch c = actionKey marked listTorch (some [0]) then 0 else 1

def rawWeight (c : Option (List Rat)) : Nat := if c = some [0] then 0 else 1

theorem keyed_exact : Exact marked (inMemoryTierStore (LayerValue (List Nat)) (List Nat)) listTorch listDim
    (countingEngine [[1], [2], [3]] keyedWeight) := by
  refine ⟨marked_hash, inMemory_keepsPuts _ _, fun _ => rfl, ?_⟩
  intro κ i x c c' g rings hc
  have hw : keyedWeight c = keyedWeight c' := by rw [keyedWeight, hc, keyedWeight]
  simp only [countingEngine, countingStep, hw]

set_option maxRecDepth 8000 in
/-- A fork after one shared chunk, with an eviction before it. -/
theorem exact_replay_fork : ∃ K b, runSession marked (inMemoryTierStore (LayerValue (List Nat)) (List Nat))
      listTorch listDim (countingEngine [[1], [2], [3]] keyedWeight) (demoPlan [[0], [1], [0]] 3)
      ([Visit.session (demoPlan [[0], [0], [0]] 3), .evict 2].foldl
        (visit marked (inMemoryTierStore (LayerValue (List Nat)) (List Nat)) listTorch listDim
          (countingEngine [[1], [2], [3]] keyedWeight)) (NamespaceForest.empty, {})).1
      ([Visit.session (demoPlan [[0], [0], [0]] 3), .evict 2].foldl
        (visit marked (inMemoryTierStore (LayerValue (List Nat)) (List Nat)) listTorch listDim
          (countingEngine [[1], [2], [3]] keyedWeight)) (NamespaceForest.empty, {})).2 =
        (.ok
          ((countingEngine [[1], [2], [3]] keyedWeight).coldRun listTorch (demoPlan [[0], [1], [0]] 3) 3).outputs, b) ∧
      b.binding.lastFastForward = K ∧
      K ≤ ((countingEngine [[1], [2], [3]] keyedWeight).noiseChunks (demoPlan [[0], [1], [0]] 3).keys).length ∧
      b.runtime.selfKvCache.map KvCache.visible =
        ((countingEngine [[1], [2], [3]] keyedWeight).coldRun listTorch (demoPlan [[0], [1], [0]] 3)
          (max 3 K)).rings.map KvCache.visible ∧
      b.runtime.generator = ((countingEngine [[1], [2], [3]] keyedWeight).coldRun listTorch
        (demoPlan [[0], [1], [0]] 3) (max 3 K)).generator := by
  have hroot : sessionRootHash marked demoSession [] =
      some ((sessionRootHash marked demoSession []).getD []) := by decide
  have hchain : buildActionChain marked ((sessionRootHash marked demoSession []).getD [])
      ((actionsOf (countingEngine [[1], [2], [3]] keyedWeight) listTorch marked (demoPlan [[0], [1], [0]] 3)).map
        ActionKey.bytes) = some ((buildActionChain marked ((sessionRootHash marked demoSession []).getD [])
      ((actionsOf (countingEngine [[1], [2], [3]] keyedWeight) listTorch marked (demoPlan [[0], [1], [0]] 3)).map
        ActionKey.bytes)).getD []) := by decide +kernel
  exact exact_replay keyed_exact {} [.session (demoPlan [[0], [0], [0]] 3), .evict 2] hroot hchain (by decide)

def stoodStill : NamespaceForest × InMemoryTier (LayerValue (List Nat)) (List Nat) :=
  visit marked (inMemoryTierStore (LayerValue (List Nat)) (List Nat)) listTorch listDim
    (countingEngine [[1]] rawWeight) (NamespaceForest.empty, {}) (.session (demoPlan [[0]] 1))

set_option maxRecDepth 8000 in
/-- A control below half a step of the grid gets the latent of standing still. -/
theorem fine_control_replayed :
    Hash marked ∧ KeepsPuts (inMemoryTierStore (LayerValue (List Nat)) (List Nat)) ∧
    TensorDim.Lawful listDim ∧
    (runSession marked (inMemoryTierStore (LayerValue (List Nat)) (List Nat)) listTorch listDim
      (countingEngine [[1]] rawWeight) (demoPlan [[4 / 10000000]] 1) stoodStill.1 stoodStill.2).1 = .ok [[1]] ∧
    ((countingEngine [[1]] rawWeight).coldRun listTorch (demoPlan [[4 / 10000000]] 1) 1).outputs = [[2]] :=
  ⟨marked_hash, inMemory_keepsPuts _ _, fun _ => rfl, by decide +kernel, by decide +kernel⟩

end CacheSeek.Proofs.ExactReplay
