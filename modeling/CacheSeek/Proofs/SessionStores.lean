import CacheSeek.Proofs.ColdContents
import CacheSeek.Proofs.ExactReplay

namespace CacheSeek.Proofs.SessionStores
open CacheSeek.Lib CacheSeek.Prefix CacheSeek.Prefix.NamespaceForest CacheSeek.Stores
open CacheSeek.Proofs.ColdRun CacheSeek.Proofs.ColdContents CacheSeek.Proofs.ExactReplay
open CacheSeek.Proofs.FastForward CacheSeek.Proofs.KeyIdentity CacheSeek.Proofs.LastPayload
open CacheSeek.Proofs.SharedForest CacheSeek.Proofs.SnapshotLoad CacheSeek.Proofs.SnapshotRuns
open CacheSeek.Proofs.StoreLaws CacheSeek.Proofs.StoreSlots CacheSeek.Proofs.Worlds

variable {σ N C T L ρ β : Type} {digest : Bytes → Bytes} {S : KVTierStore σ (LayerValue T) L}
  {torch : Torch N C ρ} {dim : TensorDim T β} {E : Engine N C L ρ β} {I : σ → Prop}

/-- What holds of a store whatever is read, and whatever chunk of a cold run is put under its key. -/
structure Shelters (digest : Bytes → Bytes) (S : KVTierStore σ (LayerValue T) L) (torch : Torch N C ρ)
    (dim : TensorDim T β) (E : Engine N C L ρ β) (I : σ → Prop) : Prop where
  layer : ∀ {s} b i, I s → I (S.getLayer s b i).2
  skeleton : ∀ {s} loc, I s → I (S.getSkeleton s loc).2
  latent : ∀ {s k plan i l}, I s → KeyLeads digest torch E k plan i → coldLatent E torch plan i = some l →
    I (S.putSkeleton s (latentLocator k) l).2
  blob : ∀ {s k plan i} h, I s → KeyLeads digest torch E k plan i →
    I (S.putAsync s (kvLocator k) (coldPayload torch dim E plan i) h).2

section
variable (hI : Shelters digest S torch dim E I)
include hI

theorem readLayer_keeps (f : NamespaceForest) (layer : Nat) {s : σ} (h : I s) (path : List NodeId) :
    I (readLayer S f layer s path).2 := by
  induction path generalizing s with
  | nil => exact h
  | cons n path ih =>
    have h1 := hI.layer (f.handle ((f.node n).blob.getD 0)) layer h
    simp only [readLayer]
    generalize S.getLayer s (f.handle ((f.node n).blob.getD 0)) layer = x at h1 ⊢
    obtain ⟨res, s1⟩ := x
    cases res with
    | error e => exact h1
    | ok p =>
      have h2 := ih h1
      dsimp only
      generalize readLayer S f layer s1 path = y at h2 ⊢
      obtain ⟨res, s2⟩ := y
      cases res with
      | error e => exact h2
      | ok ps => exact h2

theorem seedLayers_keeps {ω : Type} (W : RollingWindow ω (LayerValue T)) (f : NamespaceForest) (path : List NodeId)
    (depth : Int) (layers : List Nat) {s : σ} (h : I s) (w : ω) : I (seedLayers S W f path depth layers s w).2.1 := by
  induction layers generalizing s w with
  | nil => exact h
  | cons layer layers ih =>
    have h1 := readLayer_keeps hI f layer h path
    simp only [seedLayers]
    generalize readLayer S f layer s path = x at h1 ⊢
    obtain ⟨res, s1⟩ := x
    cases res with
    | error e => exact h1
    | ok blobs =>
      dsimp only
      generalize W.seedLayer w layer blobs depth = y
      obtain ⟨res, w⟩ := y
      cases res with
      | error e => exact h1
      | ok u => exact ih h1 w

/-- Resuming only reads the store. -/
theorem materialize_keeps {ω : Type} (W : RollingWindow ω (LayerValue T)) (cfg : WorldKVConfig) (now : Rat)
    (f : NamespaceForest) {s : σ} (h : I s) (n : NodeId) (w : ω) : I (materialize S W cfg now f s n w).2.2.1 := by
  simp only [materialize]
  split
  · exact h
  · generalize (windowPath cfg f n).foldl (addRef 1) f = g
    have h1 := seedLayers_keeps hI W g (windowPath cfg f n) (g.node n).depth
      (List.range (pathLayers g (windowPath cfg f n))) h w
    generalize seedLayers S W g (windowPath cfg f n) (g.node n).depth
      (List.range (pathLayers g (windowPath cfg f n))) s w = x at h1 ⊢
    obtain ⟨res, s1, w1⟩ := x
    cases res with
    | error e => exact h1
    | ok u => exact h1

theorem readLatents_keeps (f : NamespaceForest) {s : σ} (h : I s) (path : List NodeId)
    (cached : Dict Int (Option L)) : I (readLatents S f s path cached).2 := by
  induction path generalizing s cached with
  | nil => exact h
  | cons n path ih =>
    simp only [readLatents]
    cases (f.node n).skeleton with
    | none => exact h
    | some sk =>
      have h1 := hI.skeleton sk.latentLocator h
      dsimp only
      generalize S.getSkeleton s sk.latentLocator = x at h1 ⊢
      obtain ⟨res, s1⟩ := x
      cases res with
      | error e => exact h1
      | ok latent => exact ih h1 _

theorem onRuntimeCreated_keeps (cfg : WorldKVConfig) (now : Rat) {b : Bound σ N C L ρ β} (h : I b.store)
    (session : SessionConfig) : I (onRuntimeCreated digest S torch dim cfg now b session).2.store := by
  simp only [onRuntimeCreated]
  cases sessionRootHash digest session b.binding.modelFingerprint with
  | none => exact h
  | some r =>
    dsimp only
    cases buildActionChain digest r ((chunkActionKeys digest torch b.runtime).map ActionKey.bytes) with
    | none => exact h
    | some chain =>
      dsimp only
      cases exactLookup cfg (b.forest.getOrCreateNamespace r r).1
          ⟨some r, some (chunkActionKeys digest torch b.runtime)⟩ with
      | miss reason => exact h
      | fastForward k node ns =>
        have h1 := materialize_keeps hI (ringKVWindow b.runtime.geo dim) cfg now
          (b.forest.getOrCreateNamespace r r).1 h node ⟨b.runtime.selfKvCache, 0⟩
        dsimp only
        generalize materialize S (ringKVWindow b.runtime.geo dim) cfg now (b.forest.getOrCreateNamespace r r).1
          b.store node ⟨b.runtime.selfKvCache, 0⟩ = x at h1 ⊢
        obtain ⟨res, f, s, w⟩ := x
        cases res with
        | error e => exact h1
        | ok found =>
          cases found with
          | false => exact h1
          | true =>
            have h2 := readLatents_keeps hI f h1 (pathUp f f.nodes.size (some node)).reverse ∅
            dsimp only at h2 ⊢
            generalize readLatents S f s (pathUp f f.nodes.size (some node)).reverse ∅ = y at h2 ⊢
            obtain ⟨res, s2⟩ := y
            cases res with
            | error e => exact h2
            | ok cached => exact h2

/-- A finished chunk is stored with the payload a cold run gives it. -/
theorem ingest_keeps (cfg : WorldKVConfig) (f : NamespaceForest) {s : σ} (h : I s)
    {a : IngestArgs (LayerValue T) L} {plan : SessionPlan C} {i : Nat}
    (hkey : KeyLeads digest torch E a.nodeKey plan i) (hpay : a.kvPayload = coldPayload torch dim E plan i)
    (hlat : coldLatent E torch plan i = some a.latent) : I (ingest S cfg f s a).2.2 := by
  have h1 := hI.latent h hkey hlat
  simp only [ingest]
  generalize f.commit a.parent a.action a.nodeKey a.depth = c
  generalize S.putSkeleton s (latentLocator a.nodeKey) a.latent = x at h1 ⊢
  obtain ⟨res, s1⟩ := x
  cases res with
  | error e => exact h1
  | ok u =>
    dsimp only
    generalize (((c.1.pinSink cfg c.2 a.depth).setSkeleton c.2 a.nodeKey).attachBlob c.2 (a.newHandle cfg)).2 = hdl
    have h2 := hI.blob hdl h1 hkey
    rw [← hpay] at h2
    generalize S.putAsync s1 (kvLocator a.nodeKey) a.kvPayload hdl = y at h2 ⊢
    obtain ⟨res, s2⟩ := y
    cases res with
    | published => exact h2
    | pending => exact h2
    | raised => exact h2

section
variable {r : Bytes} {plan : SessionPlan C} {K i : Nat} {b : Bound σ N C L ρ β}

theorem finalized_keeps (h : I b.store)
    (hroot : sessionRootHash digest plan.session plan.modelFingerprint = some r) (hi : K ≤ i)
    (hlt : i < (E.noiseChunks plan.keys).length) {latent : L} (hlat : coldLatent E torch plan i = some latent)
    (hat : AtChunk digest S torch dim E r plan K i b) {rings : List (KvCache β)} {g : ρ}
    (hstep : InStep E torch plan (i + 1) rings g) (cached : Dict Int (Option L)) :
    I (onChunkFinalized S dim (E.config plan) { b with runtime := { b.runtime with
      selfKvCache := rings, generator := g, worldKvCachedLatents := cached } } i latent).2.store := by
  obtain ⟨ns, hns, hmount⟩ := hat.mount
  rw [Nat.max_eq_left hi] at hmount
  cases hing : b.binding.ingestEnabled with
  | false =>
    simp only [onChunkFinalized, hing]
    exact h
  | true =>
    have hmount := hmount hing
    have hact : b.binding.actions[i]? = some (actionKey digest torch ((E.createRuntime plan).control i)) := by
      rw [hat.actions]
      exact actionsOf_get hlt
    obtain ⟨hclen, _⟩ := buildActionChain_get hat.chain
    obtain ⟨key, hkey⟩ : ∃ key, b.binding.chain[i]? = some key := by
      refine ⟨_, List.getElem?_eq_getElem ?_⟩
      rw [hclen, hat.actions, actionsOf_length]
      exact hlt
    have hpay :
        chunkPayload dim { b.runtime with selfKvCache := rings, generator := g, worldKvCachedLatents := cached } =
        coldPayload torch dim E plan i := chunkPayload_eq hlt hstep rfl hat.geo
    obtain ⟨hedge, -⟩ := chainEdge_of_chain hat.truthful.sturdy.shape hat.truthful.sturdy.edges hat.chain
      (by rw [hat.actions]; exact hmount) hact hkey
    have hleads : KeyLeads digest torch E key plan i := by
      refine ⟨r, (actionsOf E torch digest plan).take i ++
        [actionKey digest torch ((E.createRuntime plan).control i)], ⟨hroot, hlt, ?_⟩, ?_⟩
      · rw [List.take_add_one, ← hat.actions, hact]
        rfl
      · rw [pathKey_snoc, nodeAt_key hat.truthful.sturdy.shape hat.truthful.sturdy.edges hmount]
        exact hedge
    generalize ha : (⟨b.binding.parent.getD ns.root, actionKey digest torch ((E.createRuntime plan).control i),
      key, (i : Int), coldPayload torch dim E plan i, latent,
      payloadBytes dim (coldPayload torch dim E plan i), none⟩ : IngestArgs (LayerValue T) L) = a
    have h1 := ingest_keeps hI (E.config plan) b.forest h (a := a) (by rw [← ha]; exact hleads) (by rw [← ha])
      (by rw [hlat, ← ha])
    simp only [onChunkFinalized, hing, hns, hact, hkey, hpay, ha]
    generalize ingest S (E.config plan) b.forest b.store a = x at h1 ⊢
    obtain ⟨res, f, s⟩ := x
    cases res with
    | error e => exact h1
    | ok n =>
      simp only [hat.quiet, Bool.false_eq_true, ↓reduceIte]
      exact h1

theorem sessionChunk_keeps (h : I b.store)
    (hroot : sessionRootHash digest plan.session plan.modelFingerprint = some r)
    (hlt : i < (E.noiseChunks plan.keys).length) (hat : AtChunk digest S torch dim E r plan K i b) :
    I (sessionChunk S torch dim E plan b i).2.store := by
  have hcached := hat.cached i (Nat.le_refl i)
  by_cases hi : i < K
  · obtain ⟨latent, hlat⟩ : ∃ latent, coldLatent E torch plan i = some latent := coldLatent_isSome hlt
    rw [if_pos hi, hlat] at hcached
    simp only [sessionChunk, hcached]
    exact h
  · have hK := Nat.not_lt.mp hi
    rw [if_neg hi] at hcached
    have hrings := hat.rings
    rw [Nat.max_eq_left hK] at hrings
    have hcold : InStep E torch plan i _ _ := cold_inStep i (Nat.le_of_lt hlt)
    obtain ⟨x, hnoise⟩ : ∃ x, (E.noiseChunks plan.keys)[i]? = some x := ⟨_, List.getElem?_eq_getElem hlt⟩
    obtain ⟨latent, rings, g, hd, hlat, hstep⟩ := denoise_inStep hrings hnoise (hrings.visible_eq hcold).1
    have hcontrol : b.runtime.control i = (E.createRuntime plan).control i := by
      rw [Runtime.control, hat.controls]
      rfl
    rw [← hat.noise] at hnoise
    rw [← hcontrol] at hd
    have hfin := finalized_keeps hI h hroot hK hlt hlat hat hstep (b.runtime.worldKvCachedLatents.erase (i : Int))
    have hd' : E.denoiseChunk torch plan.keys i x (Runtime.control { b.runtime with
        worldKvCachedLatents := b.runtime.worldKvCachedLatents.erase (i : Int) } i) b.runtime.generator
        b.runtime.selfKvCache = (latent, rings, g) := hd
    simp only [sessionChunk, hcached, hnoise, hd']
    generalize onChunkFinalized S dim (E.config plan) _ i latent = y at hfin ⊢
    obtain ⟨res, b'⟩ := y
    cases res with
    | error e => exact hfin
    | ok u => exact hfin

/-- By the step lemma, over the chunks that are left. -/
theorem sessionChunks_keeps (hx : Exact digest S torch dim E) (h : I b.store)
    (hroot : sessionRootHash digest plan.session plan.modelFingerprint = some r) (m : Nat)
    (hat : AtChunk digest S torch dim E r plan K i b) :
    I (sessionChunks S torch dim E plan b (List.range' i m)).2.store := by
  induction m generalizing i b with
  | zero => exact h
  | succ m ih =>
    by_cases hlt : i < (E.noiseChunks plan.keys).length
    · have h1 := sessionChunk_keeps hI h hroot hlt hat
      obtain ⟨latent, b1, hb1, -, hat1⟩ := sessionChunk_cold hx hroot hlt hat
      rw [hb1] at h1
      have h2 := ih h1 hat1
      simp only [List.range'_succ, sessionChunks, hb1]
      generalize sessionChunks S torch dim E plan b1 (List.range' (i + 1) m) = res at h2 ⊢
      obtain ⟨e | latents, b2⟩ := res
      · exact h2
      · exact h2
    · -- past the noise the loop raises before anything is stored
      have hcached := hat.cached i (Nat.le_refl i)
      have hskip := hat.skipped
      rw [if_neg (by omega)] at hcached
      have hnoise : b.runtime.noiseChunks[i]? = none := by
        rw [hat.noise]
        exact List.getElem?_eq_none (Nat.not_lt.mp hlt)
      simp only [List.range'_succ, sessionChunks, sessionChunk, hcached, hnoise]
      exact h

end

/-- A session only reads, and puts chunks of cold runs under their keys. -/
theorem runSession_keeps (hx : Exact digest S torch dim E) {f : NamespaceForest} {s : σ}
    (ht : Truthful digest S torch dim E f s) (h : I s) (plan : SessionPlan C) :
    I (runSession digest S torch dim E plan f s).2.store := by
  have h1 := onRuntimeCreated_keeps hI (E.config plan) plan.now (b := start E plan f s) h plan.session
  rcases created hx ht plan with ⟨e, b, hb, -⟩ | ⟨r, K, b, hroot, hb, hat, -⟩
  · rw [hb] at h1
    rw [runSession_error hb]
    exact h1
  · rw [hb] at h1
    rw [runSession_ok hb, List.range_eq_range']
    exact sessionChunks_keeps hI hx h1 hroot plan.chunks hat

end

section
variable {γ τ N C ρ β : Type} {digest : Bytes → Bytes} {torch : Torch N C ρ} {dim : TensorDim τ β}
  {E : Engine N C τ ρ β} {B : TensorStore γ τ} {spec : τ → TensorSpec} {I : TensorStoreTier γ → Prop}

theorem getLayer_keeps (hI : Guarded digest torch dim E B spec I) {s : TensorStoreTier γ} (b : BlobHandle) (i : Nat)
    (h : I s) : I (s.getLayer B b i).2 := by
  have h1 := hI.read (TensorTier.layerKey b.locator i ++ ":k") h
  simp only [TensorStoreTier.getLayer]
  generalize s.getOne B (TensorTier.layerKey b.locator i ++ ":k") = x at h1 ⊢
  obtain ⟨res, s1⟩ := x
  cases res with
  | error e => exact h1
  | ok k =>
    cases k with
    | some k =>
      have h2 := hI.read (TensorTier.layerKey b.locator i ++ ":v") h1
      dsimp only at h2 ⊢
      generalize s1.getOne B (TensorTier.layerKey b.locator i ++ ":v") = y at h2 ⊢
      obtain ⟨res, s2⟩ := y
      cases res with
      | error e => exact h2
      | ok v => exact h2
    | none =>
      have h2 := hI.read (TensorTier.layerKey b.locator i) h1
      dsimp only at h2 ⊢
      generalize s1.getOne B (TensorTier.layerKey b.locator i) = y at h2 ⊢
      obtain ⟨res, s2⟩ := y
      cases res with
      | error e => exact h2
      | ok t =>
        cases t with
        | none => exact h2
        | some t => exact h2

theorem putAll_keeps (hI : Guarded digest torch dim E B spec I) {node : Bytes} {payload : List (LayerValue τ)} {n : Nat}
    {s : TensorStoreTier γ} (hp : ∀ (j : Nat) p, payload[j]? = some p → ∃ k v, p = .pair (some k) (some v) ∧
      ColdAt digest torch dim E (.layer node (n + j) .k) k ∧ ColdAt digest torch dim E (.layer node (n + j) .v) v)
    (h : I s) : I (s.putAll B spec (TensorTier.payloadWrites (kvLocator node) n payload)).2 := by
  induction payload generalizing s n with
  | nil => exact h
  | cons p payload ih =>
    obtain ⟨k, v, rfl, hk, hv⟩ := hp 0 p rfl
    have h1 := hI.put (hI.put h hk) hv
    apply ih _ h1
    intro j q hq
    obtain ⟨k', v', he, hk', hv'⟩ := hp (j + 1) q hq
    rw [← Nat.add_assoc, Nat.add_right_comm] at hk' hv'
    exact ⟨k', v', he, hk', hv'⟩

theorem guarded_shelters (hI : Guarded digest torch dim E B spec I) :
    Shelters digest (tensorStoreOver B spec) torch dim E I where
  layer b i h := getLayer_keeps hI b i h
  skeleton loc h := hI.read loc h
  latent {s k plan i l} h hkey hlat := by
    have hput := hI.put (a := .latent k) (t := l) h ⟨plan, i, hkey, hlat⟩
    exact hput
  blob {s k plan i} hdl h hkey := by
    have hput : I (s.putAll B spec (TensorTier.payloadWrites (kvLocator k) 0 (coldPayload torch dim E plan i))).2 := by
      apply putAll_keeps hI _ h
      intro j p hp
      have hj : j < E.layers plan.keys := by
        have hlt := (List.getElem?_eq_some_iff.mp hp).1
        simpa [coldPayload] using hlt
      rw [coldPayload_get hj, Option.some.injEq] at hp
      rw [Nat.zero_add]
      exact ⟨_, _, hp.symm, ⟨plan, i, hkey, hj, rfl⟩, ⟨plan, i, hkey, hj, rfl⟩⟩
    simp only [tensorStoreOver]
    generalize s.putAll B spec (TensorTier.payloadWrites (kvLocator k) 0 (coldPayload torch dim E plan i)) = x at hput ⊢
    obtain ⟨res, s1⟩ := x
    cases res with
    | error e => exact hput
    | ok u => exact hput

end

end CacheSeek.Proofs.SessionStores
