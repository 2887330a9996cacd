import CacheSeek.Proofs.Materialize
import CacheSeek.Proofs.SnapshotRoundTrip

namespace CacheSeek.Proofs.ResumeComplete
open CacheSeek.Lib CacheSeek.Prefix CacheSeek.Prefix.NamespaceForest CacheSeek.Prefix.RingKVWindow
open CacheSeek.Stores CacheSeek.Proofs.RingLayout CacheSeek.Proofs.WindowPath CacheSeek.Proofs.Worlds
open CacheSeek.Proofs.Seeding CacheSeek.Proofs.Materialize CacheSeek.Proofs.SnapshotLoad
open CacheSeek.Proofs.SnapshotRuns CacheSeek.Proofs.SnapshotRoundTrip

section
variable {T : Type} {ops : TensorOps T}

/-- The spec a tensor is read under, noted or from its sidecar. -/
def specOf (s : TensorTier T) (key : String) : Except PyError (Option TensorSpec) :=
  match s.specs.get? key with
  | some spec => .ok (some spec)
  | none =>
    match s.sidecars.bind fun m => m.get? (key ++ ":spec") with
    | none => .ok none
    | some raw => (TensorSpec.ofText raw).map some

/-- A read raises, finds no spec, or asks the store with the spec. -/
theorem getOne_cases (ops : TensorOps T) (s : TensorTier T) (key : String) :
    (∃ e, specOf s key = .error e ∧ s.getOne ops key = (.error e, s)) ∨
    (specOf s key = .ok none ∧ s.getOne ops key = (.ok none, s)) ∨
    ∃ spec s', specOf s key = .ok (some spec) ∧ s.getOne ops key = (s.view ops key spec, s') ∧
      (s' = s ∨ s' = { s with specs := s.specs.set key spec }) := by
  unfold TensorTier.getOne specOf
  cases s.specs.get? key with
  | some spec => exact Or.inr (Or.inr ⟨spec, s, rfl, rfl, Or.inl rfl⟩)
  | none =>
    cases s.sidecars.bind fun m => m.get? (key ++ ":spec") with
    | none => exact Or.inr (Or.inl ⟨rfl, rfl⟩)
    | some raw =>
      dsimp only
      cases TensorSpec.ofText raw with
      | error e => exact Or.inl ⟨e, rfl, rfl⟩
      | ok spec => exact Or.inr (Or.inr ⟨spec, _, rfl, rfl, Or.inr rfl⟩)

/-- A spec read once is remembered as it was. -/
theorem specOf_note {s : TensorTier T} {key : String} {spec : TensorSpec}
    (h : specOf s key = .ok (some spec)) (key' : String) :
    specOf { s with specs := s.specs.set key spec } key' = specOf s key' := by
  by_cases hk : key' = key
  · rw [hk, h]
    simp only [specOf, Dict.get?_set_self]
  · simp only [specOf, Dict.get?_set_ne _ _ hk]

/-- No read tells the two stores apart. -/
structure SameReads (s s' : TensorTier T) : Prop where
  spec : ∀ key, specOf s' key = specOf s key
  tensors : s'.tensors = s.tensors

theorem SameReads.getOne (ops : TensorOps T) {s s' : TensorTier T} (h : SameReads s s') (key : String) :
    (s'.getOne ops key).1 = (s.getOne ops key).1 ∧ SameReads s (s'.getOne ops key).2 := by
  have hview : ∀ spec, s'.view ops key spec = s.view ops key spec := fun spec => by
    simp only [TensorTier.view, h.tensors]
  have hspec := h.spec key
  rcases getOne_cases ops s key with ⟨e, h1, h2⟩ | ⟨h1, h2⟩ | ⟨spec, t, h1, h2, _⟩
  all_goals
    rcases getOne_cases ops s' key with ⟨e', h3, h4⟩ | ⟨h3, h4⟩ | ⟨spec', t', h3, h4, ht⟩
    all_goals
      rw [h3, h1] at hspec
      cases hspec
  · rw [h2, h4]
    exact ⟨rfl, h⟩
  · rw [h2, h4]
    exact ⟨rfl, h⟩
  · rw [h2, h4]
    refine ⟨hview spec, ?_⟩
    rcases ht with rfl | rfl
    · exact h
    · exact ⟨fun key' => (specOf_note h3 key').trans (h.spec key'), h.tensors⟩

/-- Two stores that read as `s` answer a read alike and go on reading as `s`. -/
theorem SameReads.getOne_pair (ops : TensorOps T) {s t t' : TensorTier T} (h : SameReads s t) (h' : SameReads s t')
    (key : String) : ∃ a u u', t.getOne ops key = (a, u) ∧ t'.getOne ops key = (a, u') ∧
      SameReads s u ∧ SameReads s u' := by
  obtain ⟨h1, h2⟩ := h.getOne ops key
  obtain ⟨h3, h4⟩ := h'.getOne ops key
  exact ⟨(s.getOne ops key).1, (t.getOne ops key).2, (t'.getOne ops key).2, Prod.ext h1 rfl,
    Prod.ext h3 rfl, h2, h4⟩

/-- Reading changes no later read. -/
theorem SameReads.getLayer (ops : TensorOps T) {s s' : TensorTier T} (h : SameReads s s') (b : BlobHandle)
    (layer : Nat) :
    (s'.getLayer ops b layer).1 = (s.getLayer ops b layer).1 ∧
      SameReads s (s'.getLayer ops b layer).2 := by
  obtain ⟨k, u, u', hk, hk', hu, hu'⟩ := SameReads.getOne_pair ops ⟨fun _ => rfl, rfl⟩ h
    (TensorTier.layerKey b.locator layer ++ ":k")
  simp only [TensorTier.getLayer, hk, hk']
  rcases k with e | k | k
  · exact ⟨rfl, hu'⟩
  · obtain ⟨t, x, x', ht, ht', _, hx'⟩ := SameReads.getOne_pair ops hu hu'
      (TensorTier.layerKey b.locator layer)
    simp only [ht, ht']
    rcases t with e | t | t
    · exact ⟨rfl, hx'⟩
    · exact ⟨rfl, hx'⟩
    · exact ⟨rfl, hx'⟩
  · obtain ⟨v, x, x', hv, hv', _, hx'⟩ := SameReads.getOne_pair ops hu hu'
      (TensorTier.layerKey b.locator layer ++ ":v")
    simp only [hv, hv']
    rcases v with e | v
    · exact ⟨rfl, hx'⟩
    · exact ⟨rfl, hx'⟩

theorem tensorStore_steady (ops : TensorOps T) (s : TensorTier T) :
    Steady (tensorStoreTierStore ops) (SameReads s) (fun b i v => (s.getLayer ops b i).1 = .ok v)
      (fun loc l => (s.getOne ops loc).1 = .ok l) where
  layer h _ _ _ hA := (h.getLayer ops _ _).1.trans hA
  skeleton h _ _ hB := (h.getOne ops _).1.trans hB
  afterLayer h b i := (h.getLayer ops b i).2
  afterSkeleton h loc := (h.getOne ops loc).2

end

variable {σ ω P L T β N C ρ : Type} {geo : Geometry} {dim : TensorDim T β} {bufFrames : Nat}
  {ops : TensorOps T} {cfg : WorldKVConfig}

def matched (f : NamespaceForest) (r : Bytes) (actions : List ActionKey) : List ActionKey :=
  actions.take (f.lookup r actions).matchedLen

def stored (ops : TensorOps T) (f : NamespaceForest) (s : TensorTier T) (r : Bytes)
    (p : List ActionKey) (l j : Nat) : LayerValue T :=
  match (s.getLayer ops (chunkHandle f r p j) l).1 with
  | .ok v => v
  | .error _ => .miss

def storedLatent (ops : TensorOps T) (f : NamespaceForest) (s : TensorTier T) (r : Bytes)
    (p : List ActionKey) (j : Nat) : Option T :=
  (f.node (chunkNode f r p j)).skeleton.bind fun sk =>
    match (s.getOne ops sk.latentLocator).1 with
    | .ok t => t
    | .error _ => none

/-- The store has nothing for the world `r` but what sessions with `count` layers put
there; any of it may be missing. -/
structure Sparse (ops : TensorOps T) (geo : Geometry) (dim : TensorDim T β) (f : NamespaceForest)
    (s : TensorTier T) (r : Bytes) (count : Nat) : Prop where
  layers : ∀ {p n b}, f.nodeAt r p = some n → (f.node n).blob = some b → (f.handle b).nLayers = count
  answers : ∀ {p n b}, f.nodeAt r p = some n → (f.node n).blob = some b → ∀ l < count,
    ∃ v, (s.getLayer ops (f.handle b) l).1 = .ok v ∧ Measured geo dim (some v)
  latents : ∀ {p n sk}, f.nodeAt r p = some n → (f.node n).skeleton = some sk →
    ∃ t, (s.getOne ops sk.latentLocator).1 = .ok t

structure Resuming (cfg : WorldKVConfig) (f : NamespaceForest) (r : Bytes) (actions : List ActionKey) :
    Prop where
  some : (matched f r actions).length ≠ 0
  enough : cfg.breakEvenK ≤ (matched f r actions).length
  window : gathered cfg (matched f r actions).length ≠ []

/-- Every ring goes on after `K` chunks, with stored data in all its frames. -/
def Seeded (geo : Geometry) (dim : TensorDim T β) (bufFrames K : Nat) (value : Nat → Nat → LayerValue T)
    (rings : List (KvCache β)) : Prop :=
  ∀ l kv, rings[l]? = some kv →
    kv.globalEnd = K * geo.chunkTokens ∧
    kv.localEnd = (physicalFrames geo bufFrames (K * geo.chunkSize)).length * geo.frameTokens ∧
    (∀ g ∈ physicalFrames geo bufFrames (K * geo.chunkSize),
      Present (some (value l (g / geo.chunkSize)))) ∧
    kv.k.take kv.localEnd = (physicalFrames geo bufFrames (K * geo.chunkSize)).flatMap
      (frameOf geo fun j => keysOf dim (some (value l j))) ∧
    kv.v.take kv.localEnd = (physicalFrames geo bufFrames (K * geo.chunkSize)).flatMap
      (frameOf geo fun j => valuesOf dim (some (value l j)))

def pointers (rings : List (KvCache β)) : List (Nat × Nat) :=
  rings.map fun kv => (kv.globalEnd, kv.localEnd)

/-- `try_fast_forward` resumes completely or leaves the rings to a cold start. -/
def ForwardOk (geo : Geometry) (dim : TensorDim T β) (bufFrames : Nat)
    (value : Nat → Nat → LayerValue T) (w : RingKVWindow β) :
    Except PyError FastForwardResult × NamespaceForest × σ × RingKVWindow β → Prop
  | (.error _, _) => False
  | (.ok res, _, _, w') =>
    (res.startChunk = 0 ∧ pointers w'.selfKvCache = pointers w.selfKvCache) ∨
    (0 < res.startChunk ∧ Seeded geo dim bufFrames res.startChunk value w'.selfKvCache)

/-- The same of `on_runtime_created`, which also answers for the generator and the latents. -/
def CreatedOk (geo : Geometry) (dim : TensorDim T β) (bufFrames : Nat)
    (value : Nat → Nat → LayerValue T) (b : Bound σ N C L ρ β) :
    Except PyError Unit × Bound σ N C L ρ β → Prop
  | (.error _, _) => False
  | (.ok _, b') =>
    (b'.binding.lastFastForward = 0 ∧
      pointers b'.runtime.selfKvCache = pointers b.runtime.selfKvCache ∧
      b'.runtime.generator = b.runtime.generator ∧
      b'.runtime.worldKvCachedLatents = b.runtime.worldKvCachedLatents) ∨
    (0 < b'.binding.lastFastForward ∧
      Seeded geo dim bufFrames b'.binding.lastFastForward value b'.runtime.selfKvCache ∧
      ∀ j < b'.binding.lastFastForward,
        ∃ latent, b'.runtime.worldKvCachedLatents.get? (j : Int) = some (some latent))

section
variable {digest : Bytes → Bytes} {f : NamespaceForest} {r : Bytes} {ns : Namespace}
  {actions : List ActionKey} {s : TensorTier T}

/-- The node of the answer ends the matched path. -/
theorem lookup_matched (actions : List ActionKey) (h : Shape f) (hr : f.resolve r = some ns) :
    ∃ n, f.lookup r actions = ⟨some ns, some n, (matched f r actions).length⟩ ∧
      (matched f r actions).length ≤ actions.length ∧
      f.nodeAt r (matched f r actions) = some n ∧
      ∀ j < (matched f r actions).length, f.hasKv (chunkNode f r (matched f r actions) j) = true := by
  have hroot := Shape.nodeAt_nil_iff.mpr ⟨ns, hr, rfl⟩
  obtain ⟨n, _, hn⟩ := h.descend_eq [] actions 0 hroot
  rw [List.nil_append] at hn
  change f.nodeAt r (actions.take (longest (f.published r) actions)) = some n at hn
  have hlookup := h.lookup_eq hr actions
  have hle := longest_le (f.published r) actions
  have hmatched : matched f r actions = actions.take (longest (f.published r) actions) := by
    rw [matched, hlookup]
  have hlen : (matched f r actions).length = longest (f.published r) actions := by
    rw [hmatched, List.length_take, Nat.min_eq_left hle]
  rw [hmatched] at hlen ⊢
  rw [hlen]
  refine ⟨n, by rw [hlookup, ← hn], hle, hn, ?_⟩
  intro j hj
  have hp := longest_holds (f.published r) actions (Nat.succ_pos j) hj
  have hnode := nodeAt_chunkNode hn j
  rw [List.take_take, Nat.min_eq_left hj] at hnode
  rwa [published, hnode] at hp

theorem matched_none (actions : List ActionKey) (hr : f.resolve r = none) :
    matched f r actions = [] := by
  rw [matched, Shape.lookup_none f hr, List.take_zero]

/-- A resume has passed the gate of both entries. -/
theorem Resuming.gate {cfg : WorldKVConfig} (h : Resuming cfg f r actions) :
    ¬ ((matched f r actions).length = 0 ∨ ((matched f r actions).length : Int) < cfg.breakEvenK) := by
  intro hgate
  have h1 := h.some
  have h2 := h.enough
  omega

/-- Past the gate, only the window can still keep a resume from happening. -/
theorem resuming_iff {cfg : WorldKVConfig} (hgate : ¬ ((matched f r actions).length = 0 ∨
    ((matched f r actions).length : Int) < cfg.breakEvenK)) :
    Resuming cfg f r actions ↔ gathered cfg (matched f r actions).length ≠ [] := by
  rw [not_or] at hgate
  constructor
  · intro h
    exact h.window
  · intro hwindow
    refine ⟨hgate.1, ?_, hwindow⟩
    have := hgate.2
    omega

/-- The reads of a sparse store along the matched path. -/
theorem Sparse.stocked {count : Nat} (h : Sparse ops geo dim f s r count) {p : List ActionKey}
    {n : NodeId} (hn : f.nodeAt r p = some n) (hp : ∀ j < p.length, f.hasKv (chunkNode f r p j) = true) :
    Stocked geo dim (fun b i v => (s.getLayer ops b i).1 = .ok v) f r p count (stored ops f s r p) := by
  have hblob : ∀ j < p.length, ∃ b, (f.node (chunkNode f r p j)).blob = some b ∧
      chunkHandle f r p j = f.handle b := by
    intro j hj
    obtain ⟨b, hb, _⟩ := hasKv_iff.mp (hp j hj)
    exact ⟨b, hb, by rw [chunkHandle, hb, Option.getD_some]⟩
  have hread : ∀ l < count, ∀ j < p.length, ∃ v, (s.getLayer ops (chunkHandle f r p j) l).1 = .ok v ∧
      stored ops f s r p l j = v ∧ Measured geo dim (some v) := by
    intro l hl j hj
    obtain ⟨b, hb, he⟩ := hblob j hj
    obtain ⟨v, hv, hm⟩ := h.answers (nodeAt_chunkNode hn j) hb l hl
    rw [← he] at hv
    exact ⟨v, hv, by rw [stored, hv], hm⟩
  refine ⟨hp, ?_, ?_, ?_⟩
  · intro j hj
    obtain ⟨b, hb, he⟩ := hblob j hj
    rw [he, h.layers (nodeAt_chunkNode hn j) hb]
  · intro l hl j hj
    obtain ⟨v, hv, he, _⟩ := hread l hl j hj
    rw [hv, he]
  · intro l hl j hj
    obtain ⟨v, _, he, hm⟩ := hread l hl j hj
    rw [he]
    exact hm

theorem seeded_of_resumed {K : Nat} {value : Nat → Nat → LayerValue T} {w w' : RingKVWindow β}
    (hc : Complete geo bufFrames cfg K w.selfKvCache.length value)
    (hlen : w'.selfKvCache.length = w.selfKvCache.length)
    (h : ∀ l < w.selfKvCache.length, ∃ kv kv', w.selfKvCache[l]? = some kv ∧
      w'.selfKvCache[l]? = some kv' ∧ Resumed geo bufFrames K (value l) dim kv kv') :
    Seeded geo dim bufFrames K value w'.selfKvCache := by
  intro l kv hkv
  have hl : l < w.selfKvCache.length := hlen ▸ (List.getElem?_eq_some_iff.mp hkv).1
  obtain ⟨_, kv', _, hkv', hres⟩ := h l hl
  rw [hkv] at hkv'
  cases hkv'
  exact ⟨hres.globalEnd, hres.localEnd, fun g hg => (hc l hl g hg).2, hres.k, hres.v⟩

section
variable (cfg : WorldKVConfig) (now : Rat) {w : RingKVWindow β}

/-- What `materialize` makes of the matched node, over a sparse store. -/
theorem materialize_cases (h : Shape f) (he : Edges (ChainEdge digest) f) {p : List ActionKey}
    {n : NodeId} (hn : f.nodeAt r p = some n)
    (hp : ∀ j < p.length, f.hasKv (chunkNode f r p j) = true)
    (hr : Rings geo bufFrames w.selfKvCache)
    (hs : Sparse ops geo dim f s r w.selfKvCache.length) :
    (gathered cfg p.length = [] ∧ materialize (tensorStoreTierStore ops) (ringKVWindow geo dim) cfg now
      f s n w = (.ok false, f, s, w)) ∨
    (gathered cfg p.length ≠ [] ∧
      ¬ Complete geo bufFrames cfg p.length w.selfKvCache.length (stored ops f s r p) ∧
      ∃ e f' s' w', materialize (tensorStoreTierStore ops) (ringKVWindow geo dim) cfg now
        f s n w = (.error e, f', s', w')) ∨
    (gathered cfg p.length ≠ [] ∧
      Complete geo bufFrames cfg p.length w.selfKvCache.length (stored ops f s r p) ∧
      ∃ f' s' w', materialize (tensorStoreTierStore ops) (ringKVWindow geo dim) cfg now
        f s n w = (.ok true, f', s', w') ∧ Untouched f f' ∧ SameReads s s' ∧
        Seeded geo dim bufFrames p.length (stored ops f s r p) w'.selfKvCache) := by
  have hst := hs.stocked hn hp
  have hsteady := tensorStore_steady ops s
  have hself : SameReads s s := ⟨fun _ => rfl, rfl⟩
  by_cases hg : gathered cfg p.length = []
  · exact Or.inl ⟨hg, materialize_empty now h he hn hg⟩
  · by_cases hc : Complete geo bufFrames cfg p.length w.selfKvCache.length (stored ops f s r p)
    · obtain ⟨f', s', w', hm, hs', hlen, hres⟩ := materialize_complete now h he hn hst hsteady hr
        hg hc hself
      refine Or.inr (Or.inr ⟨hg, hc, f', s', w', hm, ?_, hs', seeded_of_resumed hc hlen hres⟩)
      have := materialize_untouched (tensorStoreTierStore ops) (ringKVWindow geo dim) cfg now f s n w
      rwa [hm] at this
    · exact Or.inr (Or.inl ⟨hg, hc, materialize_incomplete now h he hn hst hsteady hr hg hc hself⟩)

theorem forward_iff (h : Shape f) (he : Edges (ChainEdge digest) f)
    (hr : Rings geo bufFrames w.selfKvCache) (hs : Sparse ops geo dim f s r w.selfKvCache.length) :
    ForwardOk geo dim bufFrames (stored ops f s r (matched f r actions)) w
      (tryFastForward (tensorStoreTierStore ops) (ringKVWindow geo dim) cfg now f s r actions w) ↔
    (Resuming cfg f r actions → Complete geo bufFrames cfg (matched f r actions).length
      w.selfKvCache.length (stored ops f s r (matched f r actions))) := by
  cases hns : f.resolve r with
  | none =>
    have hl := Shape.lookup_none f hns actions
    have hcold : tryFastForward (tensorStoreTierStore ops) (ringKVWindow geo dim) cfg now f s r actions w =
        (.ok ⟨0, none, none⟩, f, s, w) := by
      simp only [tryFastForward, hl]
    have hm : (matched f r actions).length = 0 := by
      rw [matched_none actions hns, List.length_nil]
    rw [hcold]
    exact ⟨fun _ hres => absurd hm hres.some, fun _ => Or.inl ⟨rfl, rfl⟩⟩
  | some ns =>
    obtain ⟨n, hl, hle, hn, hp⟩ := lookup_matched actions h hns
    by_cases hgate : (matched f r actions).length = 0 ∨
      ((matched f r actions).length : Int) < cfg.breakEvenK
    · have hcold : tryFastForward (tensorStoreTierStore ops) (ringKVWindow geo dim) cfg now f s r actions w =
          (.ok ⟨0, some ns.root, some ns⟩, f, s, w) := by
        simp only [tryFastForward, hl, hgate, ↓reduceIte]
      rw [hcold]
      exact ⟨fun _ hres => absurd hgate hres.gate, fun _ => Or.inl ⟨rfl, rfl⟩⟩
    · rw [resuming_iff hgate]
      generalize matched f r actions = p at hl hle hn hp hgate ⊢
      simp only [tryFastForward, hl, hgate, ↓reduceIte]
      rcases materialize_cases cfg now h he hn hp hr hs with ⟨hg, hm⟩ | ⟨hg, hc, e, f', s', w', hm⟩ |
        ⟨hg, hc, f', s', w', hm, _, _, hseeded⟩
      · rw [hm]
        exact ⟨fun _ hne => absurd hg hne, fun _ => Or.inl ⟨rfl, rfl⟩⟩
      · rw [hm]
        exact ⟨fun hf => hf.elim, fun hall => hc (hall hg)⟩
      · rw [hm]
        exact ⟨fun _ _ => hc, fun _ => Or.inr ⟨Nat.pos_of_ne_zero fun h0 => hgate (Or.inl h0), hseeded⟩⟩

end

end

section
variable {digest : Bytes → Bytes} {torch : Torch N C ρ} {now : Rat} {session : SessionConfig}
  {r : Bytes} {b : Bound (TensorTier T) N C T ρ β}

/-- An unmatched lookup is a miss, and a short match is gated. -/
theorem exactLookup_eq (cfg : WorldKVConfig) {f : NamespaceForest} {actions : List ActionKey} {ns : Namespace}
    {n : NodeId}
    {k : Nat} (h : f.lookup r actions = ⟨some ns, some n, k⟩) :
    exactLookup cfg f ⟨some r, some actions⟩ =
      if k = 0 then .miss "exact_prefix_no_match"
      else if (k : Int) < cfg.breakEvenK then .miss "exact_prefix_below_break_even"
      else .fastForward k n ns := by
  simp only [exactLookup, h]

/-- A world made for the session has nothing in it yet. -/
theorem matched_create {f : NamespaceForest} (h : Shape f) (c : Bytes) (actions : List ActionKey) :
    Shape (f.getOrCreateNamespace r c).1 ∧
      (f.getOrCreateNamespace r c).1.resolve r = some (f.getOrCreateNamespace r c).2 ∧
      matched (f.getOrCreateNamespace r c).1 r actions = matched f r actions := by
  cases hr : f.resolve r with
  | some ns =>
    rw [getOrCreate_old hr]
    exact ⟨h, hr, rfl⟩
  | none =>
    rw [getOrCreate_new hr]
    have hs := h.addWorld hr c
    refine ⟨hs, ?_, ?_⟩
    · rw [addWorld_resolve, if_pos rfl]
    · rw [matched, matched, hs.matchedLen_eq, h.matchedLen_eq, h.published_addWorld hr]

/-- Whatever the store answers for the latents of a path that was seeded. -/
theorem created_latents {f : NamespaceForest} {s : TensorTier T} {p : List ActionKey} {n : NodeId}
    (h : Shape f) (he : Edges (ChainEdge digest) f) (hn : f.nodeAt r p = some n) {count : Nat}
    (hs : Sparse ops geo dim f s r count) {f' : NamespaceForest} {s' : TensorTier T}
    (hf : Untouched f f') (hs' : SameReads s s') :
    ((∀ j < p.length, (f.node (chunkNode f r p j)).skeleton ≠ none) ∧ ∃ s'',
      readLatents (tensorStoreTierStore ops) f' s' (pathUp f' f'.nodes.size (some n)).reverse ∅ =
        (.ok (withLatents (storedLatent ops f s r p) ∅ (List.range p.length)), s'')) ∨
    ((∃ j < p.length, (f.node (chunkNode f r p j)).skeleton = none) ∧ ∃ s'',
      readLatents (tensorStoreTierStore ops) f' s' (pathUp f' f'.nodes.size (some n)).reverse ∅ =
        (.error .attributeError, s'')) := by
  have ht := hf.sameTrie
  have hn' : f'.nodeAt r p = some n := by rw [ht.nodeAt, hn]
  have hpath := pathUp_eq (ht.shape h) (he.sameTrie ht) hn' ((ht.shape h).nodeAt_lt hn')
  have hchunk : ∀ j, chunkNode f' r p j = chunkNode f r p j := fun j => by
    rw [chunkNode, chunkNode, ht.nodeAt]
  have hsk : ∀ m, (f'.node m).skeleton = (f.node m).skeleton := fun m => by
    obtain ⟨_, hm⟩ := hf.node m
    rw [hm]
  have hread : ∀ {j sk}, (f.node (chunkNode f r p j)).skeleton = some sk →
      (s.getOne ops sk.latentLocator).1 = .ok (storedLatent ops f s r p j) := by
    intro j sk hj
    obtain ⟨t, ht⟩ := hs.latents (nodeAt_chunkNode hn j) hj
    rw [storedLatent, hj, Option.bind_some, ht]
  rw [hpath, List.reverse_reverse]
  by_cases hall : ∀ j < p.length, (f.node (chunkNode f r p j)).skeleton ≠ none
  · have hdepths : ∀ j ∈ List.range p.length, (f'.node (chunkNode f' r p j)).depth = j := by
      intro j hj
      have hdepth := nodeAt_depth (ht.shape h) (he.sameTrie ht) (nodeAt_chunkNode hn' j)
      rw [List.length_take, Nat.min_eq_left (List.mem_range.mp hj)] at hdepth
      rw [hdepth]
      omega
    have hskels : ∀ j ∈ List.range p.length, ∃ sk,
        (f'.node (chunkNode f' r p j)).skeleton = some sk ∧
          (s.getOne ops sk.latentLocator).1 = .ok (storedLatent ops f s r p j) := by
      intro j hj
      obtain ⟨sk, hj⟩ := Option.ne_none_iff_exists'.mp (hall j (List.mem_range.mp hj))
      exact ⟨sk, by rw [hsk, hchunk, hj], hread hj⟩
    obtain ⟨s'', hr, _⟩ := readLatents_ok (tensorStore_steady ops s) hdepths hskels ∅ hs'
    exact Or.inl ⟨hall, s'', hr⟩
  · simp only [not_forall, not_not] at hall
    obtain ⟨j, hj, hnone⟩ := hall
    refine Or.inr ⟨⟨j, hj, hnone⟩, ?_⟩
    apply readLatents_none (tensorStore_steady ops s) (f := f') ?_ ?_ ∅ hs'
    · intro i _ sk hi
      rw [hsk, hchunk] at hi
      exact ⟨_, hread hi⟩
    · exact ⟨j, List.mem_range.mpr hj, by rw [hsk, hchunk, hnone]⟩

theorem created_iff (h : Shape b.forest) (he : Edges (ChainEdge digest) b.forest)
    (hroot : sessionRootHash digest session b.binding.modelFingerprint = some r) {chain : List Bytes}
    (hchain : buildActionChain digest r
      ((chunkActionKeys digest torch b.runtime).map ActionKey.bytes) = some chain)
    (hr : Rings b.runtime.geo bufFrames b.runtime.selfKvCache)
    (hs : Sparse ops b.runtime.geo dim b.forest b.store r b.runtime.selfKvCache.length) :
    CreatedOk b.runtime.geo dim bufFrames (stored ops b.forest b.store r
        (matched b.forest r (chunkActionKeys digest torch b.runtime))) b
      (onRuntimeCreated digest (tensorStoreTierStore ops) torch dim cfg now b session) ↔
    (Resuming cfg b.forest r (chunkActionKeys digest torch b.runtime) →
      Complete b.runtime.geo bufFrames cfg
        (matched b.forest r (chunkActionKeys digest torch b.runtime)).length
        b.runtime.selfKvCache.length (stored ops b.forest b.store r
          (matched b.forest r (chunkActionKeys digest torch b.runtime))) ∧
      ∀ j < (matched b.forest r (chunkActionKeys digest torch b.runtime)).length,
        ∃ t, storedLatent ops b.forest b.store r
          (matched b.forest r (chunkActionKeys digest torch b.runtime)) j = some t) := by
  have hlen : (chunkActionKeys digest torch b.runtime).length = b.runtime.noiseChunks.length := by
    rw [chunkActionKeys, List.length_map, List.length_range]
  generalize hactions : chunkActionKeys digest torch b.runtime = actions at hchain hlen ⊢
  obtain ⟨h1, hres, hsame⟩ := matched_create (r := r) h r actions
  obtain ⟨n, hl, hle, hn, hp⟩ := lookup_matched actions h1 hres
  rw [hsame] at hl hle hn hp
  have hexact := exactLookup_eq cfg hl
  by_cases hgate : (matched b.forest r actions).length = 0 ∨
    ((matched b.forest r actions).length : Int) < cfg.breakEvenK
  · have hmiss : ∃ reason, exactLookup cfg (b.forest.getOrCreateNamespace r r).1
        ⟨some r, some actions⟩ = .miss reason := by
      rw [hexact]
      by_cases h0 : (matched b.forest r actions).length = 0
      · exact ⟨_, if_pos h0⟩
      · exact ⟨_, (if_neg h0).trans (if_pos (hgate.resolve_left h0))⟩
    obtain ⟨reason, hmiss⟩ := hmiss
    simp only [onRuntimeCreated, hroot, hactions, hchain, hmiss]
    exact ⟨fun _ hres => absurd hgate hres.gate, fun _ => Or.inl ⟨rfl, rfl, rfl, rfl⟩⟩
  · -- something is matched, so the world was there before
    obtain ⟨ns, hns⟩ : ∃ ns, b.forest.resolve r = some ns := by
      cases hns : b.forest.resolve r with
      | some ns => exact ⟨ns, rfl⟩
      | none =>
        rw [matched_none actions hns] at hgate
        exact absurd (Or.inl rfl) hgate
    rw [resuming_iff hgate]
    rw [getOrCreate_old hns] at hn hp hexact
    generalize matched b.forest r actions = p at hl hle hn hp hgate hexact ⊢
    rw [not_or] at hgate
    have hhit : exactLookup cfg b.forest ⟨some r, some actions⟩ = .fastForward p.length n ns := by
      rw [hexact, if_neg hgate.1, if_neg hgate.2]
    simp only [onRuntimeCreated, hroot, hactions, hchain, getOrCreate_old hns, hhit]
    rcases materialize_cases cfg now (w := ⟨b.runtime.selfKvCache, 0⟩) h he hn hp hr hs
      with ⟨hg, hm⟩ | ⟨hg, hc, e, f', s', w', hm⟩ | ⟨hg, hc, f', s', w', hm, hf', hs', hseeded⟩
    · rw [hm]
      exact ⟨fun _ hne => absurd hg hne, fun _ => Or.inl ⟨rfl, rfl, rfl, rfl⟩⟩
    · rw [hm]
      exact ⟨fun hf => hf.elim, fun hall => hc (hall hg).1⟩
    · rw [hm]
      dsimp only
      rcases created_latents h he hn hs hf' hs' with ⟨hsk, s'', hlat⟩ | ⟨⟨j, hj, hnone⟩, s'', hlat⟩
      · rw [hlat]
        dsimp only
        obtain ⟨g, hg'⟩ := burnSkipped_ok torch b.runtime.noiseChunks (b.runtime.timesteps - 1)
          b.runtime.generator (List.range p.length)
          (fun i hi => by have := List.mem_range.mp hi; omega)
        rw [hg']
        constructor
        · intro hok _
          refine ⟨hc, fun j hj => ?_⟩
          rcases hok with ⟨h0, _⟩ | ⟨_, _, hcached⟩
          · exact absurd h0 hgate.1
          · obtain ⟨t, ht⟩ := hcached j hj
            rw [get?_withLatents, if_pos (List.mem_range.mpr hj)] at ht
            exact ⟨t, Option.some.inj ht⟩
        · intro hall
          refine Or.inr ⟨Nat.pos_of_ne_zero hgate.1, hseeded, fun j hj => ?_⟩
          obtain ⟨t, ht⟩ := (hall hg).2 j hj
          refine ⟨t, ?_⟩
          rw [get?_withLatents, if_pos (List.mem_range.mpr hj), ht]
      · rw [hlat]
        refine ⟨fun hf => hf.elim, fun hall => ?_⟩
        obtain ⟨t, ht⟩ := (hall hg).2 j hj
        rw [storedLatent, hnone] at ht
        cases ht

end

/-- A resume is complete or does not happen exactly when nothing it needs is missing. -/
theorem resume_complete_iff {τ Q M : Type} {digest : Bytes → Bytes} {S : KVTierStore τ Q M}
    {W : RollingWindow ω Q} {cfg₀ : WorldKVConfig} {f : NamespaceForest} (hd : Hash digest)
    (hf : Reach digest S W cfg₀ f) (ops : TensorOps T) (cfg : WorldKVConfig) (now : Rat)
    (s : TensorTier T) :
    (∀ {geo : Geometry} {dim : TensorDim T β} {bufFrames r actions} {w : RingKVWindow β},
      Rings geo bufFrames w.selfKvCache → Sparse ops geo dim f s r w.selfKvCache.length →
      (ForwardOk geo dim bufFrames (stored ops f s r (matched f r actions)) w
        (tryFastForward (tensorStoreTierStore ops) (ringKVWindow geo dim) cfg now f s r actions w) ↔
      (Resuming cfg f r actions → Complete geo bufFrames cfg (matched f r actions).length
        w.selfKvCache.length (stored ops f s r (matched f r actions))))) ∧
    (∀ {torch : Torch N C ρ} {dim : TensorDim T β} {bufFrames r chain session}
      {b : Bound (TensorTier T) N C T ρ β}, b.forest = f → b.store = s →
      sessionRootHash digest session b.binding.modelFingerprint = some r →
      buildActionChain digest r
        ((chunkActionKeys digest torch b.runtime).map ActionKey.bytes) = some chain →
      Rings b.runtime.geo bufFrames b.runtime.selfKvCache →
      Sparse ops b.runtime.geo dim f s r b.runtime.selfKvCache.length →
      (CreatedOk b.runtime.geo dim bufFrames
        (stored ops f s r (matched f r (chunkActionKeys digest torch b.runtime))) b
        (onRuntimeCreated digest (tensorStoreTierStore ops) torch dim cfg now b session) ↔
      (Resuming cfg f r (chunkActionKeys digest torch b.runtime) →
        Complete b.runtime.geo bufFrames cfg
          (matched f r (chunkActionKeys digest torch b.runtime)).length b.runtime.selfKvCache.length
          (stored ops f s r (matched f r (chunkActionKeys digest torch b.runtime))) ∧
        ∀ j < (matched f r (chunkActionKeys digest torch b.runtime)).length, ∃ t,
          storedLatent ops f s r (matched f r (chunkActionKeys digest torch b.runtime)) j = some t))) := by
  have hsturdy := reach_sturdy hd hf
  refine ⟨fun hr hs => forward_iff cfg now hsturdy.shape hsturdy.edges hr hs, ?_⟩
  intro torch dim bufFrames r chain session b hbf hbs hroot hchain hr hs
  subst hbf hbs
  exact created_iff hsturdy.shape hsturdy.edges hroot hchain hr hs

def listOps : TensorOps (List Nat) := ⟨fun t => ⟨[t.length], "int64"⟩, fun t _ => .ok t⟩

def listDim : TensorDim (List Nat) Nat := ⟨id, id, fun t => t.length⟩

def roundHalfEven (x : Rat) : Int :=
  let d := x - x.floor
  if d < 1 / 2 then x.floor
  else if 1 / 2 < d then x.floor + 1
  else if x.floor % 2 = 0 then x.floor
  else x.floor + 1

/-- Controls that a quotient in float32 rounds like the exact one. -/
def listTorch : Torch (List Nat) (List Rat) Nat :=
  ⟨id, fun g _ => g + 1, List.map fun x => BitVec.ofInt 64 (roundHalfEven (x * 1000000))⟩

def donated : NamespaceForest × TensorTier (List Nat) :=
  (ingest (tensorStoreTierStore listOps) (makeRollingConfig 2 1 1 1)
    (NamespaceForest.empty.getOrCreateNamespace [1] [1]).1 {}
    { parent := 0, action := .int 7, nodeKey := (nodeKey marked [1] (ActionKey.int 7).bytes).getD [],
      depth := 0, kvPayload := [.pair (some [5]) (some [6])], latent := [9] }).2

theorem donated_reach : Reach marked (tensorStoreTierStore listOps)
    (ringKVWindow ⟨1, 1, 1⟩ listDim) (makeRollingConfig 2 1 1 1) donated.1 := by
  apply Reach.ingest (Reach.create Reach.empty (marked_apart []) [1])
  refine ⟨?_, ?_, ?_⟩
  · exact Nat.zero_lt_one
  · rfl
  · rfl

def valuesLost : TensorTier (List Nat) :=
  { donated.2 with tensors := donated.2.tensors.erase (TensorTier.layerKey (kvLocator
      ((nodeKey marked [1] (ActionKey.int 7).bytes).getD [])) 0 ++ ":v") }

def idleRing : RingKVWindow Nat := ⟨[⟨[0, 0], [0, 0], 0, 0⟩], 0⟩

theorem idleRing_rings : Rings ⟨1, 1, 1⟩ 2 idleRing.selfKvCache :=
  ⟨Nat.one_pos, Nat.one_pos, Nat.le_succ 1, by decide, by decide⟩

theorem donated_sparse (s : TensorTier (List Nat))
    (hk : ∃ v, (s.getLayer listOps (donated.1.handle 0) 0).1 = .ok v ∧
      Measured ⟨1, 1, 1⟩ listDim (some v))
    (hl : ∃ t, (s.getOne listOps (latentLocator
      ((nodeKey marked [1] (ActionKey.int 7).bytes).getD []))).1 = .ok t) :
    Sparse listOps ⟨1, 1, 1⟩ listDim donated.1 s [1] 1 := by
  have hsize : ∀ {p n}, donated.1.nodeAt [1] p = some n → n < 2 := fun hn =>
    (reach_sturdy marked_hash donated_reach).shape.nodeAt_lt hn
  have hblob : ∀ {p n b}, donated.1.nodeAt [1] p = some n → (donated.1.node n).blob = some b →
      b = 0 := by
    intro p n b hn hb
    match n, hsize hn with
    | 0, _ => cases hb
    | 1, _ =>
      cases hb
      rfl
  refine ⟨?_, ?_, ?_⟩
  · intro p n b hn hb
    rw [hblob hn hb]
    rfl
  · intro p n b hn hb l hl
    rw [hblob hn hb, Nat.lt_one_iff.mp hl]
    exact hk
  · intro p n sk hn hsk
    match n, hsize hn with
    | 0, _ => cases hsk
    | 1, _ =>
      cases hsk
      exact hl

theorem not_forwardOk {value : Nat → Nat → LayerValue T} {w : RingKVWindow β} {e : PyError}
    {res : Except PyError FastForwardResult × NamespaceForest × σ × RingKVWindow β}
    (h : res.1 = .error e) : ¬ ForwardOk geo dim bufFrames value w res := by
  obtain ⟨r, f, s, w'⟩ := res
  cases h
  exact id

/-- The matched chunk's values are missing, and the resume raises in the middle of the layer. -/
theorem missing_values_raise :
    Reach marked (tensorStoreTierStore listOps) (ringKVWindow ⟨1, 1, 1⟩ listDim)
      (makeRollingConfig 2 1 1 1) donated.1 ∧
    Rings ⟨1, 1, 1⟩ 2 idleRing.selfKvCache ∧
    Sparse listOps ⟨1, 1, 1⟩ listDim donated.1 valuesLost [1] idleRing.selfKvCache.length ∧
    (tryFastForward (tensorStoreTierStore listOps) (ringKVWindow ⟨1, 1, 1⟩ listDim)
      (makeRollingConfig 2 1 1 1) 0 donated.1 valuesLost [1] [.int 7] idleRing).1 =
        .error .typeError ∧
    ¬ ForwardOk ⟨1, 1, 1⟩ listDim 2 (stored listOps donated.1 valuesLost [1]
        (matched donated.1 [1] [.int 7])) idleRing
      (tryFastForward (tensorStoreTierStore listOps) (ringKVWindow ⟨1, 1, 1⟩ listDim)
        (makeRollingConfig 2 1 1 1) 0 donated.1 valuesLost [1] [.int 7] idleRing) := by
  have hraise : (tryFastForward (tensorStoreTierStore listOps) (ringKVWindow ⟨1, 1, 1⟩ listDim)
      (makeRollingConfig 2 1 1 1) 0 donated.1 valuesLost [1] [.int 7] idleRing).1 =
        .error .typeError := by decide
  refine ⟨donated_reach, idleRing_rings, donated_sparse _ ?_ ⟨some [9], by decide⟩, hraise,
    not_forwardOk hraise⟩
  refine ⟨.pair (some [5]) none, by decide, ?_⟩
  intro k v he
  cases he

/-- With everything in the store the resume is complete. -/
theorem resume_complete_one_chunk :
    ForwardOk ⟨1, 1, 1⟩ listDim 2 (stored listOps donated.1 donated.2 [1]
        (matched donated.1 [1] [.int 7])) idleRing
      (tryFastForward (tensorStoreTierStore listOps) (ringKVWindow ⟨1, 1, 1⟩ listDim)
        (makeRollingConfig 2 1 1 1) 0 donated.1 donated.2 [1] [.int 7] idleRing) := by
  have hsparse : Sparse listOps ⟨1, 1, 1⟩ listDim donated.1 donated.2 [1] idleRing.selfKvCache.length := by
    refine donated_sparse _ ⟨.pair (some [5]) (some [6]), by decide, ?_⟩ ⟨some [9], by decide⟩
    intro k v he
    cases he
    exact ⟨rfl, rfl⟩
  apply ((resume_complete_iff marked_hash donated_reach listOps (makeRollingConfig 2 1 1 1) 0
    donated.2 (N := List Nat) (C := List Rat) (ρ := Nat)).1 idleRing_rings hsparse).mpr
  intro _ l hl g hg
  have hframes : physicalFrames ⟨1, 1, 1⟩ 2 ((matched donated.1 [1] [.int 7]).length * 1) = [0] := by
    decide
  rw [hframes, List.mem_singleton] at hg
  rw [hg, Nat.lt_one_iff.mp hl]
  exact ⟨by decide, [5], [6], by decide⟩

end CacheSeek.Proofs.ResumeComplete
