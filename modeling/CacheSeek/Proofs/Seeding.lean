import CacheSeek.Proofs.RingLayout
import CacheSeek.Proofs.WindowPath
import CacheSeek.Prefix.Holdings

namespace CacheSeek.Proofs.Seeding
open CacheSeek.Lib CacheSeek.Prefix CacheSeek.Prefix.NamespaceForest CacheSeek.Prefix.RingKVWindow
open CacheSeek.Stores CacheSeek.Proofs.RingLayout CacheSeek.Proofs.WindowPath

variable {σ T L β : Type} {geo : Geometry} {dim : TensorDim T β} {bufFrames : Nat}

/-- The columns a payload has for the keys and for the values of its chunk. -/
def keysOf (dim : TensorDim T β) : Option (LayerValue T) → List β
  | some (.pair (some k) _) => dim.columns k
  | _ => []

def valuesOf (dim : TensorDim T β) : Option (LayerValue T) → List β
  | some (.pair _ (some v)) => dim.columns v
  | _ => []

def Present (value : Option (LayerValue T)) : Prop := ∃ k v, value = some (.pair (some k) (some v))

def Measured (geo : Geometry) (dim : TensorDim T β) (value : Option (LayerValue T)) : Prop :=
  ∀ k v, value = some (.pair (some k) (some v)) →
    (dim.columns k).length = geo.chunkTokens ∧ (dim.columns v).length = geo.chunkTokens

/-- `kv'` is `kv` with `frames` at the front of both buffers. -/
structure Laid (geo : Geometry) (frames : List Nat) (ck cv : Nat → List β) (kv kv' : KvCache β) :
    Prop where
  lengthK : kv'.k.length = kv.k.length
  lengthV : kv'.v.length = kv.v.length
  globalEnd : kv'.globalEnd = kv.globalEnd
  localEnd : kv'.localEnd = kv.localEnd
  k : kv'.k.take (frames.length * geo.frameTokens) = frames.flatMap (frameOf geo ck)
  v : kv'.v.take (frames.length * geo.frameTokens) = frames.flatMap (frameOf geo cv)

section
variable {blobs : List (Int × LayerValue T)} {kv : KvCache β}

theorem assignFrame_some (hc : 0 < geo.chunkSize) {buf : List β} {pos g : Nat} {t : T}
    (ht : (dim.columns t).length = geo.chunkTokens) (hbuf : (pos + 1) * geo.frameTokens ≤ buf.length) :
    assignFrame geo dim buf pos (some t) (g % geo.chunkSize * geo.frameTokens) =
      .ok (splice buf (pos * geo.frameTokens) (frameOf geo (fun _ => dim.columns t) g)) := by
  have hsrc := length_frameOf hc (x := fun _ => dim.columns t) (g := g) ht
  rw [Nat.add_one_mul] at hbuf
  have hwidth : ((buf.drop (pos * geo.frameTokens)).take geo.frameTokens).length = geo.frameTokens := by
    rw [List.length_take, List.length_drop]
    omega
  unfold frameOf at hsrc
  simp only [assignFrame, hsrc, hwidth, ↓reduceIte, frameOf]

/-- Frames are laid from the left, each after the one before. -/
theorem splice_frame {buf src : List β} {pos ft : Nat} (hbuf : (pos + 1) * ft ≤ buf.length)
    (hsrc : src.length = ft) :
    (splice buf (pos * ft) src).take ((pos + 1) * ft) = buf.take (pos * ft) ++ src ∧
      (splice buf (pos * ft) src).length = buf.length := by
  rw [Nat.add_one_mul] at hbuf
  exact ⟨take_splice (by rw [hsrc]; exact hbuf) (by rw [hsrc, Nat.add_one_mul]),
    length_splice (by rw [hsrc]; exact hbuf)⟩

theorem seedFrame_present (hc : 0 < geo.chunkSize) {pos g : Nat}
    (hp : Present (chunkBlob blobs (g / geo.chunkSize)))
    (hm : Measured geo dim (chunkBlob blobs (g / geo.chunkSize)))
    (hk : (pos + 1) * geo.frameTokens ≤ kv.k.length) (hv : (pos + 1) * geo.frameTokens ≤ kv.v.length) :
    seedFrame geo dim blobs kv pos g = (.ok (), { kv with
      k := splice kv.k (pos * geo.frameTokens) (frameOf geo (fun j => keysOf dim (chunkBlob blobs j)) g)
      v := splice kv.v (pos * geo.frameTokens)
        (frameOf geo (fun j => valuesOf dim (chunkBlob blobs j)) g) }) := by
  obtain ⟨k, v, he⟩ := hp
  obtain ⟨hkl, hvl⟩ := hm k v he
  have hkeys : frameOf geo (fun j => keysOf dim (chunkBlob blobs j)) g =
      frameOf geo (fun _ => dim.columns k) g := frameOf_congr (by simp only [he, keysOf])
  have hvalues : frameOf geo (fun j => valuesOf dim (chunkBlob blobs j)) g =
      frameOf geo (fun _ => dim.columns v) g := frameOf_congr (by simp only [he, valuesOf])
  simp only [seedFrame, he, unpack, assignFrame_some hc hkl hk, assignFrame_some hc hvl hv, hkeys,
    hvalues]

/-- A frame whose chunk lacks a tensor raises. -/
theorem seedFrame_absent {pos g : Nat} (hp : ¬ Present (chunkBlob blobs (g / geo.chunkSize))) :
    ∃ e kv', seedFrame geo dim blobs kv pos g = (.error e, kv') := by
  unfold seedFrame
  cases hb : chunkBlob blobs (g / geo.chunkSize) with
  | none => exact ⟨_, _, rfl⟩
  | some value =>
    cases value with
    | miss => exact ⟨_, _, rfl⟩
    | single t => exact ⟨_, _, rfl⟩
    | pair k v =>
      cases k with
      | none => exact ⟨_, _, rfl⟩
      | some k =>
        cases v with
        | some v => exact absurd ⟨k, v, hb⟩ hp
        | none =>
          dsimp only [unpack]
          split
          · exact ⟨_, _, rfl⟩
          · exact ⟨_, _, rfl⟩

/-- The frames go one after the other behind what is there. -/
theorem seedFrames_present (hc : 0 < geo.chunkSize) {frames : List Nat} {pos : Nat}
    (hp : ∀ g ∈ frames, Present (chunkBlob blobs (g / geo.chunkSize)))
    (hm : ∀ g ∈ frames, Measured geo dim (chunkBlob blobs (g / geo.chunkSize)))
    (hk : (pos + frames.length) * geo.frameTokens ≤ kv.k.length)
    (hv : (pos + frames.length) * geo.frameTokens ≤ kv.v.length) :
    ∃ kv', seedFrames geo dim blobs kv pos frames = (.ok (), kv') ∧
      kv'.k.length = kv.k.length ∧ kv'.v.length = kv.v.length ∧ kv'.globalEnd = kv.globalEnd ∧
      kv'.localEnd = kv.localEnd ∧
      kv'.k.take ((pos + frames.length) * geo.frameTokens) = kv.k.take (pos * geo.frameTokens) ++
        frames.flatMap (frameOf geo fun j => keysOf dim (chunkBlob blobs j)) ∧
      kv'.v.take ((pos + frames.length) * geo.frameTokens) = kv.v.take (pos * geo.frameTokens) ++
        frames.flatMap (frameOf geo fun j => valuesOf dim (chunkBlob blobs j)) := by
  induction frames generalizing kv pos with
  | nil => exact ⟨kv, rfl, rfl, rfl, rfl, rfl, by simp, by simp⟩
  | cons g frames ih =>
    have hlen : pos + (g :: frames).length = pos + 1 + frames.length := by
      rw [List.length_cons]
      omega
    rw [hlen] at hk hv ⊢
    have hslot : ∀ {n}, (pos + 1 + frames.length) * geo.frameTokens ≤ n →
        (pos + 1) * geo.frameTokens ≤ n := fun h =>
      Nat.le_trans (Nat.mul_le_mul_right _ (Nat.le_add_right _ _)) h
    have hseed := seedFrame_present hc (hp g List.mem_cons_self) (hm g List.mem_cons_self)
      (hslot hk) (hslot hv)
    obtain ⟨k, v, he⟩ := hp g List.mem_cons_self
    obtain ⟨hkl, hvl⟩ := hm g List.mem_cons_self k v he
    obtain ⟨h1, h2⟩ := splice_frame (hslot hk)
      (length_frameOf hc (x := fun j => keysOf dim (chunkBlob blobs j)) (g := g)
        (by simp only [he, keysOf, hkl]))
    obtain ⟨h3, h4⟩ := splice_frame (hslot hv)
      (length_frameOf hc (x := fun j => valuesOf dim (chunkBlob blobs j)) (g := g)
        (by simp only [he, valuesOf, hvl]))
    generalize hk1 : splice kv.k _ _ = k1 at hseed h1 h2
    generalize hv1 : splice kv.v _ _ = v1 at hseed h3 h4
    have hkl1 : (pos + 1 + frames.length) * geo.frameTokens ≤ (⟨k1, v1, kv.globalEnd, kv.localEnd⟩ :
        KvCache β).k.length := h2 ▸ hk
    have hvl1 : (pos + 1 + frames.length) * geo.frameTokens ≤ (⟨k1, v1, kv.globalEnd, kv.localEnd⟩ :
        KvCache β).v.length := h4 ▸ hv
    obtain ⟨kv', hs, h5, h6, h7, h8, h9, h10⟩ := ih
      (fun g' hg => hp g' (List.mem_cons_of_mem _ hg)) (fun g' hg => hm g' (List.mem_cons_of_mem _ hg))
      hkl1 hvl1
    refine ⟨kv', ?_, h5.trans h2, h6.trans h4, h7, h8, ?_, ?_⟩
    · simp only [seedFrames, hseed, hs]
    · rw [h9, h1, List.flatMap_cons, List.append_assoc]
    · rw [h10, h3, List.flatMap_cons, List.append_assoc]

/-- One frame without its payload, and the layer is not seeded. -/
theorem seedFrames_absent (dim : TensorDim T β) (kv : KvCache β) (pos : Nat) {frames : List Nat}
    (hp : ∃ g ∈ frames, ¬ Present (chunkBlob blobs (g / geo.chunkSize))) :
    ∃ e kv', seedFrames geo dim blobs kv pos frames = (.error e, kv') := by
  induction frames generalizing kv pos with
  | nil =>
    obtain ⟨g, hg, _⟩ := hp
    cases hg
  | cons g frames ih =>
    simp only [seedFrames]
    by_cases hg : Present (chunkBlob blobs (g / geo.chunkSize))
    · obtain ⟨g', hg', hno⟩ := hp
      rcases List.mem_cons.mp hg' with he | hg'
      · exact absurd (he ▸ hg) hno
      · split
        · exact ⟨_, _, rfl⟩
        · exact ih _ _ ⟨g', hg', hno⟩
    · obtain ⟨e, kv', he⟩ := seedFrame_absent hg
      rw [he]
      exact ⟨e, kv', rfl⟩

end

/-- Rings of `bufFrames` whole frames, which hold at least the sink. -/
structure Rings (geo : Geometry) (bufFrames : Nat) (rings : List (KvCache β)) : Prop where
  chunk : 0 < geo.chunkSize
  tokens : 0 < geo.frameTokens
  sink : geo.kvSinkSize ≤ bufFrames
  k : ∀ kv ∈ rings, kv.k.length = bufFrames * geo.frameTokens
  v : ∀ kv ∈ rings, kv.v.length = bufFrames * geo.frameTokens

section
variable {w : RingKVWindow β} {layer K : Nat} {kv : KvCache β} {blobs : List (Int × LayerValue T)}
  {depth : Int}

theorem framesToSeed_eq (h : Rings geo bufFrames w.selfKvCache) (hkv : kv ∈ w.selfKvCache)
    (hd : (depth + 1).toNat = K) :
    framesToSeed geo kv depth = physicalFrames geo bufFrames (K * geo.chunkSize) := by
  rw [framesToSeed, hd, h.k kv hkv, Nat.mul_div_cancel _ h.tokens]

theorem seedLayer_present (blobs : List (Int × LayerValue T)) (h : Rings geo bufFrames w.selfKvCache)
    (hkv : w.selfKvCache[layer]? = some kv) (hd : (depth + 1).toNat = K)
    (hp : ∀ g ∈ physicalFrames geo bufFrames (K * geo.chunkSize),
      Present (chunkBlob blobs (g / geo.chunkSize)))
    (hm : ∀ g ∈ physicalFrames geo bufFrames (K * geo.chunkSize),
      Measured geo dim (chunkBlob blobs (g / geo.chunkSize))) :
    ∃ kv', w.seedLayer geo dim layer blobs depth = (.ok (), ⟨w.selfKvCache.set layer kv',
        (physicalFrames geo bufFrames (K * geo.chunkSize)).length * geo.frameTokens⟩) ∧
      Laid geo (physicalFrames geo bufFrames (K * geo.chunkSize))
        (fun j => keysOf dim (chunkBlob blobs j)) (fun j => valuesOf dim (chunkBlob blobs j)) kv kv' := by
  have hmem := List.mem_of_getElem? hkv
  have hle : (0 + (physicalFrames geo bufFrames (K * geo.chunkSize)).length) * geo.frameTokens ≤
      bufFrames * geo.frameTokens := by
    rw [Nat.zero_add, length_physicalFrames h.sink]
    exact Nat.mul_le_mul_right _ (Nat.min_le_right _ _)
  obtain ⟨kv', hs, h1, h2, h3, h4, h5, h6⟩ := seedFrames_present h.chunk hp hm
    (by rw [h.k kv hmem]; exact hle) (by rw [h.v kv hmem]; exact hle)
  rw [Nat.zero_add, Nat.zero_mul, List.take_zero, List.nil_append] at h5 h6
  refine ⟨kv', ?_, h1, h2, h3, h4, h5, h6⟩
  simp only [seedLayer, hkv, framesToSeed_eq h hmem hd, hs]

/-- One missing frame is enough for the layer to raise. -/
theorem seedLayer_absent (dim : TensorDim T β) (blobs : List (Int × LayerValue T))
    (h : Rings geo bufFrames w.selfKvCache)
    (hkv : w.selfKvCache[layer]? = some kv) (hd : (depth + 1).toNat = K)
    (hp : ∃ g ∈ physicalFrames geo bufFrames (K * geo.chunkSize),
      ¬ Present (chunkBlob blobs (g / geo.chunkSize))) :
    ∃ e w', w.seedLayer geo dim layer blobs depth = (.error e, w') := by
  obtain ⟨e, kv', he⟩ := seedFrames_absent dim kv 0 hp
  refine ⟨e, { w with selfKvCache := w.selfKvCache.set layer kv' }, ?_⟩
  simp only [seedLayer, hkv, framesToSeed_eq h (List.mem_of_getElem? hkv) hd, he]

end

/-- In the states `I`, reads answer `A` and `B`, as far as these say, and stay in `I`. -/
structure Steady {P : Type} (S : KVTierStore σ P L) (I : σ → Prop)
    (A : BlobHandle → Nat → P → Prop) (B : String → Option L → Prop) : Prop where
  layer : ∀ {s}, I s → ∀ {h i p}, A h i p → (S.getLayer s h i).1 = .ok p
  skeleton : ∀ {s}, I s → ∀ {loc l}, B loc l → (S.getSkeleton s loc).1 = .ok l
  afterLayer : ∀ {s}, I s → ∀ h i, I (S.getLayer s h i).2
  afterSkeleton : ∀ {s}, I s → ∀ loc, I (S.getSkeleton s loc).2

def Answers {P : Type} (A : BlobHandle → Nat → P → Prop) (f : NamespaceForest)
    (node : Nat → NodeId) (js : List Nat) (layer : Nat) (value : Nat → P) : Prop :=
  ∀ j ∈ js, (f.node (node j)).depth = j ∧
    A (f.handle ((f.node (node j)).blob.getD 0)) layer (value j)

theorem readLayer_eq {P : Type} {S : KVTierStore σ P L} {I : σ → Prop}
    {A : BlobHandle → Nat → P → Prop} {B : String → Option L → Prop}
    (hS : Steady S I A B) {f : NamespaceForest} {node : Nat → NodeId} {js : List Nat} {layer : Nat}
    {value : Nat → P} (ha : Answers A f node js layer value) {s : σ} (hs : I s) :
    ∃ s', readLayer S f layer s (js.map node) = (.ok (js.map fun j : Nat => ((j : Int), value j)), s') ∧
      I s' := by
  induction js generalizing s with
  | nil => exact ⟨s, rfl, hs⟩
  | cons j js ih =>
    obtain ⟨hd, hj⟩ := ha j List.mem_cons_self
    have h1 := hS.layer hs hj
    obtain ⟨s', hr, hs'⟩ := ih (fun i hi => ha i (List.mem_cons_of_mem j hi)) (hS.afterLayer hs _ _)
    refine ⟨s', ?_, hs'⟩
    rw [List.map_cons, readLayer]
    generalize S.getLayer s (f.handle ((f.node (node j)).blob.getD 0)) layer = res at h1 hr ⊢
    obtain ⟨a, s1⟩ := res
    cases h1
    simp only [hr, hd, List.map_cons]

theorem lookup_map {P : Type} (js : List Nat) (value : Nat → P) (c : Nat) :
    (js.map fun j : Nat => ((j : Int), value j)).lookup (c : Int) = if c ∈ js then some (value c) else none := by
  induction js with
  | nil => rfl
  | cons j js ih =>
    by_cases h : c = j
    · simp [h]
    · have hb : ((c : Int) == (j : Int)) = false := by simpa using h
      simp [List.lookup_cons, hb, ih, h]

/-- Only chunks of the path have a blob to seed from. -/
theorem chunkBlob_map (js : List Nat) (value : Nat → LayerValue T) (c : Nat) :
    chunkBlob (js.map fun j : Nat => ((j : Int), value j)) c = if c ∈ js then some (value c) else none := by
  rw [chunkBlob, ← List.map_reverse, lookup_map]
  simp only [List.mem_reverse]

def gatheredValue (js : List Nat) (value : Nat → LayerValue T) (c : Nat) : Option (LayerValue T) :=
  if c ∈ js then some (value c) else none

theorem Rings.set {rings : List (KvCache β)} (h : Rings geo bufFrames rings) {l : Nat}
    {kv kv' : KvCache β} (hkv : rings[l]? = some kv) {frames : List Nat} {ck cv : Nat → List β}
    (hlaid : Laid geo frames ck cv kv kv') : Rings geo bufFrames (rings.set l kv') := by
  have hmem := List.mem_of_getElem? hkv
  refine ⟨h.chunk, h.tokens, h.sink, ?_, ?_⟩
  · intro x hx
    rcases List.mem_or_eq_of_mem_set hx with hx | rfl
    · exact h.k x hx
    · rw [hlaid.lengthK, h.k kv hmem]
  · intro x hx
    rcases List.mem_or_eq_of_mem_set hx with hx | rfl
    · exact h.v x hx
    · rw [hlaid.lengthV, h.v kv hmem]

section
variable {S : KVTierStore σ (LayerValue T) L} {I : σ → Prop}
  {A : BlobHandle → Nat → LayerValue T → Prop} {B : String → Option L → Prop}
  {f : NamespaceForest} {node : Nat → NodeId} {js : List Nat} {K : Nat} {depth : Int}
  {value : Nat → Nat → LayerValue T} {layers : List Nat} {s : σ} {w : RingKVWindow β}

theorem seedLayers_present (hS : Steady S I A B) (hr : Rings geo bufFrames w.selfKvCache)
    (hd : (depth + 1).toNat = K) (hl : ∀ l ∈ layers, l < w.selfKvCache.length) (hnodup : layers.Nodup)
    (ha : ∀ l ∈ layers, Answers A f node js l (value l))
    (hp : ∀ l ∈ layers, ∀ g ∈ physicalFrames geo bufFrames (K * geo.chunkSize),
      Present (gatheredValue js (value l) (g / geo.chunkSize)))
    (hm : ∀ l ∈ layers, ∀ c, Measured geo dim (gatheredValue js (value l) c)) (hs : I s) :
    ∃ s' w', seedLayers S (ringKVWindow geo dim) f (js.map node) depth layers s w = (.ok (), s', w') ∧
      I s' ∧ w'.selfKvCache.length = w.selfKvCache.length ∧
      (∀ l, l ∉ layers → w'.selfKvCache[l]? = w.selfKvCache[l]?) ∧
      (∀ l ∈ layers, ∃ kv kv', w.selfKvCache[l]? = some kv ∧ w'.selfKvCache[l]? = some kv' ∧
        Laid geo (physicalFrames geo bufFrames (K * geo.chunkSize))
          (fun j => keysOf dim (gatheredValue js (value l) j))
          (fun j => valuesOf dim (gatheredValue js (value l) j)) kv kv') ∧
      (layers ≠ [] → w'.localEndTokens =
        (physicalFrames geo bufFrames (K * geo.chunkSize)).length * geo.frameTokens) := by
  induction layers generalizing s w with
  | nil =>
    refine ⟨s, w, rfl, hs, rfl, fun _ _ => rfl, ?_, fun h => absurd rfl h⟩
    intro l hl
    cases hl
  | cons l layers ih =>
    obtain ⟨hlnot, hnodup⟩ := List.nodup_cons.mp hnodup
    have hlt := hl l List.mem_cons_self
    obtain ⟨kv, hkv⟩ : ∃ kv, w.selfKvCache[l]? = some kv := ⟨_, List.getElem?_eq_getElem hlt⟩
    obtain ⟨s1, hread, hs1⟩ := readLayer_eq hS (ha l List.mem_cons_self) hs
    have hblob : ∀ c, chunkBlob (js.map fun j : Nat => ((j : Int), value l j)) c =
        gatheredValue js (value l) c := fun c => chunkBlob_map js (value l) c
    obtain ⟨kv', hseed, hlaid⟩ := seedLayer_present (js.map fun j : Nat => ((j : Int), value l j)) hr hkv hd
      (fun g hg => by rw [hblob]; exact hp l List.mem_cons_self g hg)
      (fun g _ => by rw [hblob]; exact hm l List.mem_cons_self _)
    simp only [hblob] at hlaid
    obtain ⟨s', w', hrec, hs', hlen, hout, hin, hend⟩ := ih (s := s1) (w := ⟨w.selfKvCache.set l kv',
        (physicalFrames geo bufFrames (K * geo.chunkSize)).length * geo.frameTokens⟩) (hr.set hkv hlaid)
      (fun i hi => by rw [List.length_set]; exact hl i (List.mem_cons_of_mem _ hi)) hnodup
      (fun i hi => ha i (List.mem_cons_of_mem _ hi)) (fun i hi => hp i (List.mem_cons_of_mem _ hi))
      (fun i hi => hm i (List.mem_cons_of_mem _ hi)) hs1
    refine ⟨s', w', ?_, hs', by rw [hlen, List.length_set], ?_, ?_, ?_⟩
    · rw [seedLayers, hread]
      simp only [ringKVWindow, hseed] at hrec ⊢
      exact hrec
    · intro i hi
      rw [List.mem_cons, not_or] at hi
      rw [hout i hi.2, List.getElem?_set_ne (Ne.symm hi.1)]
    · intro i hi
      rcases List.mem_cons.mp hi with rfl | hi
      · exact ⟨kv, kv', hkv, by rw [hout i hlnot, List.getElem?_set_self hlt], hlaid⟩
      · obtain ⟨kvi, kvi', h1, h2, h3⟩ := hin i hi
        have hne : l ≠ i := fun he => hlnot (he ▸ hi)
        rw [List.getElem?_set_ne hne] at h1
        exact ⟨kvi, kvi', h1, h2, h3⟩
    · intro _
      cases layers with
      | nil =>
        simp only [seedLayers, Prod.mk.injEq, true_and] at hrec
        rw [← hrec.2]
      | cons => exact hend (List.cons_ne_nil _ _)

theorem seedLayers_absent (hS : Steady S I A B) (hr : Rings geo bufFrames w.selfKvCache)
    (hd : (depth + 1).toNat = K) (hl : ∀ l ∈ layers, l < w.selfKvCache.length)
    (ha : ∀ l ∈ layers, Answers A f node js l (value l))
    (hp : ∃ l ∈ layers, ∃ g ∈ physicalFrames geo bufFrames (K * geo.chunkSize),
      ¬ Present (gatheredValue js (value l) (g / geo.chunkSize)))
    (hm : ∀ l ∈ layers, ∀ c, Measured geo dim (gatheredValue js (value l) c)) (hs : I s) :
    ∃ e s' w', seedLayers S (ringKVWindow geo dim) f (js.map node) depth layers s w =
      (.error e, s', w') := by
  induction layers generalizing s w with
  | nil =>
    obtain ⟨l, hl, _⟩ := hp
    cases hl
  | cons l layers ih =>
    obtain ⟨kv, hkv⟩ : ∃ kv, w.selfKvCache[l]? = some kv :=
      ⟨_, List.getElem?_eq_getElem (hl l List.mem_cons_self)⟩
    obtain ⟨s1, hread, hs1⟩ := readLayer_eq hS (ha l List.mem_cons_self) hs
    have hblob : ∀ c, chunkBlob (js.map fun j : Nat => ((j : Int), value l j)) c =
        gatheredValue js (value l) c := fun c => chunkBlob_map js (value l) c
    rw [seedLayers, hread]
    by_cases hl' : ∀ g ∈ physicalFrames geo bufFrames (K * geo.chunkSize),
        Present (gatheredValue js (value l) (g / geo.chunkSize))
    · obtain ⟨kv', hseed, hlaid⟩ := seedLayer_present
        (js.map fun j : Nat => ((j : Int), value l j)) hr hkv hd
        (fun g hg => by rw [hblob]; exact hl' g hg) (fun g _ => by rw [hblob]; exact hm l List.mem_cons_self _)
      obtain ⟨l', hmem, g, hg, hno⟩ := hp
      have htail : l' ∈ layers := by
        rcases List.mem_cons.mp hmem with rfl | h
        · exact absurd (hl' g hg) hno
        · exact h
      simp only [ringKVWindow, hseed] at ih ⊢
      exact ih (hr.set hkv hlaid)
        (fun i hi => by rw [List.length_set]; exact hl i (List.mem_cons_of_mem _ hi))
        (fun i hi => ha i (List.mem_cons_of_mem _ hi)) ⟨l', htail, g, hg, hno⟩
        (fun i hi => hm i (List.mem_cons_of_mem _ hi)) hs1
    · simp only [not_forall] at hl'
      obtain ⟨g, hg, hno⟩ := hl'
      obtain ⟨e, w', he⟩ := seedLayer_absent dim (js.map fun j : Nat => ((j : Int), value l j)) hr hkv hd
        ⟨g, hg, by rw [hblob]; exact hno⟩
      simp only [ringKVWindow, he]
      exact ⟨e, s1, w', rfl⟩

end

end CacheSeek.Proofs.Seeding
