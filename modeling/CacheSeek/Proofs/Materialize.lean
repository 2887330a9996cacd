import CacheSeek.Proofs.Seeding

namespace CacheSeek.Proofs.Materialize
open CacheSeek.Lib CacheSeek.Prefix CacheSeek.Prefix.NamespaceForest CacheSeek.Prefix.RingKVWindow
open CacheSeek.Stores CacheSeek.Proofs.RingLayout CacheSeek.Proofs.WindowPath CacheSeek.Proofs.Worlds
open CacheSeek.Proofs.Seeding

variable {σ T L β : Type} {geo : Geometry} {dim : TensorDim T β} {bufFrames : Nat}

/-- The handle of a path's chunk `j`. -/
def chunkHandle (f : NamespaceForest) (r : Bytes) (p : List ActionKey) (j : Nat) : BlobHandle :=
  f.handle ((f.node (chunkNode f r p j)).blob.getD 0)

/-- What reads of a path's blobs answer: `value l j` for chunk `j` in layer `l`. -/
structure Stocked (geo : Geometry) (dim : TensorDim T β)
    (A : BlobHandle → Nat → LayerValue T → Prop) (f : NamespaceForest) (r : Bytes)
    (p : List ActionKey) (count : Nat) (value : Nat → Nat → LayerValue T) : Prop where
  published : ∀ j < p.length, f.hasKv (chunkNode f r p j) = true
  layers : ∀ j < p.length, (chunkHandle f r p j).nLayers = count
  answer : ∀ l < count, ∀ j < p.length, A (chunkHandle f r p j) l (value l j)
  measured : ∀ l < count, ∀ j < p.length, Measured geo dim (some (value l j))

/-- Every frame the rings need comes from a gathered chunk that is there. -/
def Complete (geo : Geometry) (bufFrames : Nat) (cfg : WorldKVConfig) (K count : Nat)
    (value : Nat → Nat → LayerValue T) : Prop :=
  ∀ l < count, ∀ g ∈ physicalFrames geo bufFrames (K * geo.chunkSize),
    g / geo.chunkSize ∈ gathered cfg K ∧ Present (some (value l (g / geo.chunkSize)))

/-- A ring set up to go on after `K` chunks. -/
structure Resumed (geo : Geometry) (bufFrames K : Nat) (value : Nat → LayerValue T)
    (dim : TensorDim T β) (kv kv' : KvCache β) : Prop where
  lengthK : kv'.k.length = kv.k.length
  lengthV : kv'.v.length = kv.v.length
  globalEnd : kv'.globalEnd = K * geo.chunkTokens
  localEnd : kv'.localEnd =
    (physicalFrames geo bufFrames (K * geo.chunkSize)).length * geo.frameTokens
  k : kv'.k.take kv'.localEnd = (physicalFrames geo bufFrames (K * geo.chunkSize)).flatMap
    (frameOf geo fun j => keysOf dim (some (value j)))
  v : kv'.v.take kv'.localEnd = (physicalFrames geo bufFrames (K * geo.chunkSize)).flatMap
    (frameOf geo fun j => valuesOf dim (some (value j)))

theorem present_gathered {js : List Nat} {value : Nat → LayerValue T} {c : Nat} :
    Present (gatheredValue js value c) ↔ c ∈ js ∧ Present (some (value c)) := by
  unfold gatheredValue
  split
  · rename_i h
    exact ⟨fun hp => ⟨h, hp⟩, And.right⟩
  · rename_i h
    refine ⟨?_, fun hp => absurd hp.1 h⟩
    intro ⟨k, v, he⟩
    cases he

theorem measured_gathered {js : List Nat} {value : Nat → LayerValue T} {c : Nat}
    (h : c ∈ js → Measured geo dim (some (value c))) : Measured geo dim (gatheredValue js value c) := by
  unfold gatheredValue
  split
  · rename_i hc
    exact h hc
  · intro k v he
    cases he

section
variable {digest : Bytes → Bytes} {S : KVTierStore σ (LayerValue T) L} {I : σ → Prop}
  {A : BlobHandle → Nat → LayerValue T → Prop} {B : String → Option L → Prop}
  {cfg : WorldKVConfig} {f : NamespaceForest} {r : Bytes} {p : List ActionKey} {n : NodeId}
  {value : Nat → Nat → LayerValue T} {s : σ} {w : RingKVWindow β}

/-- What the manager reads of a node is the same while it holds references. -/
theorem answers_addRef (h : Shape f) (he : Edges (ChainEdge digest) f) (hn : f.nodeAt r p = some n)
    (hst : Stocked geo dim A f r p w.selfKvCache.length value) (path : List NodeId) {l : Nat}
    (hl : l < w.selfKvCache.length) :
    Answers A (path.foldl (addRef 1) f) (chunkNode f r p) (gathered cfg p.length) l (value l) := by
  intro j hj
  have hlt := (mem_gathered.mp hj).1
  have hh := foldl_modify_handles (u := addRef 1) (fun _ _ => rfl) path f
  have hdepth := nodeAt_depth h he (nodeAt_chunkNode hn j)
  rw [List.length_take, Nat.min_eq_left hlt] at hdepth
  rw [foldl_addRef_node]
  simp only [handle, hh, hdepth]
  refine ⟨by omega, hst.answer l hl j hlt⟩

theorem pathLayers_eq (hst : Stocked geo dim A f r p w.selfKvCache.length value)
    (hg : gathered cfg p.length ≠ []) (path : List NodeId) :
    pathLayers (path.foldl (addRef 1) f) ((gathered cfg p.length).map (chunkNode f r p)) =
      w.selfKvCache.length := by
  obtain ⟨js, j, hj⟩ := List.eq_nil_or_concat (gathered cfg p.length) |>.resolve_left hg
  have hlt : j < p.length := by
    have hmem : j ∈ gathered cfg p.length := by
      rw [hj, List.concat_eq_append]
      simp
    exact (mem_gathered.mp hmem).1
  have hh := foldl_modify_handles (u := addRef 1) (fun _ _ => rfl) path f
  have hlast := hst.layers j hlt
  rw [hj, List.concat_eq_append, List.map_append, List.map_singleton, pathLayers, List.getLast?_concat]
  simp only [foldl_addRef_node, handle, hh]
  unfold chunkHandle handle at hlast
  rw [hlast, Int.toNat_natCast]

section
variable (now : Rat) (h : Shape f) (he : Edges (ChainEdge digest) f) (hn : f.nodeAt r p = some n)
  (hst : Stocked geo dim A f r p w.selfKvCache.length value)
include h he hn

theorem materialize_empty (hg : gathered cfg p.length = []) :
    materialize S (ringKVWindow geo dim) cfg now f s n w = (.ok false, f, s, w) := by
  simp [materialize, windowPath_eq h he hn, hg]

include hst

/-- The path is not empty and published, so `materialize` seeds the layers. -/
theorem materialize_eq (hg : gathered cfg p.length ≠ []) :
    materialize S (ringKVWindow geo dim) cfg now f s n w =
      (let path := (gathered cfg p.length).map (chunkNode f r p)
      let held := path.foldl (addRef 1) f
      match seedLayers S (ringKVWindow geo dim) held path (f.node n).depth
          (List.range w.selfKvCache.length) s w with
      | (.error e, s, w) => (.error e, path.foldl (addRef (-1)) held, s, w)
      | (.ok _, s, w) =>
        (.ok true, path.foldl (addRef (-1)) (path.foldl (touch now) held), s,
          w.setResumeDepth geo (f.node n).depth)) := by
  have hguard : (((gathered cfg p.length).map (chunkNode f r p)).isEmpty ||
      ((gathered cfg p.length).map (chunkNode f r p)).any fun m => !f.hasKv m) = false := by
    rw [Bool.or_eq_false_iff]
    refine ⟨by simpa using hg, ?_⟩
    rw [List.any_eq_false]
    intro m hm
    obtain ⟨j, hj, rfl⟩ := List.mem_map.mp hm
    simp [hst.published j (mem_gathered.mp hj).1]
  have hdepth : ((((gathered cfg p.length).map (chunkNode f r p)).foldl (addRef 1) f).node n).depth =
      (f.node n).depth := by
    rw [foldl_addRef_node]
  simp only [materialize, windowPath_eq h he hn, hguard, Bool.false_eq_true, ↓reduceIte,
    pathLayers_eq hst hg, hdepth]
  split <;> rename_i heq <;> simp only [heq]
  rfl

/-- With everything there, every ring is set up behind the path. -/
theorem materialize_complete (hS : Steady S I A B) (hr : Rings geo bufFrames w.selfKvCache)
    (hg : gathered cfg p.length ≠ [])
    (hc : Complete geo bufFrames cfg p.length w.selfKvCache.length value) (hs : I s) :
    ∃ f' s' w', materialize S (ringKVWindow geo dim) cfg now f s n w = (.ok true, f', s', w') ∧
      I s' ∧ w'.selfKvCache.length = w.selfKvCache.length ∧
      ∀ l < w.selfKvCache.length, ∃ kv kv', w.selfKvCache[l]? = some kv ∧
        w'.selfKvCache[l]? = some kv' ∧ Resumed geo bufFrames p.length (value l) dim kv kv' := by
  have hdepth : ((f.node n).depth + 1).toNat = p.length := by
    rw [nodeAt_depth h he hn]
    omega
  have hmeasured : ∀ l ∈ List.range w.selfKvCache.length, ∀ c,
      Measured geo dim (gatheredValue (gathered cfg p.length) (value l) c) := fun l hl c =>
    measured_gathered fun hc => hst.measured l (List.mem_range.mp hl) c (mem_gathered.mp hc).1
  obtain ⟨s', w', hseed, hs', hlen, _, hin, hend⟩ := seedLayers_present hS hr hdepth
    (fun l hl => List.mem_range.mp hl) List.nodup_range
    (fun l hl => answers_addRef h he hn hst ((gathered cfg p.length).map (chunkNode f r p))
      (List.mem_range.mp hl))
    (fun l hl g hg => present_gathered.mpr (hc l (List.mem_range.mp hl) g hg)) hmeasured hs
  rw [materialize_eq now h he hn hst hg]
  dsimp only
  rw [hseed]
  refine ⟨_, _, _, rfl, hs', by rw [setResumeDepth, List.length_map, hlen], ?_⟩
  intro l hl
  have hl' := List.mem_range.mpr hl
  obtain ⟨kv, kv', hkv, hkv', hlaid⟩ := hin l hl'
  have hend := hend (List.ne_nil_of_mem hl')
  have hframes : ∀ g ∈ physicalFrames geo bufFrames (p.length * geo.chunkSize),
      gatheredValue (gathered cfg p.length) (value l) (g / geo.chunkSize) =
        some (value l (g / geo.chunkSize)) := fun g hg => if_pos (hc l hl g hg).1
  refine ⟨kv, { kv' with
      globalEnd := ((f.node n).depth + 1).toNat * geo.chunkSize * geo.frameTokens
      localEnd := w'.localEndTokens }, hkv, ?_, hlaid.lengthK, hlaid.lengthV, ?_, hend, ?_, ?_⟩
  · rw [setResumeDepth, List.getElem?_map, hkv', Option.map_some]
  · rw [hdepth, Nat.mul_assoc]
    rfl
  · dsimp only
    rw [hend, hlaid.k]
    exact List.flatMap_congr fun g hg => frameOf_congr (by rw [hframes g hg])
  · dsimp only
    rw [hend, hlaid.v]
    exact List.flatMap_congr fun g hg => frameOf_congr (by rw [hframes g hg])

/-- With anything missing, `materialize` raises. -/
theorem materialize_incomplete (hS : Steady S I A B) (hr : Rings geo bufFrames w.selfKvCache)
    (hg : gathered cfg p.length ≠ [])
    (hc : ¬ Complete geo bufFrames cfg p.length w.selfKvCache.length value) (hs : I s) :
    ∃ e f' s' w', materialize S (ringKVWindow geo dim) cfg now f s n w = (.error e, f', s', w') := by
  have hdepth : ((f.node n).depth + 1).toNat = p.length := by
    rw [nodeAt_depth h he hn]
    omega
  simp only [Complete, not_forall] at hc
  obtain ⟨l, hl, g, hgm, hno⟩ := hc
  obtain ⟨e, s', w', hseed⟩ := seedLayers_absent hS hr hdepth (fun l hl => List.mem_range.mp hl)
    (fun l hl => answers_addRef h he hn hst ((gathered cfg p.length).map (chunkNode f r p))
      (List.mem_range.mp hl))
    ⟨l, List.mem_range.mpr hl, g, hgm, fun hp => hno (present_gathered.mp hp)⟩
    (fun l hl c => measured_gathered fun hc =>
      hst.measured l (List.mem_range.mp hl) c (mem_gathered.mp hc).1) hs
  rw [materialize_eq now h he hn hst hg]
  dsimp only
  rw [hseed]
  exact ⟨e, _, _, _, rfl⟩

end

end

section
variable {N C ρ : Type} {S : KVTierStore σ (LayerValue T) L} {I : σ → Prop}
  {A : BlobHandle → Nat → LayerValue T → Prop} {B : String → Option L → Prop}
  {f : NamespaceForest} {node : Nat → NodeId} {js : List Nat} {lat : Nat → Option L} {s : σ}

/-- The cached latents after those of the chunks `js`. -/
def withLatents (lat : Nat → Option L) (cached : Dict Int (Option L)) (js : List Nat) :
    Dict Int (Option L) :=
  js.foldl (fun c (j : Nat) => c.set (j : Int) (lat j)) cached

theorem get?_withLatents (cached : Dict Int (Option L)) (j : Nat) :
    (withLatents lat cached js).get? (j : Int) = if j ∈ js then some (lat j) else cached.get? (j : Int) := by
  induction js generalizing cached with
  | nil => rfl
  | cons i js ih =>
    rw [withLatents, List.foldl_cons, ← withLatents, ih, Dict.get?_set]
    by_cases hj : j ∈ js
    · simp [hj]
    · by_cases hi : j = i
      · simp [hi]
      · simp [hj, hi]

theorem readLatents_ok (hS : Steady S I A B) (hd : ∀ j ∈ js, (f.node (node j)).depth = j)
    (hsk : ∀ j ∈ js, ∃ sk, (f.node (node j)).skeleton = some sk ∧ B sk.latentLocator (lat j))
    (cached : Dict Int (Option L)) (hs : I s) :
    ∃ s', readLatents S f s (js.map node) cached = (.ok (withLatents lat cached js), s') ∧ I s' := by
  induction js generalizing s cached with
  | nil => exact ⟨s, rfl, hs⟩
  | cons j js ih =>
    obtain ⟨sk, hsk1, hB⟩ := hsk j List.mem_cons_self
    obtain ⟨s', hr, hs'⟩ := ih (fun i hi => hd i (List.mem_cons_of_mem j hi))
      (fun i hi => hsk i (List.mem_cons_of_mem j hi)) (cached.set (j : Int) (lat j))
      (hS.afterSkeleton hs sk.latentLocator)
    refine ⟨s', ?_, hs'⟩
    have hread : S.getSkeleton s sk.latentLocator =
        (.ok (lat j), (S.getSkeleton s sk.latentLocator).2) := Prod.ext (hS.skeleton hs hB) rfl
    rw [List.map_cons, readLatents, hsk1]
    dsimp only
    rw [hread]
    dsimp only
    rw [hd j List.mem_cons_self, hr]
    rfl

/-- A node without a skeleton has no locator to read from. -/
theorem readLatents_none (hS : Steady S I A B)
    (hsk : ∀ j ∈ js, ∀ sk, (f.node (node j)).skeleton = some sk → ∃ l, B sk.latentLocator l)
    (hno : ∃ j ∈ js, (f.node (node j)).skeleton = none) (cached : Dict Int (Option L)) (hs : I s) :
    ∃ s', readLatents S f s (js.map node) cached = (.error .attributeError, s') := by
  induction js generalizing s cached with
  | nil =>
    obtain ⟨j, hj, _⟩ := hno
    cases hj
  | cons j js ih =>
    rw [List.map_cons, readLatents]
    cases hj : (f.node (node j)).skeleton with
    | none => exact ⟨s, rfl⟩
    | some sk =>
      obtain ⟨l, hB⟩ := hsk j List.mem_cons_self sk hj
      have hread : S.getSkeleton s sk.latentLocator =
          (.ok l, (S.getSkeleton s sk.latentLocator).2) := Prod.ext (hS.skeleton hs hB) rfl
      obtain ⟨i, hi, hnone⟩ := hno
      have htail : i ∈ js := by
        rcases List.mem_cons.mp hi with rfl | hi
        · rw [hj] at hnone
          cases hnone
        · exact hi
      dsimp only
      rw [hread]
      exact ih (fun i hi => hsk i (List.mem_cons_of_mem j hi)) ⟨i, htail, hnone⟩ _
        (hS.afterSkeleton hs sk.latentLocator)

theorem burnSkipped_ok (torch : Torch N C ρ) (noise : List N) (draws : Nat) (g : ρ) (is : List Nat)
    (h : ∀ i ∈ is, i < noise.length) : ∃ g', burnSkipped torch noise draws g is = (.ok (), g') := by
  induction is generalizing g with
  | nil => exact ⟨g, rfl⟩
  | cons i is ih =>
    rw [burnSkipped, List.getElem?_eq_getElem (h i List.mem_cons_self)]
    exact ih _ fun j hj => h j (List.mem_cons_of_mem i hj)

end

end CacheSeek.Proofs.Materialize
