import CacheSeek.Prefix.Holdings
import CacheSeek.Proofs.ForestMap
import CacheSeek.Proofs.WindowPath

namespace CacheSeek.Proofs.ExactWindow
open CacheSeek.Lib CacheSeek.Prefix CacheSeek.Prefix.NamespaceForest CacheSeek.Stores
open CacheSeek.Proofs.RootPaths CacheSeek.Proofs.WindowPath CacheSeek.Proofs.Worlds CacheSeek.Proofs.ForestMap

variable {σ ω P L : Type} {S : KVTierStore σ P L} {W : RollingWindow ω P} {cfg : WorldKVConfig}
  {f : NamespaceForest}

/-- A node among the sink or the newest `window_chunks` of a path that ends at depth `d`. -/
def InWindow (cfg : WorldKVConfig) (f : NamespaceForest) (d : Int) (m : NodeId) : Prop :=
  d - cfg.windowChunks < (f.node m).depth ∨ (f.node m).depth < cfg.sinkChunks

instance (cfg : WorldKVConfig) (f : NamespaceForest) (d : Int) (m : NodeId) : Decidable (InWindow cfg f d m) :=
  inferInstanceAs (Decidable (_ ∨ _))

theorem windowPath_filter (cfg : WorldKVConfig) {n : NodeId} {l : List NodeId} (hl : RootPath f n l) :
    windowPath cfg f n = l.filter fun m => InWindow cfg f (f.node n).depth m := by
  have hd := hl.depth_eq
  rw [windowPath_split cfg hl]
  conv => rhs; rw [← List.take_append_drop (l.length - cfg.windowChunks.toNat) l, List.filter_append]
  congr 1
  · apply List.filter_congr
    intro m hm
    obtain ⟨i, hi, rfl⟩ := List.mem_iff_getElem.mp hm
    rw [List.length_take] at hi
    rw [List.getElem_take]
    have hdepth := hl.depth_getElem (i := i) (by omega)
    apply decide_eq_decide.mpr
    rw [InWindow]
    omega
  · symm
    apply List.filter_eq_self.mpr
    intro m hm
    obtain ⟨i, hi, rfl⟩ := List.mem_iff_getElem.mp hm
    rw [List.length_drop] at hi
    rw [List.getElem_drop]
    have hdepth := hl.depth_getElem (i := l.length - cfg.windowChunks.toNat + i) (by omega)
    apply decide_eq_true
    rw [InWindow]
    omega

/-- `_window_path(n)` for a node whose path is `l`. -/
structure WindowOf (cfg : WorldKVConfig) (f : NamespaceForest) (n : NodeId) (l : List NodeId) : Prop where
  path : windowPath cfg f n = l.filter fun m => InWindow cfg f (f.node n).depth m
  mem : ∀ m, m ∈ windowPath cfg f n ↔ m ∈ l ∧ InWindow cfg f (f.node n).depth m
  sorted : (windowPath cfg f n).Pairwise fun a b => (f.node a).depth < (f.node b).depth
  nodup : (windowPath cfg f n).Nodup

theorem windowOf (cfg : WorldKVConfig) {n : NodeId} {l : List NodeId} (hl : RootPath f n l) :
    WindowOf cfg f n l := by
  have hpath := windowPath_filter cfg hl
  refine ⟨hpath, ?_, ?_, ?_⟩
  · intro m
    rw [hpath, List.mem_filter, decide_eq_true_eq]
  · rw [hpath]
    exact hl.sorted.sublist List.filter_sublist
  · rw [hpath]
    exact hl.nodup.sublist List.filter_sublist

/-- The tries of sessions are graded. -/
theorem graded_of_edges {digest : Bytes → Bytes} (h : Shape f) (ha : Attached f) (he : Edges (ChainEdge digest) f) :
    Graded f := by
  intro m c hc hp
  have hm := Nat.lt_trans (h.parent_lt hc hp) hc
  exact (he hm (ha hc hp)).2

inductive WindowCall (P : Type) where
  | seedLayer (layer : Nat) (blobs : List (Int × P)) (depth : Int)
  | setResumeDepth (depth : Int)

def logged (W : RollingWindow ω P) : RollingWindow (ω × List (WindowCall P)) P where
  seedLayer w layer blobs depth :=
    let (res, w') := W.seedLayer w.1 layer blobs depth
    (res, w', w.2 ++ [.seedLayer layer blobs depth])
  setResumeDepth w depth := (W.setResumeDepth w.1 depth, w.2 ++ [.setResumeDepth depth])

def readLogged (S : KVTierStore σ P L) : KVTierStore (σ × List (BlobHandle × Nat × P)) P L where
  putAsync s locator payload h :=
    let (res, s') := S.putAsync s.1 locator payload h
    (res, s', s.2)
  getLayer s handle layer :=
    match S.getLayer s.1 handle layer with
    | (.error e, s') => (.error e, s', s.2)
    | (.ok p, s') => (.ok p, s', s.2 ++ [(handle, layer, p)])
  putSkeleton s locator latent :=
    let (res, s') := S.putSkeleton s.1 locator latent
    (res, s', s.2)
  getSkeleton s locator :=
    let (res, s') := S.getSkeleton s.1 locator
    (res, s', s.2)
  free s handle := (S.free s.1 handle, s.2)

def blobOf (f : NamespaceForest) (m : NodeId) : BlobHandle := f.handle ((f.node m).blob.getD 0)

def chunkReads (f : NamespaceForest) (path : List NodeId) (layer : Nat) (answers : List P) :
    List (BlobHandle × Nat × P) :=
  List.zipWith (fun m p => (blobOf f m, layer, p)) path answers

def chunkPairs (f : NamespaceForest) (path : List NodeId) (answers : List P) : List (Int × P) :=
  List.zipWith (fun m p => ((f.node m).depth, p)) path answers

/-- A row of reads that ends well, one read at a time. -/
theorem readLayer_cons {layer : Nat} {m : NodeId} {path : List NodeId} {s s' : σ} {blobs : List (Int × P)}
    (h : readLayer S f layer s (m :: path) = (.ok blobs, s')) :
    ∃ p s1 rest, S.getLayer s (blobOf f m) layer = (.ok p, s1) ∧ readLayer S f layer s1 path = (.ok rest, s') ∧
      blobs = ((f.node m).depth, p) :: rest := by
  simp only [readLayer] at h
  cases hget : S.getLayer s (f.handle ((f.node m).blob.getD 0)) layer with
  | mk res s1 =>
    cases res with
    | error e =>
      simp only [hget] at h
      cases h
    | ok p =>
      simp only [hget] at h
      cases hrest : readLayer S f layer s1 path with
      | mk res s2 =>
        cases res with
        | error e =>
          simp only [hrest] at h
          cases h
        | ok rest =>
          simp only [hrest] at h
          cases h
          exact ⟨p, s1, rest, hget, hrest, rfl⟩

theorem readLayer_logged {layer : Nat} {path : List NodeId} {s s' : σ} {blobs : List (Int × P)}
    (h : readLayer S f layer s path = (.ok blobs, s')) (reads : List (BlobHandle × Nat × P)) :
    ∃ answers : List P, answers.length = path.length ∧ blobs = chunkPairs f path answers ∧
      readLayer (readLogged S) f layer (s, reads) path =
        (.ok blobs, s', reads ++ chunkReads f path layer answers) := by
  induction path generalizing s blobs reads with
  | nil =>
    cases h
    exact ⟨[], rfl, rfl, by simp [readLayer, chunkReads]⟩
  | cons m path ih =>
    obtain ⟨p, s1, rest, hget, hrest, rfl⟩ := readLayer_cons h
    obtain ⟨answers, hlen, hps, hread⟩ := ih hrest (reads ++ [(blobOf f m, layer, p)])
    refine ⟨p :: answers, by rw [List.length_cons, hlen, List.length_cons], ?_, ?_⟩
    · rw [hps]
      rfl
    · have hget' : (readLogged S).getLayer (s, reads) (f.handle ((f.node m).blob.getD 0)) layer =
          (.ok p, s1, reads ++ [(blobOf f m, layer, p)]) := by
        rw [blobOf] at hget
        simp only [readLogged, hget]
        rfl
      simp only [readLayer, hget', hread, List.append_assoc]
      rfl

/-- A layer loop that ends well, one layer at a time. -/
theorem seedLayers_cons {path : List NodeId} {depth : Int} {layer : Nat} {layers : List Nat} {s s' : σ} {w w' : ω}
    (h : seedLayers S W f path depth (layer :: layers) s w = (.ok (), s', w')) :
    ∃ blobs s1 w1, readLayer S f layer s path = (.ok blobs, s1) ∧
      W.seedLayer w layer blobs depth = (.ok (), w1) ∧
      seedLayers S W f path depth layers s1 w1 = (.ok (), s', w') := by
  simp only [seedLayers] at h
  cases hread : readLayer S f layer s path with
  | mk res s1 =>
    cases res with
    | error e =>
      simp only [hread] at h
      cases h
    | ok blobs =>
      simp only [hread] at h
      cases hseed : W.seedLayer w layer blobs depth with
      | mk res w1 =>
        cases res with
        | error e =>
          simp only [hseed] at h
          cases h
        | ok _ =>
          simp only [hseed] at h
          exact ⟨blobs, s1, w1, rfl, hseed, h⟩

/-- A layer loop that ends well seeds each of its layers once, in order, with the path's pairs. -/
theorem seedLayers_logged {path : List NodeId} {depth : Int} {layers : List Nat} (hnodup : layers.Nodup)
    {s s' : σ} {w w' : ω} (h : seedLayers S W f path depth layers s w = (.ok (), s', w'))
    (reads : List (BlobHandle × Nat × P)) (calls : List (WindowCall P)) :
    ∃ answers : Nat → List P, (∀ layer ∈ layers, (answers layer).length = path.length) ∧
      seedLayers (readLogged S) (logged W) f path depth layers (s, reads) (w, calls) =
        (.ok (), (s', reads ++ layers.flatMap fun layer => chunkReads f path layer (answers layer)),
          w', calls ++ layers.map fun layer => .seedLayer layer (chunkPairs f path (answers layer)) depth) := by
  induction layers generalizing s w reads calls with
  | nil =>
    cases h
    exact ⟨fun _ => [], by simp, by simp [seedLayers]⟩
  | cons layer layers ih =>
    obtain ⟨hnot, hnodup⟩ := List.nodup_cons.mp hnodup
    obtain ⟨blobs, s1, w1, hread, hseed, hrest⟩ := seedLayers_cons h
    obtain ⟨own, hlen, rfl, hread⟩ := readLayer_logged hread reads
    obtain ⟨rest, hrestlen, hloop⟩ := ih hnodup hrest (reads ++ chunkReads f path layer own)
      (calls ++ [.seedLayer layer (chunkPairs f path own) depth])
    have hsame : ∀ k ∈ layers, Function.update rest layer own k = rest k := by
      intro k hk
      apply Function.update_of_ne
      intro he
      exact hnot (he ▸ hk)
    refine ⟨Function.update rest layer own, ?_, ?_⟩
    · intro k hk
      rcases List.mem_cons.mp hk with rfl | hk
      · rw [Function.update_self, hlen]
      · rw [hsame k hk, hrestlen k hk]
    · have hseed' : (logged W).seedLayer (w, calls) layer (chunkPairs f path own) depth =
          (.ok (), w1, calls ++ [.seedLayer layer (chunkPairs f path own) depth]) := by
        simp only [logged, hseed]
      have hreads : (layers.flatMap fun k => chunkReads f path k (Function.update rest layer own k)) =
          layers.flatMap fun k => chunkReads f path k (rest k) := by
        apply List.flatMap_congr
        intro k hk
        rw [hsame k hk]
      have hcalls : (layers.map fun k => WindowCall.seedLayer k
            (chunkPairs f path (Function.update rest layer own k)) depth) =
          layers.map fun k => .seedLayer k (chunkPairs f path (rest k)) depth := by
        apply List.map_congr_left
        intro k hk
        rw [hsame k hk]
      simp only [seedLayers, hread, hseed', hloop]
      rw [List.flatMap_cons, List.map_cons, Function.update_self, hreads, hcalls, List.append_assoc,
        List.append_assoc, List.singleton_append]

theorem foldl_addRef_depth (d : Int) (path : List NodeId) (f : NamespaceForest) (m : NodeId) :
    ((path.foldl (addRef d) f).node m).depth = (f.node m).depth := by
  rw [foldl_addRef_node]

theorem foldl_addRef_blobOf (d : Int) (path : List NodeId) (f : NamespaceForest) :
    blobOf (path.foldl (addRef d) f) = blobOf f := by
  funext m
  have hh := foldl_modify_handles (u := addRef d) (fun _ _ => rfl) path f
  simp only [blobOf, handle, hh, foldl_addRef_node]

/-- What a `materialize` that succeeds has read and told the window. -/
structure Seeded (cfg : WorldKVConfig) (f : NamespaceForest) (n last : NodeId)
    (answers : Nat → List P) (reads : List (BlobHandle × Nat × P)) (calls : List (WindowCall P)) : Prop where
  ends : (windowPath cfg f n).getLast? = some last
  published : ∀ m ∈ windowPath cfg f n, f.hasKv m = true
  full : ∀ layer < (blobOf f last).nLayers.toNat, (answers layer).length = (windowPath cfg f n).length
  read : reads = (List.range (blobOf f last).nLayers.toNat).flatMap fun layer =>
    chunkReads f (windowPath cfg f n) layer (answers layer)
  called : calls = ((List.range (blobOf f last).nLayers.toNat).map fun layer =>
      .seedLayer layer (chunkPairs f (windowPath cfg f n) (answers layer)) (f.node n).depth) ++
    [.setResumeDepth (f.node n).depth]

theorem materialize_logged {now : Rat} {n : NodeId} {s s' : σ} {w w' : ω} {f' : NamespaceForest}
    (h : materialize S W cfg now f s n w = (.ok true, f', s', w')) :
    ∃ last answers reads calls, Seeded cfg f n last answers reads calls ∧
      materialize (readLogged S) (logged W) cfg now f (s, []) n (w, []) =
        (.ok true, f', (s', reads), (w', calls)) := by
  simp only [materialize] at h ⊢
  by_cases hguard : ((windowPath cfg f n).isEmpty || (windowPath cfg f n).any fun m => !f.hasKv m) = true
  · simp only [hguard, ↓reduceIte, Prod.mk.injEq, Except.ok.injEq, Bool.false_eq_true, false_and] at h
  · simp only [hguard, Bool.false_eq_true, ↓reduceIte] at h ⊢
    rw [Bool.or_eq_true, not_or] at hguard
    have hne : windowPath cfg f n ≠ [] := by simpa using hguard.1
    have hlast := List.getLast?_eq_some_getLast hne
    generalize (windowPath cfg f n).getLast hne = last at hlast
    have hlayers : pathLayers ((windowPath cfg f n).foldl (addRef 1) f) (windowPath cfg f n) =
        (blobOf f last).nLayers.toNat := by
      rw [← foldl_addRef_blobOf 1 (windowPath cfg f n) f]
      simp only [pathLayers, hlast, blobOf]
    rw [hlayers, foldl_addRef_depth] at h ⊢
    cases hseeds : seedLayers S W ((windowPath cfg f n).foldl (addRef 1) f) (windowPath cfg f n) (f.node n).depth
        (List.range (blobOf f last).nLayers.toNat) s w with
    | mk res sw =>
      obtain ⟨s1, w1⟩ := sw
      cases res with
      | error e =>
        simp only [hseeds] at h
        cases h
      | ok _ =>
        simp only [hseeds] at h
        cases h
        obtain ⟨answers, hfull, hloop⟩ := seedLayers_logged List.nodup_range hseeds [] []
        simp only [hloop]
        refine ⟨last, answers, _, _, ⟨hlast, ?_, ?_, rfl, rfl⟩, ?_⟩
        · intro m hm
          by_contra hkv
          exact hguard.2 (List.any_eq_true.mpr ⟨m, hm, by simp [hkv]⟩)
        · exact fun layer hl => hfull layer (List.mem_range.mpr hl)
        · simp only [chunkPairs, chunkReads, foldl_addRef_depth, foldl_addRef_blobOf, List.nil_append]
          rfl

/-- `_window_path` of a node is, in the order of their depths, what of its path is sink or recent; and a
fast-forward that succeeds with `K` chunks seeds each layer once with what was read of these nodes of the
path of chunk `K - 1`, and sets the resume depth after that. -/
theorem window_exact (cfg : WorldKVConfig) (f : NamespaceForest) :
    (∀ n l, RootPath f n l → WindowOf cfg f n l) ∧
    (Shape f → Graded f →
      (∀ n, n < f.nodes.size → ∃ l, RootPath f n l) ∧
      ∀ {σ ω P L : Type} (S : KVTierStore σ P L) (W : RollingWindow ω P) (now : Rat) (s : σ) (rootHash : Bytes)
        (actions : List ActionKey) (w : ω) (res : FastForwardResult) (f' : NamespaceForest) (s' : σ) (w' : ω),
        tryFastForward S W cfg now f s rootHash actions w = (.ok res, f', s', w') → 0 < res.startChunk →
        ∃ n l last answers reads calls, res.node = some n ∧ RootPath f n l ∧ l.length = res.startChunk ∧
          (f.node n).depth = (res.startChunk : Int) - 1 ∧ Seeded cfg f n last answers reads calls ∧
          tryFastForward (readLogged S) (logged W) cfg now f (s, []) rootHash actions (w, []) =
            (.ok res, f', (s', reads), (w', calls))) := by
  refine ⟨fun n l hl => windowOf cfg hl, fun hs hd => ⟨fun n hn => exists_rootPath hs hd hn, ?_⟩⟩
  intro σ ω P L S W now s rootHash actions w res f' s' w' h hpos
  have hedge : ∀ {n a c}, n < f.nodes.size → f.child n a = some c → (f.node c).depth = (f.node n).depth + 1 :=
    fun hn hc => hd (hs.child_lt hn hc).2 (hs.child_parent hn hc)
  cases hr : f.resolve rootHash with
  | none =>
    simp only [tryFastForward, Shape.lookup_none f hr] at h
    cases h
    exact absurd hpos (Nat.lt_irrefl 0)
  | some ns =>
    obtain ⟨n, hn⟩ : ∃ n, f.nodeAt rootHash (actions.take (longest (f.published rootHash) actions)) = some n := by
      obtain ⟨m, _, hm⟩ := hs.descend_eq [] actions 0 (Shape.nodeAt_nil_iff.mpr ⟨ns, hr, rfl⟩)
      exact ⟨m, hm⟩
    have hlookup := hs.lookup_eq hr actions
    rw [hn] at hlookup
    have hlen := longest_le (f.published rootHash) actions
    have hl := rootPath_of_nodeAt hs hedge hn
    simp only [tryFastForward, hlookup] at h ⊢
    generalize longest (f.published rootHash) actions = K at h hlen hl ⊢
    by_cases hgate : K = 0 ∨ (K : Int) < cfg.breakEvenK
    · simp only [hgate, ↓reduceIte] at h
      cases h
      exact absurd hpos (Nat.lt_irrefl 0)
    · simp only [hgate, ↓reduceIte] at h ⊢
      cases hm : materialize S W cfg now f s n w with
      | mk done rest =>
        obtain ⟨f1, s1, w1⟩ := rest
        rw [hm] at h
        cases done with
        | error e => cases h
        | ok flag =>
          cases flag with
          | false =>
            cases h
            exact absurd hpos (Nat.lt_irrefl 0)
          | true =>
            cases h
            obtain ⟨last, answers, reads, calls, hseeded, hlogged⟩ := materialize_logged hm
            have hlength := hl.depth_eq
            rw [List.length_map, List.length_range, List.length_take, Nat.min_eq_left hlen] at hlength
            refine ⟨n, _, last, answers, reads, calls, rfl, hl, ?_, hlength, hseeded, ?_⟩
            · rw [List.length_map, List.length_range, List.length_take, Nat.min_eq_left hlen]
            · rw [hlogged]

def threeChunks : List (Op Nat Unit Unit) :=
  [.create [1] [2], .start [1] [.int 1, .int 2, .int 3] false, .ingest 0 [10, 11] () 0 none,
    .ingest 0 [20, 21] () 0 none, .ingest 0 [30, 31] () 0 none]

def deafWindow : RollingWindow Unit Nat := ⟨fun w _ _ _ => (.ok (), w), fun w _ => w⟩

set_option maxRecDepth 4000 in
/-- Sink and newest chunk of the three: the second is left out. -/
theorem window_exact_three_chunks : ∃ w : World (InMemoryTier Nat Unit), ∃ n l last,
    ∃ answers : Nat → List Nat, ∃ reads calls,
    run (World.step id (inMemoryTierStore Nat Unit) deafWindow ⟨1, 1, 1, .cpu⟩) (World.init {}) threeChunks =
      some w ∧
    RootPath w.forest n l ∧ l.length = 3 ∧ WindowOf ⟨1, 1, 1, .cpu⟩ w.forest n l ∧
    Seeded ⟨1, 1, 1, .cpu⟩ w.forest n last answers reads calls := by
  obtain ⟨w, hw⟩ : ∃ w, run (World.step id (inMemoryTierStore Nat Unit) deafWindow ⟨1, 1, 1, .cpu⟩)
      (World.init {}) threeChunks = some w := ⟨_, rfl⟩
  have hgood := run_good (inMemory_synchronous Nat Unit) hw
  have hgraded := graded_of_edges hgood.shape hgood.attached hgood.edges
  obtain ⟨res, f', s', w', hff, hstart⟩ : ∃ res f' s' w', tryFastForward (inMemoryTierStore Nat Unit) deafWindow
      ⟨1, 1, 1, .cpu⟩ 0 w.forest w.store [1] [.int 1, .int 2, .int 3] () = (.ok res, f', s', w') ∧
      res.startChunk = 3 := by
    cases hw
    exact ⟨_, _, _, _, rfl, rfl⟩
  obtain ⟨n, l, last, answers, reads, calls, _, hl, hlen, _, hseeded, _⟩ :=
    ((window_exact ⟨1, 1, 1, .cpu⟩ w.forest).2 hgood.shape hgraded).2 _ _ _ _ _ _ _ _ _ _ _ hff (by omega)
  exact ⟨w, n, l, last, answers, reads, calls, hw, hl, hlen.trans hstart,
    (window_exact ⟨1, 1, 1, .cpu⟩ w.forest).1 n l hl, hseeded⟩

end CacheSeek.Proofs.ExactWindow
