import CacheSeek.Prefix.Binding
import CacheSeek.Prefix.Shape

namespace CacheSeek.Proofs.RootPaths
open CacheSeek.Lib CacheSeek.Prefix CacheSeek.Prefix.NamespaceForest

/-- The nodes below the virtual root on the way down to `n`, each as deep as it is far from the root. -/
inductive RootPath (f : NamespaceForest) : NodeId → List NodeId → Prop where
  | root {n : NodeId} (lt : n < f.nodes.size) (top : (f.node n).parent = none)
      (depth : (f.node n).depth = -1) : RootPath f n []
  | child {m n : NodeId} {l : List NodeId} (up : RootPath f m l) (lt : n < f.nodes.size)
      (parent : (f.node n).parent = some m) (depth : (f.node n).depth = l.length) : RootPath f n (l ++ [n])

def Graded (f : NamespaceForest) : Prop :=
  ∀ ⦃m c⦄, c < f.nodes.size → (f.node c).parent = some m → (f.node c).depth = (f.node m).depth + 1

variable {f : NamespaceForest} {n : NodeId} {l : List NodeId}

namespace RootPath

theorem depth_eq (hl : RootPath f n l) : (f.node n).depth = (l.length : Int) - 1 := by
  cases hl with
  | root lt top depth => exact depth
  | child up lt parent depth =>
    rw [depth, List.length_append, List.length_singleton]
    omega

theorem lt_size (hl : RootPath f n l) : ∀ m ∈ l, m < f.nodes.size := by
  induction hl with
  | root lt top depth => simp
  | child up lt parent depth ih =>
    intro m hm
    rcases List.mem_append.mp hm with hm | hm
    · exact ih m hm
    · rw [List.mem_singleton.mp hm]
      exact lt

theorem depth_getElem (hl : RootPath f n l) {i : Nat} (hi : i < l.length) : (f.node l[i]).depth = i := by
  induction hl with
  | root lt top depth => exact absurd hi (Nat.not_lt_zero i)
  | child up lt parent depth ih =>
    rename_i l
    by_cases h : i < l.length
    · rw [List.getElem_append_left h]
      exact ih h
    · rw [List.length_append, List.length_singleton] at hi
      have hlast : i = l.length := by omega
      subst i
      rw [List.getElem_concat_length rfl, depth]

/-- Depths grow along a path. -/
theorem sorted (hl : RootPath f n l) : l.Pairwise fun a b => (f.node a).depth < (f.node b).depth := by
  rw [List.pairwise_iff_getElem]
  intro i j hi hj hij
  rw [hl.depth_getElem hi, hl.depth_getElem hj]
  omega

theorem nodup (hl : RootPath f n l) : l.Nodup :=
  hl.sorted.imp fun h he => by
    rw [he] at h
    exact absurd h (Int.lt_irrefl _)

theorem length_le_size (hl : RootPath f n l) : l.length ≤ f.nodes.size := by
  have hsub : l ⊆ List.range f.nodes.size := fun m hm => List.mem_range.mpr (hl.lt_size m hm)
  have hle := (List.subperm_of_subset hl.nodup hsub).length_le
  rwa [List.length_range] at hle

/-- Nodes come after their parents. -/
theorem length_le (hl : RootPath f n l) (h : Shape f) : l.length ≤ n := by
  induction hl with
  | root lt top depth => exact Nat.zero_le _
  | child up lt parent depth ih =>
    rw [List.length_append, List.length_singleton]
    exact Nat.lt_of_le_of_lt ih (h.parent_lt lt parent)

end RootPath

/-- In a graded trie every node has a path. -/
theorem exists_rootPath (h : Shape f) (hd : Graded f) (hn : n < f.nodes.size) : ∃ l, RootPath f n l := by
  induction n using Nat.strongRecOn with
  | ind n ih =>
    cases hp : (f.node n).parent with
    | none =>
      obtain ⟨ns, hr, he⟩ := h.rooted hn hp
      exact ⟨[], .root hn hp (he ▸ h.root_depth hr)⟩
    | some m =>
      have hm := h.parent_lt hn hp
      obtain ⟨l, hl⟩ := ih m hm (Nat.lt_trans hm hn)
      refine ⟨l ++ [n], .child hl hn hp ?_⟩
      rw [hd hn hp, hl.depth_eq]
      omega

section
variable {cfg : WorldKVConfig}

/-- The first loop, with room for `w` nodes more, takes the last `w` of the path. -/
theorem collectRecent_path (hl : RootPath f n l) {fuel w : Nat} {recent : List NodeId} (hfuel : l.length ≤ fuel)
    (hw : cfg.windowChunks.toNat = recent.length + w) :
    ∃ top, RootPath f top (l.take (l.length - w)) ∧ collectRecent cfg f fuel (some n) recent =
      (recent ++ (l.drop (l.length - w)).reverse, some top) := by
  induction hl generalizing fuel w recent with
  | root lt top depth =>
    rename_i n
    refine ⟨n, ?_, ?_⟩
    · rw [List.take_nil]
      exact .root lt top depth
    · cases fuel with
      | zero => simp [collectRecent]
      | succ fuel => simp [collectRecent, depth]
  | child up lt parent depth ih =>
    rename_i m n l
    rw [List.length_append, List.length_singleton] at hfuel ⊢
    obtain ⟨fuel, rfl⟩ : ∃ k, fuel = k + 1 := ⟨fuel - 1, by omega⟩
    cases w with
    | zero =>
      have hfull : ¬ (recent.length : Int) < cfg.windowChunks := by omega
      refine ⟨n, ?_, ?_⟩
      · rw [Nat.sub_zero, List.take_of_length_le (by simp)]
        exact .child up lt parent depth
      · rw [Nat.sub_zero, List.drop_of_length_le (by simp)]
        simp [collectRecent, hfull]
    | succ w =>
      have hroom : 0 ≤ (f.node n).depth ∧ (recent.length : Int) < cfg.windowChunks := by omega
      have hw' : cfg.windowChunks.toNat = (recent ++ [n]).length + w := by
        rw [List.length_append, List.length_singleton]
        omega
      have hfuel' : l.length ≤ fuel := Nat.le_of_succ_le_succ hfuel
      obtain ⟨top, htop, hrec⟩ := ih hfuel' hw'
      have hcut : l.length + 1 - (w + 1) = l.length - w := by omega
      refine ⟨top, ?_, ?_⟩
      · rwa [hcut, List.take_append_of_le_length (Nat.sub_le _ _)]
      · simp only [collectRecent, hroom, and_self, ↓reduceIte, parent]
        rw [hrec, hcut, List.drop_append_of_le_length (Nat.sub_le _ _), List.reverse_append, List.append_assoc,
          List.reverse_singleton]

/-- The second loop takes the sinks of the path. -/
theorem collectSinks_path (hl : RootPath f n l) {fuel : Nat} {sinks : List NodeId} (hfuel : l.length ≤ fuel) :
    collectSinks cfg f fuel (some n) sinks =
      sinks ++ (l.filter fun m => (f.node m).depth < cfg.sinkChunks).reverse := by
  induction hl generalizing fuel sinks with
  | root lt top depth =>
    cases fuel with
    | zero => simp [collectSinks]
    | succ fuel => simp [collectSinks, depth]
  | child up lt parent depth ih =>
    rename_i m n l
    rw [List.length_append, List.length_singleton] at hfuel
    obtain ⟨fuel, rfl⟩ : ∃ k, fuel = k + 1 := ⟨fuel - 1, by omega⟩
    have hdepth : 0 ≤ (f.node n).depth := by omega
    simp only [collectSinks, hdepth, ↓reduceIte, parent]
    rw [ih (by omega), List.filter_append, List.reverse_append]
    by_cases hs : (f.node n).depth < cfg.sinkChunks
    · simp [hs]
    · simp [hs]

/-- `_window_path`: the sinks above the recent nodes, and these. -/
theorem windowPath_split (cfg : WorldKVConfig) (hl : RootPath f n l) :
    windowPath cfg f n =
      ((l.take (l.length - cfg.windowChunks.toNat)).filter fun m => (f.node m).depth < cfg.sinkChunks) ++
        l.drop (l.length - cfg.windowChunks.toNat) := by
  have hw : cfg.windowChunks.toNat = ([] : List NodeId).length + cfg.windowChunks.toNat := (Nat.zero_add _).symm
  obtain ⟨top, htop, hrecent⟩ := collectRecent_path hl hl.length_le_size hw
  have hsinks : collectSinks cfg f f.nodes.size (some top) [] = _ := collectSinks_path htop htop.length_le_size
  simp only [windowPath, hrecent, hsinks, List.nil_append, List.reverse_reverse]

/-- `on_runtime_created`'s walk up from the matched node. -/
theorem pathUp_path (hl : RootPath f n l) {fuel : Nat} (hfuel : l.length < fuel) :
    pathUp f fuel (some n) = l.reverse := by
  induction hl generalizing fuel with
  | root lt top depth =>
    obtain ⟨fuel, rfl⟩ := Nat.exists_eq_add_of_lt hfuel
    simp [pathUp, depth]
  | child up lt parent depth ih =>
    rename_i m n l
    rw [List.length_append, List.length_singleton] at hfuel
    obtain ⟨fuel, rfl⟩ : ∃ k, fuel = k + 1 := ⟨fuel - 1, by omega⟩
    have hdepth : 0 ≤ (f.node n).depth := by omega
    simp only [pathUp, hdepth, ↓reduceIte, parent]
    rw [ih (by omega), List.reverse_append]
    rfl

end

end CacheSeek.Proofs.RootPaths
