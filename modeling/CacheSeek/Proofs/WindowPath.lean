import CacheSeek.Proofs.RootPaths
import CacheSeek.Proofs.Worlds

namespace CacheSeek.Proofs.WindowPath
open CacheSeek.Lib CacheSeek.Prefix CacheSeek.Prefix.NamespaceForest CacheSeek.Proofs.Worlds
open CacheSeek.Proofs.RootPaths

/-- The node of chunk `j` on a path. -/
def chunkNode (f : NamespaceForest) (r : Bytes) (p : List ActionKey) (j : Nat) : NodeId :=
  (f.nodeAt r (p.take (j + 1))).getD 0

/-- The chunks, of the first `K`, that the manager gathers for its window. -/
def gathered (cfg : WorldKVConfig) (K : Nat) : List Nat :=
  let w := min K cfg.windowChunks.toNat
  ((List.range (K - w)).filter fun j : Nat => (j : Int) < cfg.sinkChunks) ++ List.range' (K - w) w

theorem mem_gathered {cfg : WorldKVConfig} {K j : Nat} :
    j ∈ gathered cfg K ↔ j < K ∧ ((j : Int) < cfg.sinkChunks ∨ (K : Int) - cfg.windowChunks ≤ j) := by
  simp only [gathered, List.mem_append, List.mem_filter, List.mem_range, decide_eq_true_eq,
    List.mem_range'_1]
  omega

section
variable {digest : Bytes → Bytes} {cfg : WorldKVConfig} {f : NamespaceForest} {r : Bytes}
  {p : List ActionKey} {n : NodeId}

theorem chunkNode_take {m j : Nat} (hj : j < m) : chunkNode f r (p.take m) j = chunkNode f r p j := by
  rw [chunkNode, chunkNode, List.take_take, Nat.min_eq_left hj]

theorem nodeAt_chunkNode (hn : f.nodeAt r p = some n) (j : Nat) :
    f.nodeAt r (p.take (j + 1)) = some (chunkNode f r p j) := by
  rw [← List.take_append_drop (j + 1) p, nodeAt_append, Option.bind_eq_some_iff] at hn
  obtain ⟨m, hm, _⟩ := hn
  rw [chunkNode, hm, Option.getD_some]

theorem chunkNode_last {q : List ActionKey} {a : ActionKey} (hn : f.nodeAt r (q ++ [a]) = some n) :
    chunkNode f r (q ++ [a]) q.length = n := by
  rw [chunkNode, List.take_of_length_le (by simp), hn, Option.getD_some]

theorem map_chunkNode_append {q : List ActionKey} {a : ActionKey} {js : List Nat}
    (h : ∀ j ∈ js, j < q.length) :
    js.map (chunkNode f r (q ++ [a])) = js.map (chunkNode f r q) := by
  apply List.map_congr_left
  intro j hj
  have := chunkNode_take (f := f) (r := r) (p := q ++ [a]) (h j hj)
  rw [List.take_left] at this
  exact this.symm

/-- The chunks of an action path are the root path of its node. -/
theorem rootPath_of_nodeAt (h : Shape f)
    (hd : ∀ {n a c}, n < f.nodes.size → f.child n a = some c → (f.node c).depth = (f.node n).depth + 1)
    (hn : f.nodeAt r p = some n) : RootPath f n ((List.range p.length).map (chunkNode f r p)) := by
  induction p using List.reverseRecOn generalizing n with
  | nil =>
    obtain ⟨ns, hr, rfl⟩ := Shape.nodeAt_nil_iff.mp hn
    exact .root (h.root_lt hr) (h.root_parent hr) (h.root_depth hr)
  | append_singleton q a ih =>
    obtain ⟨m, hm, hc, hpar, _⟩ := h.nodeAt_snoc_iff.mp hn
    have hdepth := h.nodeAt_depth hd hn
    have hjs : ∀ j ∈ List.range q.length, j < q.length := fun j hj => List.mem_range.mp hj
    have hmap := map_chunkNode_append (f := f) (r := r) (a := a) hjs
    rw [List.length_append, List.length_singleton, List.range_succ, List.map_append, hmap, List.map_singleton,
      chunkNode_last hn]
    refine .child (ih hm) (h.nodeAt_lt hn) hpar ?_
    rw [hdepth, List.length_map, List.length_range, List.length_append, List.length_singleton]
    omega

section
variable (h : Shape f) (he : Edges (ChainEdge digest) f)
include h he

theorem chunks_rootPath (hn : f.nodeAt r p = some n) :
    RootPath f n ((List.range p.length).map (chunkNode f r p)) :=
  rootPath_of_nodeAt h (fun hm hc => (he hm hc).2) hn

/-- `_window_path` in chunk numbers. -/
theorem windowPath_eq (hn : f.nodeAt r p = some n) :
    windowPath cfg f n = (gathered cfg p.length).map (chunkNode f r p) := by
  have hl := chunks_rootPath h he hn
  have hcut : p.length - min p.length cfg.windowChunks.toNat = p.length - cfg.windowChunks.toNat := by omega
  have hrest : p.length - (p.length - cfg.windowChunks.toNat) = min p.length cfg.windowChunks.toNat := by omega
  have htail : (List.range p.length).drop (p.length - cfg.windowChunks.toNat) =
      List.range' (p.length - cfg.windowChunks.toNat) (min p.length cfg.windowChunks.toNat) := by
    rw [List.range_eq_range', List.drop_range', hrest, Nat.zero_add, Nat.mul_one]
  rw [windowPath_split cfg hl, List.length_map, List.length_range, ← List.map_take, ← List.map_drop,
    List.take_range, Nat.min_eq_left (Nat.sub_le _ _), List.filter_map, htail]
  simp only [gathered, hcut, List.map_append]
  congr 2
  apply List.filter_congr
  intro j hj
  have hlt : j < p.length := Nat.lt_of_lt_of_le (List.mem_range.mp hj) (Nat.sub_le _ _)
  have hdepth := nodeAt_depth h he (nodeAt_chunkNode hn j)
  rw [List.length_take, Nat.min_eq_left hlt] at hdepth
  rw [Function.comp_apply, hdepth]
  apply decide_eq_decide.mpr
  omega

/-- `on_runtime_created`'s walk up from the matched node. -/
theorem pathUp_eq {fuel : Nat} (hn : f.nodeAt r p = some n) (hfuel : n < fuel) :
    pathUp f fuel (some n) = ((List.range p.length).map (chunkNode f r p)).reverse := by
  have hl := chunks_rootPath h he hn
  exact pathUp_path hl (Nat.lt_of_le_of_lt (hl.length_le h) hfuel)

end

end

end CacheSeek.Proofs.WindowPath
