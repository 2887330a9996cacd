import CacheSeek.Prefix.Snapshot
import CacheSeek.Prefix.Growth
import CacheSeek.Proofs.KeyIdentity

namespace CacheSeek.Proofs.SnapshotNodes
open CacheSeek.Lib CacheSeek.Prefix CacheSeek.Prefix.NamespaceForest CacheSeek.Proofs.KeyIdentity

variable {f : NamespaceForest}

theorem mem_successors {n c : NodeId} : c ∈ f.successors n ↔ ∃ a, f.child n a = some c :=
  Dict.mem_values

theorem successors_nodup (h : Shape f) {n : NodeId} (hn : n < f.nodes.size) :
    (f.successors n).Nodup := by
  have hkeys : (f.successors n).map (fun c => (f.node c).action) = (f.node n).children.keys := by
    simp only [successors, Dict.values, Dict.keys, List.map_map]
    apply List.map_congr_left
    intro e he
    exact h.child_action hn ((Dict.get?_eq_some_iff _).mpr he)
  have hnd : ((f.successors n).map fun c => (f.node c).action).Nodup := hkeys ▸ (f.node n).children.nodup
  exact List.Nodup.of_map _ hnd

/-- Children branch among the nodes below the roots. -/
theorem branching (h : Shape f) {r : Bytes} {ns : Namespace} (hr : f.resolve r = some ns) :
    Branching f.successors ((List.range f.nodes.size).filter (· ≠ ns.root)) := by
  have lt : ∀ {n}, n ∈ (List.range f.nodes.size).filter (· ≠ ns.root) → n < f.nodes.size :=
    fun hn => List.mem_range.mp (List.mem_filter.mp hn).1
  constructor
  · intro n c hn hc
    obtain ⟨a, ha⟩ := mem_successors.mp hc
    rw [List.mem_filter, List.mem_range]
    refine ⟨(h.child_lt (lt hn) ha).2, ?_⟩
    rw [decide_eq_true_eq]
    intro he
    have hp := h.child_parent (lt hn) ha
    rw [he, h.root_parent hr] at hp
    cases hp
  · intro n hn
    exact successors_nodup h (lt hn)
  · intro m n c hm hn hcm hcn
    obtain ⟨a, ha⟩ := mem_successors.mp hcm
    obtain ⟨b, hb⟩ := mem_successors.mp hcn
    have hp := h.child_parent (lt hm) ha
    rw [h.child_parent (lt hn) hb] at hp
    exact (Option.some.inj hp).symm

theorem reflTransGen_iff_walk {n m : NodeId} :
    Relation.ReflTransGen (fun a b => b ∈ f.successors a) n m ↔ ∃ p, f.walk n p = some m := by
  constructor
  · intro h
    induction h with
    | refl => exact ⟨[], rfl⟩
    | tail _ hc ih =>
      obtain ⟨p, hp⟩ := ih
      obtain ⟨a, ha⟩ := mem_successors.mp hc
      refine ⟨p ++ [a], ?_⟩
      rw [walk_append, hp]
      simp only [Option.bind_some, walk, ha]
  · intro h
    obtain ⟨p, hp⟩ := h
    induction p generalizing n with
    | nil =>
      cases hp
      exact Relation.ReflTransGen.refl
    | cons a p ih =>
      obtain ⟨c, hc, hw⟩ := Option.bind_eq_some_iff.mp hp
      exact Relation.ReflTransGen.head (mem_successors.mpr ⟨a, hc⟩) (ih hw)

/-- A snapshot lists each node of a world once, the virtual root apart. -/
theorem realNodes_spec (h : Shape f) {r : Bytes} {ns : Namespace} (hr : f.resolve r = some ns) :
    (f.realNodes ns).Nodup ∧
      ∀ n, n ∈ f.realNodes ns ↔ ∃ p, p ≠ [] ∧ f.nodeAt r p = some n := by
  have hroot := h.root_lt hr
  have hb := branching h hr
  have hstart : ∀ c ∈ f.successors ns.root, c ∈ (List.range f.nodes.size).filter (· ≠ ns.root) := by
    intro c hc
    obtain ⟨a, ha⟩ := mem_successors.mp hc
    obtain ⟨h1, h2⟩ := h.child_lt hroot ha
    rw [List.mem_filter, List.mem_range, decide_eq_true_eq]
    exact ⟨h2, fun he => Nat.lt_irrefl _ (he ▸ h1)⟩
  have hfree : ∀ a ∈ (List.range f.nodes.size).filter (· ≠ ns.root), ∀ c ∈ f.successors a,
      c ∉ f.successors ns.root := by
    intro n hn c hc hcr
    rw [List.mem_filter, List.mem_range, decide_eq_true_eq] at hn
    obtain ⟨a, ha⟩ := mem_successors.mp hc
    obtain ⟨b, hb⟩ := mem_successors.mp hcr
    have hp := h.child_parent hn.1 ha
    rw [h.child_parent hroot hb] at hp
    exact hn.2 (Option.some.inj hp).symm
  have hlen : ((List.range f.nodes.size).filter (· ≠ ns.root)).length ≤ f.nodes.size := by
    simpa using List.length_filter_le (fun n => decide (n ≠ ns.root)) (List.range f.nodes.size)
  obtain ⟨hnd, hmem⟩ := sweep_spec hb (successors_nodup h hroot) hstart hfree hlen
  refine ⟨hnd, fun n => ?_⟩
  unfold realNodes
  rw [hmem]
  constructor
  · intro h
    obtain ⟨s, hs, hn⟩ := h
    obtain ⟨a, ha⟩ := mem_successors.mp hs
    obtain ⟨p, hp⟩ := reflTransGen_iff_walk.mp hn
    refine ⟨a :: p, List.cons_ne_nil a p, ?_⟩
    simp only [nodeAt, hr, Option.bind_some, walk, ha, hp]
  · intro h
    obtain ⟨p, hne, hp⟩ := h
    cases p with
    | nil => exact absurd rfl hne
    | cons a p =>
      simp only [nodeAt, hr, Option.bind_some, walk] at hp
      obtain ⟨s, hs, hw⟩ := Option.bind_eq_some_iff.mp hp
      exact ⟨s, mem_successors.mpr ⟨a, hs⟩, reflTransGen_iff_walk.mpr ⟨p, hw⟩⟩

/-- The loader's order of a forest's entries is an order of its nodes by depth. -/
theorem byDepth_nodeData (f : NamespaceForest) (nodes : List NodeId) :
    ∃ sorted : List NodeId, sorted.Perm nodes ∧ byDepth (nodes.map f.nodeData) = sorted.map f.nodeData ∧
      sorted.Pairwise fun m n => (f.node m).depth ≤ (f.node n).depth := by
  refine ⟨nodes.insertionSort fun m n => (f.node m).depth ≤ (f.node n).depth,
    List.perm_insertionSort _ _, ?_, ?_⟩
  · exact (List.map_insertionSort _ (fun a b : NodeData => a.depth ≤ b.depth) f.nodeData nodes
      fun _ _ _ _ => Iff.rfl).symm
  · have htotal : Std.Total fun m n => (f.node m).depth ≤ (f.node n).depth :=
      ⟨fun m n => Int.le_total _ _⟩
    have htrans : IsTrans NodeId fun m n => (f.node m).depth ≤ (f.node n).depth :=
      ⟨fun _ _ _ => Int.le_trans⟩
    exact List.pairwise_insertionSort _ _

/-- The blob of a node that a lookup may return. -/
def publishedBlob (f : NamespaceForest) (n : NodeId) : Option BlobHandle :=
  if f.hasKv n then (f.node n).blob.map f.handle else none

theorem nodeData_blob (f : NamespaceForest) (n : NodeId) :
    (f.nodeData n).blob = (publishedBlob f n).map blobData := by
  unfold nodeData publishedBlob
  split
  · simp only [Option.map_map]
    rfl
  · rfl

theorem publishedBlob_isSome (f : NamespaceForest) (n : NodeId) :
    (publishedBlob f n).isSome = f.hasKv n := by
  unfold publishedBlob hasKv
  cases hb : (f.node n).blob with
  | none => rfl
  | some b => cases hr : (f.handle b).ready <;> simp [hr]

theorem publishedBlob_ready {n : NodeId} {b : BlobHandle} (h : publishedBlob f n = some b) :
    b.ready = true := by
  unfold publishedBlob hasKv at h
  cases hb : (f.node n).blob with
  | none => simp [hb] at h
  | some x =>
    simp only [hb] at h
    split at h
    · rename_i hr
      simp only [Option.map_some, Option.some.injEq] at h
      rw [← h, hr]
    · cases h

theorem tier_ofValue (t : Tier) : Tier.ofValue t.value = some t := by
  cases t <;> simp [Tier.ofValue, Tier.value]

theorem blobData_handle {b : BlobHandle} (h : b.ready = true) : (blobData b).handle = .ok b := by
  obtain ⟨tier, locator, nbytes, nLayers, ready⟩ := b
  simp only at h
  simp only [BlobData.handle, blobData, tier_ofValue, h]

theorem blobData_inj {b c : BlobHandle} (hb : b.ready = true) (hc : c.ready = true)
    (h : blobData b = blobData c) : b = c := by
  have := blobData_handle hb
  rw [h, blobData_handle hc] at this
  exact (Except.ok.inj this).symm

/-- Published blobs with the same entry are the same blob. -/
theorem publishedBlob_eq {g : NamespaceForest} {n m : NodeId}
    (h : (g.nodeData m).blob = (f.nodeData n).blob) : publishedBlob g m = publishedBlob f n := by
  rw [nodeData_blob, nodeData_blob] at h
  cases hm : publishedBlob g m with
  | none =>
    rw [hm] at h
    exact (Option.map_eq_none_iff.mp h.symm).symm
  | some b =>
    rw [hm] at h
    obtain ⟨c, hc, hbc⟩ := Option.map_eq_some_iff.mp h.symm
    rw [hc, blobData_inj (publishedBlob_ready hc) (publishedBlob_ready hm) hbc]

theorem hex_eq_empty {k : Bytes} : hex k = "" ↔ k = [] := by
  constructor
  · intro h
    exact hex_injective h
  · intro h
    rw [h]
    rfl

end CacheSeek.Proofs.SnapshotNodes
