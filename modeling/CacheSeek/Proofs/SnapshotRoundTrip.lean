import CacheSeek.Prefix.SnapshotText
import CacheSeek.Proofs.ForestMap
import CacheSeek.Proofs.SnapshotRuns
import Mathlib.Data.Set.Card

namespace CacheSeek.Proofs.SnapshotRoundTrip
open CacheSeek.Lib CacheSeek.Prefix CacheSeek.Prefix.NamespaceForest CacheSeek.Proofs.KeyIdentity
open CacheSeek.Proofs.Worlds CacheSeek.Proofs.SnapshotNodes CacheSeek.Proofs.SnapshotLoad
open CacheSeek.Proofs.SnapshotMerged CacheSeek.Proofs.SnapshotRuns CacheSeek.Stores

variable {σ ω P L : Type} {digest : Bytes → Bytes} {S : KVTierStore σ P L} {W : RollingWindow ω P}
  {cfg : WorldKVConfig} {f g : NamespaceForest}

inductive Alike {α β : Type} (R : α → β → Prop) : Option α → Option β → Prop where
  | none : Alike R none none
  | some {a : α} {b : β} (h : R a b) : Alike R (some a) (some b)

theorem Alike.of_none {α β : Type} {R : α → β → Prop} {b : Option β} (h : Alike R Option.none b) :
    b = Option.none := by
  cases h
  rfl

theorem Alike.of_some {α β : Type} {R : α → β → Prop} {a : α} {b : Option β}
    (h : Alike R (Option.some a) b) : ∃ c, b = Option.some c ∧ R a c := by
  cases h with
  | some h => exact ⟨_, rfl, h⟩

theorem Alike.to_some {α β : Type} {R : α → β → Prop} {a : Option α} {b : β}
    (h : Alike R a (Option.some b)) : ∃ c, a = Option.some c ∧ R c b := by
  cases h with
  | some h => exact ⟨_, rfl, h⟩

theorem Alike.imp {α β : Type} {R R' : α → β → Prop} {a : Option α} {b : Option β}
    (h : Alike R a b) (hR : ∀ x y, R x y → R' x y) : Alike R' a b := by
  cases h with
  | none => exact Alike.none
  | some h => exact Alike.some (hR _ _ h)

/-- The same node to whoever is handed it; an unpublished one comes back without a blob. -/
structure SameNode (f g : NamespaceForest) (n m : NodeId) : Prop where
  nodeKey : (g.node m).nodeKey = (f.node n).nodeKey
  action : (g.node m).action = (f.node n).action
  depth : (g.node m).depth = (f.node n).depth
  pinned : (g.node m).pinned = (f.node n).pinned
  skeleton : (g.node m).skeleton = (f.node n).skeleton
  blob : publishedBlob g m = publishedBlob f n
  bare : f.hasKv n = false → (g.node m).blob = none

structure SameWorld (x y : Namespace) : Prop where
  rootHash : y.rootHash = x.rootHash
  configBlobHash : y.configBlobHash = x.configBlobHash
  pinned : y.pinned = x.pinned

structure SameAnswer (f g : NamespaceForest) (a b : PrefixMatch) : Prop where
  matchedLen : b.matchedLen = a.matchedLen
  ns : Alike SameWorld a.ns b.ns
  node : Alike (SameNode f g) a.node b.node

structure SameEntries (x y : NamespaceData) : Prop where
  rootHash : y.rootHash = x.rootHash
  configBlobHash : y.configBlobHash = x.configBlobHash
  pinned : y.pinned = x.pinned
  nodes : y.nodes.Perm x.nodes

structure SameContents (d e : SnapshotData) : Prop where
  version : e.version = d.version
  there : ∀ x ∈ d.namespaces, ∃ y ∈ e.namespaces, SameEntries x y
  back : ∀ y ∈ e.namespaces, ∃ x ∈ d.namespaces, SameEntries x y

noncomputable def realNodeCount (f : NamespaceForest) : Nat :=
  {n | ∃ r p, p ≠ [] ∧ f.nodeAt r p = some n}.ncard

/-- A snapshot has one entry for each chunk. -/
theorem entryCount_eq (h : Shape f) : entryCount f = realNodeCount f := by
  obtain ⟨hnd, hns, hmem⟩ := roots_nodup h
  have hflat : (f.namespaces.values.flatMap f.realNodes).Nodup := by
    rw [List.nodup_flatMap]
    refine ⟨fun ns hm => (realNodes_spec h (hns ns hm)).1, ?_⟩
    rw [List.Nodup, List.pairwise_map] at hnd
    refine hnd.imp_of_mem fun {a b} ha hb hne => ?_
    intro n hna hnb
    obtain ⟨p, _, hp⟩ := ((realNodes_spec h (hns a ha)).2 n).mp hna
    obtain ⟨q, _, hq⟩ := ((realNodes_spec h (hns b hb)).2 n).mp hnb
    exact hne (h.nodeAt_inj hp hq).1
  have hset : {n | ∃ r p, p ≠ [] ∧ f.nodeAt r p = some n} =
      ((f.namespaces.values.flatMap f.realNodes).toFinset : Set NodeId) := by
    ext n
    simp only [Set.mem_ofPred_eq, List.coe_toFinset, List.mem_flatMap]
    constructor
    · intro ⟨r, p, hne, hp⟩
      obtain ⟨ns, hr, _⟩ := Option.bind_eq_some_iff.mp hp
      exact ⟨ns, Dict.mem_values.mpr ⟨r, hr⟩, ((realNodes_spec h hr).2 n).mpr ⟨p, hne, hp⟩⟩
    · intro ⟨ns, hm, hn⟩
      obtain ⟨p, hne, hp⟩ := ((realNodes_spec h (hns ns hm)).2 n).mp hn
      exact ⟨_, p, hne, hp⟩
  rw [realNodeCount, hset, Set.ncard_coe_finset, List.toFinset_card_of_nodup hflat,
    List.length_flatMap]
  rfl

theorem Copy.sameNode {n m : NodeId} (h : Copy f n g m) : SameNode f g n m := by
  refine ⟨h.nodeKey, congrArg NodeData.action h.data, h.depth, congrArg NodeData.pinned h.data, ?_,
    publishedBlob_eq (congrArg NodeData.blob h.data), ?_⟩
  · have hs := congrArg NodeData.skeleton h.data
    exact Option.map_injective (fun a b hab => by cases a; cases b; simpa using hab) hs
  · intro hk
    have hb := h.bare
    rw [hk] at hb
    exact Option.isSome_eq_false_iff.mp hb |> Option.isNone_iff_eq_none.mp

section
variable (hf : Sturdy digest f) (hm : Merged digest f .empty g fun r => f.resolve r ≠ none)
include hf hm

theorem loaded_world {r : Bytes} : Alike SameWorld (f.resolve r) (g.resolve r) := by
  cases hr : f.resolve r with
  | none =>
    rw [hm.other (fun hne => hne hr)]
    exact Alike.none
  | some ns =>
    obtain ⟨nt, hnt, hpin, _, hcfg⟩ := hm.world (by rw [hr]; exact Option.some_ne_none ns) hr
    rw [hnt]
    exact Alike.some ⟨(hm.sturdy.shape.root_hash hnt).trans (hf.shape.root_hash hr).symm, hcfg rfl, hpin⟩

omit hf in
theorem loaded_path (r : Bytes) (a : ActionKey) (p : List ActionKey) :
    Alike (Copy f · g ·) (f.nodeAt r (a :: p)) (g.nodeAt r (a :: p)) := by
  have hempty : (NamespaceForest.empty).nodeAt r (a :: p) = none := rfl
  by_cases hr : f.resolve r = none
  · have hn : f.nodeAt r (a :: p) = none := by
      unfold nodeAt
      rw [hr]
      rfl
    rw [hn, hm.kept (fun hne => absurd hr hne), hempty]
    exact Alike.none
  · cases hn : f.nodeAt r (a :: p) with
    | some n =>
      obtain ⟨m, hgm, _, hc⟩ := hm.copied hr hn
      rw [hgm]
      exact Alike.some hc
    | none =>
      by_cases hfirst : f.nodeAt r [a] = none
      · rw [hm.kept (fun _ => hfirst), hempty]
        exact Alike.none
      · rw [hm.gone hr hfirst hn]
        exact Alike.none

theorem loaded_node (r : Bytes) (p : List ActionKey) :
    Alike (SameNode f g) (f.nodeAt r p) (g.nodeAt r p) := by
  cases p with
  | cons a p => exact (loaded_path hm r a p).imp fun _ _ h => Copy.sameNode h
  | nil =>
    rw [nodeAt_nil, nodeAt_nil]
    have hw := loaded_world hf hm (r := r)
    cases hr : f.resolve r with
    | none =>
      rw [hr] at hw
      rw [hw.of_none]
      exact Alike.none
    | some ns =>
      rw [hr] at hw
      obtain ⟨nt, hg, _⟩ := hw.of_some
      rw [hg]
      have h1 := hf.roots (hf.shape.root_lt hr) (hf.shape.root_parent hr)
      have h2 := hm.sturdy.roots (hm.sturdy.shape.root_lt hg) (hm.sturdy.shape.root_parent hg)
      refine Alike.some ⟨?_, ?_, ?_, ?_, ?_, ?_, fun _ => h2.2.2.1⟩
      · rw [hf.shape.root_key hr, hm.sturdy.shape.root_key hg]
      · rw [h1.1, h2.1]
      · rw [hf.shape.root_depth hr, hm.sturdy.shape.root_depth hg]
      · rw [h1.2.2.2, h2.2.2.2]
      · rw [h1.2.1, h2.2.1]
      · simp [publishedBlob, h1.2.2.1, h2.2.2.1]

theorem loaded_published : g.published = f.published := by
  funext r p
  have h := loaded_node hf hm r p
  unfold published
  cases hn : f.nodeAt r p with
  | none =>
    rw [hn] at h
    rw [h.of_none]
  | some n =>
    rw [hn] at h
    obtain ⟨m, hg, hs⟩ := h.of_some
    rw [hg]
    simp only
    rw [← publishedBlob_isSome, ← publishedBlob_isSome, hs.blob]

/-- The counts agree, and the nodes are copies of each other. -/
theorem loaded_lookup (r : Bytes) (actions : List ActionKey) :
    SameAnswer f g (f.lookup r actions) (g.lookup r actions) := by
  have hw := loaded_world hf hm (r := r)
  cases hr : f.resolve r with
  | none =>
    rw [hr] at hw
    rw [Shape.lookup_none f hr, Shape.lookup_none g hw.of_none]
    exact ⟨rfl, Alike.none, Alike.none⟩
  | some ns =>
    rw [hr] at hw
    obtain ⟨nt, hg, hns⟩ := hw.of_some
    rw [hf.shape.lookup_eq hr, hm.sturdy.shape.lookup_eq hg, loaded_published hf hm]
    exact ⟨rfl, Alike.some hns, loaded_node hf hm r _⟩

/-- Entries are the same because copies are, and nothing else is there. -/
theorem loaded_entries (hd : Hash digest) {r : Bytes} {ns nt : Namespace}
    (hr : f.resolve r = some ns) (hg : g.resolve r = some nt) :
    SameEntries (f.namespaceData ns) (g.namespaceData nt) := by
  have hw := loaded_world hf hm (r := r)
  rw [hr, hg] at hw
  cases hw with
  | some hw =>
    refine ⟨congrArg hex hw.rootHash, congrArg hex hw.configBlobHash, congrArg some hw.pinned, ?_⟩
    have entries : ∀ {h : NamespaceForest} {n0 : Namespace}, Sturdy digest h →
        h.resolve r = some n0 → ((h.realNodes n0).map h.nodeData).Nodup ∧
          ∀ d, d ∈ (h.realNodes n0).map h.nodeData ↔
            ∃ a p n, h.nodeAt r (a :: p) = some n ∧ h.nodeData n = d := by
      intro h n0 hs hn0
      obtain ⟨hnd, hreal⟩ := realNodes_spec hs.shape hn0
      refine ⟨hnd.map_on ?_, ?_⟩
      · intro m hmm n hnn he
        obtain ⟨p, _, hp⟩ := (hreal m).mp hmm
        obtain ⟨q, _, hq⟩ := (hreal n).mp hnn
        exact key_inj hd hs hn0 hp hq (congrArg NodeData.nodeKey he)
      · intro d
        rw [List.mem_map]
        constructor
        · intro ⟨n, hn, he⟩
          obtain ⟨p, hne, hp⟩ := (hreal n).mp hn
          cases p with
          | nil => exact absurd rfl hne
          | cons a p => exact ⟨a, p, n, hp, he⟩
        · intro ⟨a, p, n, hp, he⟩
          exact ⟨n, (hreal n).mpr ⟨a :: p, List.cons_ne_nil a p, hp⟩, he⟩
    obtain ⟨hnd1, hmem1⟩ := entries hf hr
    obtain ⟨hnd2, hmem2⟩ := entries hm.sturdy hg
    apply (List.perm_ext_iff_of_nodup hnd2 hnd1).mpr
    intro d
    rw [hmem2, hmem1]
    constructor
    · intro ⟨a, p, m, hgm, he⟩
      obtain ⟨n, hn, h⟩ := (hgm ▸ loaded_path hm r a p).to_some
      exact ⟨a, p, n, hn, h.data.symm.trans he⟩
    · intro ⟨a, p, n, hn, he⟩
      obtain ⟨m, hgm, h⟩ := (hn ▸ loaded_path hm r a p).of_some
      exact ⟨a, p, m, hgm, h.data.trans he⟩

/-- The order of worlds and of chunks may differ. -/
theorem loaded_contents (hd : Hash digest) : SameContents f.snapshot g.snapshot := by
  refine ⟨rfl, ?_, ?_⟩
  · intro x hx
    obtain ⟨ns, hns, he⟩ := List.mem_map.mp hx
    obtain ⟨r, hr⟩ := Dict.mem_values.mp hns
    have hr : f.resolve r = some ns := hr
    obtain ⟨nt, hg, _⟩ := (hr ▸ loaded_world hf hm (r := r)).of_some
    exact ⟨_, List.mem_map.mpr ⟨nt, Dict.mem_values.mpr ⟨r, hg⟩, rfl⟩,
      he ▸ loaded_entries hf hm hd hr hg⟩
  · intro y hy
    obtain ⟨nt, hnt, he⟩ := List.mem_map.mp hy
    obtain ⟨r, hg⟩ := Dict.mem_values.mp hnt
    have hg : g.resolve r = some nt := hg
    obtain ⟨ns, hr, _⟩ := (hg ▸ loaded_world hf hm (r := r)).to_some
    exact ⟨_, List.mem_map.mpr ⟨ns, Dict.mem_values.mpr ⟨r, hr⟩, rfl⟩,
      he ▸ loaded_entries hf hm hd hr hg⟩

end

/-- A forest saved to a file and loaded by a new process is the same forest to its users. -/
theorem saved_forest_loads (hd : Hash digest) (h : Reach digest S W cfg f) :
    ∃ g, loadForestSnapshot (some f.saveForestSnapshot) none =
        some (.ok (realNodeCount f), g) ∧
      (∀ r actions, SameAnswer f g (f.lookup r actions) (g.lookup r actions)) ∧
      (∀ r p, Alike (SameNode f g) (f.nodeAt r p) (g.nodeAt r p)) ∧
      SameContents f.snapshot g.snapshot := by
  have hf := reach_sturdy hd h
  obtain ⟨g, hg, hm⟩ := loadSnapshot_merged hd hf empty_sturdy
  refine ⟨g, ?_, loaded_lookup hf hm, loaded_node hf hm, loaded_contents hf hm hd⟩
  rw [load_saved, ← entryCount_eq hf.shape]
  exact congrArg some hg

def marked (b : Bytes) : Bytes := 0 :: b

theorem marked_hash : Hash marked :=
  ⟨fun _ _ h => List.tail_eq_of_cons_eq h, fun b => List.cons_ne_nil 0 b⟩

theorem marked_apart (b : Bytes) : Apart marked (1 :: b) := by
  intro k a h
  obtain ⟨c, _, hc⟩ := Option.map_eq_some_iff.mp h
  exact absurd (List.head_eq_of_cons_eq hc) (by decide)

/-- The chunk `action` under the node `parent` with key `key`, with its key in the chain. -/
def markedChunk (parent : NodeId) (key : Bytes) (depth : Int) (action : ActionKey) :
    IngestArgs Unit Unit :=
  { parent, action, depth, nodeKey := (nodeKey marked key action.bytes).getD [], kvPayload := [()],
    latent := () }

def oneChunk : NamespaceForest :=
  (ingest (inMemoryTierStore Unit Unit) ⟨2, 1, 1, .cpu⟩
    (NamespaceForest.empty.getOrCreateNamespace [1] [2]).1 {} (markedChunk 0 [1] 0 (.int 7))).2.1

theorem oneChunk_reach :
    Reach marked (inMemoryTierStore Unit Unit) ForestMap.idleWindow ⟨2, 1, 1, .cpu⟩ oneChunk := by
  apply Reach.ingest (Reach.create Reach.empty (marked_apart []) [2])
  refine ⟨?_, ?_, ?_⟩
  · exact Nat.zero_lt_one
  · rfl
  · rfl

theorem saved_forest_loads_one_chunk : ∃ g,
    loadForestSnapshot (some oneChunk.saveForestSnapshot) none =
      some (.ok (realNodeCount oneChunk), g) ∧
    SameAnswer oneChunk g (oneChunk.lookup [1] [.int 7]) (g.lookup [1] [.int 7]) := by
  obtain ⟨g, hg, hl, _⟩ := saved_forest_loads marked_hash oneChunk_reach
  exact ⟨g, hg, hl [1] [.int 7]⟩

end CacheSeek.Proofs.SnapshotRoundTrip
