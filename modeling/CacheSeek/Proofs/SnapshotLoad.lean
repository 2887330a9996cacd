import CacheSeek.Proofs.SnapshotNodes
import CacheSeek.Proofs.Worlds

namespace CacheSeek.Proofs.SnapshotLoad
open CacheSeek.Lib CacheSeek.Prefix CacheSeek.Prefix.NamespaceForest CacheSeek.Proofs.KeyIdentity
open CacheSeek.Proofs.Worlds CacheSeek.Proofs.SnapshotNodes

/-- What node keys rely on of SHA-256. -/
structure Hash (digest : Bytes → Bytes) : Prop where
  injective : Function.Injective digest
  nonempty : ∀ b, digest b ≠ []

/-- A root hash that is no chunk's key. -/
def Apart (digest : Bytes → Bytes) (r : Bytes) : Prop := ∀ k a, nodeKey digest k a ≠ some r

variable {digest : Bytes → Bytes}

/-- A root hash is never the key of a chunk: their preimages begin differently. -/
theorem rootHash_apart (hd : Function.Injective digest) {i p c r : Bytes}
    (h : rootHash digest i p c = some r) : Apart digest r :=
  fun _ _ hk => nodeKey_ne_rootHash hd hk h

theorem sessionRoot_apart (hd : Function.Injective digest) {session : SessionConfig} {fp r : Bytes}
    (h : sessionRootHash digest session fp = some r) : Apart digest r := by
  simp only [sessionRootHash, Option.bind_eq_bind, Option.bind_eq_some_iff] at h
  obtain ⟨_, _, _, _, _, _, hr⟩ := h
  exact rootHash_apart hd hr

theorem pathKey_ne_nil (hd : Hash digest) {r k : Bytes} {p : List ActionKey} (hp : p ≠ [])
    (h : pathKey digest r p = some k) : k ≠ [] := by
  rcases List.eq_nil_or_concat p with hnil | ⟨q, a, hq⟩
  · exact absurd hnil hp
  · rw [hq, List.concat_eq_append, pathKey_snoc, Option.bind_eq_some_iff] at h
    obtain ⟨k', _, hk⟩ := h
    obtain ⟨b, _, hb⟩ := Option.map_eq_some_iff.mp hk
    exact hb ▸ hd.nonempty b

/-- A key is the key of one path of one world. -/
theorem pathKey_inj (hd : Function.Injective digest) {r r' k : Bytes} (hr : Apart digest r) (hr' : Apart digest r')
    {p q : List ActionKey} (hp : pathKey digest r p = some k) (hq : pathKey digest r' q = some k) :
    r = r' ∧ p = q := by
  induction p using List.reverseRecOn generalizing k q with
  | nil =>
    cases hp
    rcases List.eq_nil_or_concat q with hnil | ⟨q, a, hq'⟩
    · rw [hnil] at hq
      exact ⟨(Option.some.inj hq).symm, hnil.symm⟩
    · rw [hq', List.concat_eq_append, pathKey_snoc, Option.bind_eq_some_iff] at hq
      obtain ⟨k, _, hk⟩ := hq
      exact absurd hk (hr k _)
  | append_singleton p a ih =>
    rw [pathKey_snoc, Option.bind_eq_some_iff] at hp
    obtain ⟨k1, hk1, ha⟩ := hp
    rcases List.eq_nil_or_concat q with hnil | ⟨q, b, hq'⟩
    · rw [hnil] at hq
      cases hq
      exact absurd ha (hr' k1 _)
    · rw [hq', List.concat_eq_append, pathKey_snoc, Option.bind_eq_some_iff] at hq
      obtain ⟨k2, hk2, hb⟩ := hq
      obtain ⟨hk, hab⟩ := nodeKey_inj hd ha hb
      subst k2
      obtain ⟨he, hpq⟩ := ih hk1 hk2
      exact ⟨he, by rw [hq', List.concat_eq_append, hpq, ActionKey.bytes_inj hab]⟩

structure Sturdy (digest : Bytes → Bytes) (f : NamespaceForest) : Prop where
  shape : Shape f
  edges : Edges (ChainEdge digest) f
  apart : ∀ {r ns}, f.resolve r = some ns → Apart digest r
  roots : ∀ {n}, n < f.nodes.size → (f.node n).parent = none →
    (f.node n).action = .int (-1) ∧ (f.node n).skeleton = none ∧ (f.node n).blob = none ∧
      (f.node n).pinned = true
  skeleton : ∀ {n s}, n < f.nodes.size → (f.node n).skeleton = some s → s.latentLocator ≠ ""
  blob_lt : ∀ {n b}, n < f.nodes.size → (f.node n).blob = some b → b < f.handles.size

/-- Nodes and handles there were stay as they were, up to new children. -/
structure Frame (f g : NamespaceForest) : Prop where
  size : f.nodes.size ≤ g.nodes.size
  handles : f.handles.size ≤ g.handles.size
  node : ∀ {n}, n < f.nodes.size → ∃ cs, g.node n = { f.node n with children := cs }
  handle : ∀ {b}, b < f.handles.size → g.handle b = f.handle b

theorem Frame.refl (f : NamespaceForest) : Frame f f :=
  ⟨Nat.le_refl _, Nat.le_refl _, fun _ => ⟨_, rfl⟩, fun _ => rfl⟩

theorem Frame.trans {f g h : NamespaceForest} (hg : Frame f g) (hh : Frame g h) : Frame f h := by
  refine ⟨Nat.le_trans hg.size hh.size, Nat.le_trans hg.handles hh.handles, ?_, ?_⟩
  · intro n hn
    obtain ⟨cs, hcs⟩ := hg.node hn
    obtain ⟨ds, hds⟩ := hh.node (Nat.lt_of_lt_of_le hn hg.size)
    exact ⟨ds, by rw [hds, hcs]⟩
  · intro b hb
    rw [hh.handle (Nat.lt_of_lt_of_le hb hg.handles), hg.handle hb]

section
variable {f g : NamespaceForest}

theorem Frame.hasKv (h : Frame f g) (hs : Sturdy digest f) {n : NodeId} (hn : n < f.nodes.size) :
    g.hasKv n = f.hasKv n := by
  obtain ⟨cs, hcs⟩ := h.node hn
  apply hasKv_congr
  · rw [hcs]
  · intro b hb
    rw [h.handle (hs.blob_lt hn hb)]

/-- Growing the forest changes no entry already snapshotted. -/
theorem Frame.nodeData (h : Frame f g) (hs : Sturdy digest f) {n : NodeId} (hn : n < f.nodes.size) :
    g.nodeData n = f.nodeData n := by
  obtain ⟨cs, hcs⟩ := h.node hn
  have hparent : (g.node n).parent.map (fun m => hex (g.node m).nodeKey) =
      (f.node n).parent.map fun m => hex (f.node m).nodeKey := by
    rw [hcs]
    cases hp : (f.node n).parent with
    | none => rfl
    | some m =>
      obtain ⟨ds, hds⟩ := h.node (Nat.lt_trans (hs.shape.parent_lt hn hp) hn)
      simp only [Option.map_some, hds]
  have hblob : (g.node n).blob.map (fun b => blobData (g.handle b)) =
      (f.node n).blob.map fun b => blobData (f.handle b) := by
    rw [hcs]
    cases hb : (f.node n).blob with
    | none => rfl
    | some b => simp only [Option.map_some, h.handle (hs.blob_lt hn hb)]
  unfold NamespaceForest.nodeData
  simp only [hparent, hblob, h.hasKv hs hn]
  simp only [hcs]

/-- A node of `g` that says the same as a node of `f`, with a blob only if that is published. -/
structure Copy (f : NamespaceForest) (n : NodeId) (g : NamespaceForest) (m : NodeId) : Prop where
  data : g.nodeData m = f.nodeData n
  bare : (g.node m).blob.isSome = f.hasKv n

theorem Copy.nodeKey {n m : NodeId} (h : Copy f n g m) : (g.node m).nodeKey = (f.node n).nodeKey :=
  hex_injective (congrArg NodeData.nodeKey h.data)

theorem Copy.depth {n m : NodeId} (h : Copy f n g m) : (g.node m).depth = (f.node n).depth :=
  congrArg NodeData.depth h.data

/-- A copy stays a copy while the target grows. -/
theorem Copy.frame {g' : NamespaceForest} {n m : NodeId} (h : Copy f n g m) (hs : Sturdy digest g)
    (hf : Frame g g') (hm : m < g.nodes.size) : Copy f n g' m := by
  refine ⟨(hf.nodeData hs hm).trans h.data, ?_⟩
  obtain ⟨cs, hcs⟩ := hf.node hm
  rw [hcs]
  exact h.bare

theorem storeBlob_sameTrie (f : NamespaceForest) (blob : Option BlobHandle) :
    SameTrie f (f.storeBlob blob).1 := by
  cases blob with
  | none => exact SameTrie.refl f
  | some b => exact ⟨rfl, rfl, fun _ => rfl⟩

theorem storeBlob_frame (f : NamespaceForest) (blob : Option BlobHandle) :
    Frame f (f.storeBlob blob).1 := by
  cases blob with
  | none => exact Frame.refl f
  | some b =>
    exact ⟨Nat.le_refl _, Nat.le_succ _, fun _ => ⟨_, rfl⟩, fun hb => Heap.get_alloc_lt _ _ hb⟩

theorem storeBlob_handle (f : NamespaceForest) (blob : Option BlobHandle) :
    (f.storeBlob blob).2.map (f.storeBlob blob).1.handle = blob ∧
      ∀ x, (f.storeBlob blob).2 = some x → x < (f.storeBlob blob).1.handles.size := by
  cases blob with
  | none => exact ⟨rfl, fun x hx => by cases hx⟩
  | some b =>
    refine ⟨congrArg some (Heap.get_alloc_self _ _), fun x hx => ?_⟩
    cases hx
    exact Nat.lt_succ_self _

theorem Sturdy.storeBlob (h : Sturdy digest f) (blob : Option BlobHandle) :
    Sturdy digest (f.storeBlob blob).1 := by
  have hs := storeBlob_sameTrie f blob
  have hf := storeBlob_frame f blob
  have hnodes : (f.storeBlob blob).1.nodes = f.nodes := by cases blob <;> rfl
  have hnode : ∀ n, (f.storeBlob blob).1.node n = f.node n := fun n => by
    simp only [node, hnodes]
  refine ⟨hs.shape h.shape, h.edges.sameTrie hs, ?_, ?_, ?_, ?_⟩
  · intro r ns hr
    exact h.apart (hs.resolve r ▸ hr)
  · intro n hn hp
    rw [hnode] at hp ⊢
    exact h.roots (hnodes ▸ hn) hp
  · intro n s hn hsk
    rw [hnode] at hsk
    exact h.skeleton (hnodes ▸ hn) hsk
  · intro n b hn hb
    rw [hnode] at hb
    exact Nat.lt_of_lt_of_le (h.blob_lt (hnodes ▸ hn) hb) hf.handles

theorem addChild_frame {n : NodeId} (hn : n < f.nodes.size) (x : TrieNode) :
    Frame f (f.addChild n x).1 :=
  ⟨Nat.le_succ _, Nat.le_refl _, fun hm => f.addChild_old hn x hm, fun _ => rfl⟩

theorem Sturdy.addChild (h : Sturdy digest f) {n : NodeId} {x : TrieNode} (hn : n < f.nodes.size)
    (hp : x.parent = some n) (hx : x.children = ∅)
    (hR : ChainEdge digest (f.node n).nodeKey (f.node n).depth x.action x.nodeKey x.depth)
    (hsk : ∀ s, x.skeleton = some s → s.latentLocator ≠ "")
    (hb : ∀ b, x.blob = some b → b < f.handles.size) : Sturdy digest (f.addChild n x).1 := by
  refine ⟨h.shape.addChild hn hp hx, h.edges.addChild h.shape hn hx hR, h.apart, ?_, ?_, ?_⟩
  · intro m hm hpar
    rcases Nat.lt_succ_iff_lt_or_eq.mp hm with hm | hm
    · obtain ⟨cs, he⟩ := f.addChild_old hn x hm
      rw [he] at hpar ⊢
      exact h.roots hm hpar
    · rw [hm, f.addChild_new hn x, hp] at hpar
      cases hpar
  · intro m s hm hs
    rcases Nat.lt_succ_iff_lt_or_eq.mp hm with hm | hm
    · obtain ⟨cs, he⟩ := f.addChild_old hn x hm
      rw [he] at hs
      exact h.skeleton hm hs
    · rw [hm, f.addChild_new hn x] at hs
      exact hsk s hs
  · intro m b hm hbm
    rcases Nat.lt_succ_iff_lt_or_eq.mp hm with hm | hm
    · obtain ⟨cs, he⟩ := f.addChild_old hn x hm
      rw [he] at hbm
      exact h.blob_lt hm hbm
    · rw [hm, f.addChild_new hn x] at hbm
      exact hb b hbm

end

/-- The loader has gone through the entries of `done`, nodes of the world `r` of `f`. -/
structure Loaded (digest : Bytes → Bytes) (f t : NamespaceForest) (r : Bytes) (root : NodeId)
    (count : Nat) (done : List NodeId) (l : Loading) : Prop where
  sturdy : Sturdy digest l.forest
  frame : Frame t l.forest
  namespaces : l.forest.namespaces = t.namespaces
  other : ∀ {r'}, r' ≠ r → ∀ q, l.forest.nodeAt r' q = t.nodeAt r' q
  kept : ∀ {a}, (∀ n, f.nodeAt r [a] = some n → n ∉ done) →
    ∀ q, l.forest.nodeAt r (a :: q) = t.nodeAt r (a :: q)
  gone : ∀ {a n q}, f.nodeAt r [a] = some n → n ∈ done →
    (∀ m, f.nodeAt r (a :: q) = some m → m ∉ done) → l.forest.nodeAt r (a :: q) = none
  new : ∀ {q n}, f.nodeAt r q = some n → n ∈ done → ∃ m, l.forest.nodeAt r q = some m ∧
    t.nodes.size ≤ m ∧ l.byKey.get? (hex (f.node n).nodeKey) = some m ∧ Copy f n l.forest m
  closed : ∀ {p q n}, p ≠ [] → f.nodeAt r (p ++ q) = some n → n ∈ done →
    ∃ m, f.nodeAt r p = some m ∧ m ∈ done
  rootKey : l.byKey.get? (hex r) = some root
  loaded : l.loaded = count + done.length

section
variable {f t : NamespaceForest} {r : Bytes} {ns nt : Namespace} {count : Nat} {done : List NodeId}
  {l : Loading}

/-- The loader finds an entry's parent: the world's root or the copy of the parent. -/
theorem Loaded.parent (hd : Hash digest) (hf : Sturdy digest f)
    (h : Loaded digest f t r nt.root count done l) (ht : t.resolve r = some nt)
    {p : List ActionKey} {a : ActionKey} {n : NodeId} (hn : f.nodeAt r (p ++ [a]) = some n)
    (hp : p ≠ [] → ∃ m, f.nodeAt r p = some m ∧ m ∈ done) :
    ∃ μ, l.parent nt.root (f.nodeData n) = some μ ∧ l.forest.nodeAt r p = some μ ∧
      (∃ m, f.nodeAt r p = some m ∧ (f.node n).parent = some m ∧
        (l.forest.node μ).nodeKey = (f.node m).nodeKey ∧
        (l.forest.node μ).depth = (f.node m).depth ∧
        ChainEdge digest (f.node m).nodeKey (f.node m).depth a (f.node n).nodeKey (f.node n).depth) := by
  obtain ⟨m, hm, hc, hpar, _⟩ := hf.shape.nodeAt_snoc_iff.mp hn
  have hedge := hf.edges (hf.shape.nodeAt_lt hm) hc
  have hentry : (f.nodeData n).parent = some (hex (f.node m).nodeKey) := by
    simp only [nodeData, hpar, Option.map_some]
  have hres : l.forest.resolve r = some nt := by
    simp only [resolve, h.namespaces]
    exact ht
  cases p with
  | nil =>
    obtain ⟨ns', hr', hroot⟩ := Shape.nodeAt_nil_iff.mp hm
    have hkey : (f.node m).nodeKey = r := by rw [← hroot, hf.shape.root_key hr']
    have hdepth : (f.node m).depth = -1 := by rw [← hroot, hf.shape.root_depth hr']
    refine ⟨nt.root, ?_, Shape.nodeAt_nil_iff.mpr ⟨nt, hres, rfl⟩, m, hm, hpar, ?_, ?_, hedge⟩
    · simp only [Loading.parent, hentry, hkey, h.rootKey, ite_self]
    · rw [hkey, h.sturdy.shape.root_key hres]
    · rw [hdepth, h.sturdy.shape.root_depth hres]
  | cons b p =>
    obtain ⟨m', hm', hdone⟩ := hp (List.cons_ne_nil b p)
    rw [hm] at hm'
    cases hm'
    obtain ⟨μ, hμ, _, hby, hcopy⟩ := h.new hm hdone
    have hne : hex (f.node m).nodeKey ≠ "" := fun he =>
      pathKey_ne_nil hd (List.cons_ne_nil b p) (nodeAt_key hf.shape hf.edges hm) (hex_eq_empty.mp he)
    refine ⟨μ, ?_, hμ, m, hm, hpar, hcopy.nodeKey, hcopy.depth, hedge⟩
    simp only [Loading.parent, hentry, hne, ↓reduceIte, hby]

/-- Reading a node's entry puts a copy of it under the parent found. -/
theorem step_nodeData (f : NamespaceForest) (l : Loading) {root μ : NodeId} {n : NodeId}
    (hμ : l.parent root (f.nodeData n) = some μ) :
    l.step root (f.nodeData n) =
      (.ok (), l.add μ (f.node n).nodeKey (f.nodeData n) (publishedBlob f n)) := by
  have hkey : parseHex (f.nodeData n).nodeKey = .ok (f.node n).nodeKey := by
    simp only [parseHex, nodeData, fromHex_hex]
  have hblob := nodeData_blob f n
  simp only [Loading.step, hμ, hkey, hblob]
  cases hb : publishedBlob f n with
  | none => rfl
  | some b => simp only [Option.map_some, blobData_handle (publishedBlob_ready hb)]

/-- The node the loader makes of an entry is a copy of the entry's node. -/
theorem node_copy {g : NamespaceForest} (hf : Sturdy digest f) {n m k μ : NodeId}
    {b : Option HandleId} (hn : n < f.nodes.size) (hpar : (f.node n).parent = some m)
    (hk : g.node k = (f.nodeData n).node μ (f.node n).nodeKey b)
    (hμ : (g.node μ).nodeKey = (f.node m).nodeKey) (hb : b.map g.handle = publishedBlob f n) :
    Copy f n g k := by
  have hblob : publishedBlob g k = publishedBlob f n := by
    rw [← hb]
    unfold publishedBlob hasKv
    rw [hk]
    cases b with
    | none => rfl
    | some b =>
      have hready : (g.handle b).ready = true := publishedBlob_ready hb.symm
      exact if_pos hready
  constructor
  · apply NodeData.ext
    · simp only [nodeData, hk, NodeData.node]
    · simp only [nodeData, hk, NodeData.node]
    · simp only [nodeData, hk, NodeData.node]
    · simp only [nodeData, hk, NodeData.node, hpar, Option.map_some, hμ]
    · simp only [nodeData, hk, NodeData.node]
    · simp only [nodeData, hk, NodeData.node]
      cases hs : (f.node n).skeleton with
      | none => rfl
      | some s => simp [Option.filter, hf.skeleton hn hs]
    · rw [nodeData_blob, nodeData_blob, hblob]
  · rw [← publishedBlob_isSome, ← hb, Option.isSome_map, hk]
    rfl

/-- No chunk shares its world's root key. -/
theorem key_ne_root (hf : Sturdy digest f) (hr : f.resolve r = some ns)
    {p : List ActionKey} {a : ActionKey} {n : NodeId} (hn : f.nodeAt r (p ++ [a]) = some n) :
    hex r ≠ hex (f.node n).nodeKey := by
  intro he
  have hk := nodeAt_key hf.shape hf.edges hn
  rw [← hex_injective he, pathKey_snoc, Option.bind_eq_some_iff] at hk
  obtain ⟨k, _, hk⟩ := hk
  exact hf.apart hr k _ hk

/-- Within one world the key names the chunk. -/
theorem key_inj (hd : Hash digest) (hf : Sturdy digest f) (hr : f.resolve r = some ns)
    {p q : List ActionKey} {m n : NodeId} (hm : f.nodeAt r p = some m) (hn : f.nodeAt r q = some n)
    (h : hex (f.node m).nodeKey = hex (f.node n).nodeKey) : m = n := by
  have hk := nodeAt_key hf.shape hf.edges hm
  rw [hex_injective h] at hk
  obtain ⟨_, hpq⟩ := pathKey_inj hd.injective (hf.apart hr) (hf.apart hr) hk (nodeAt_key hf.shape hf.edges hn)
  rw [hpq, hn] at hm
  exact (Option.some.inj hm).symm

/-- With one node more, whose parent is done, what is above a done node still is. -/
theorem Loaded.closed_next (hf : Sturdy digest f) (h : Loaded digest f t r nt.root count done l)
    {p : List ActionKey} {a : ActionKey} {n : NodeId} (hn : f.nodeAt r (p ++ [a]) = some n)
    (hp : p ≠ [] → ∃ m, f.nodeAt r p = some m ∧ m ∈ done) {p' q : List ActionKey} {n' : NodeId} (hne : p' ≠ [])
    (hq : f.nodeAt r (p' ++ q) = some n') (hdone : n' ∈ done ++ [n]) :
    ∃ m, f.nodeAt r p' = some m ∧ m ∈ done ++ [n] := by
  rcases List.mem_append.mp hdone with hdone | hdone
  · obtain ⟨m', hm', hdone'⟩ := h.closed hne hq hdone
    exact ⟨m', hm', List.mem_append_left _ hdone'⟩
  · rw [List.mem_singleton] at hdone
    subst n'
    obtain ⟨_, he⟩ := hf.shape.nodeAt_inj hn hq
    rcases List.eq_nil_or_concat q with hnil | ⟨q', c, hq'⟩
    · rw [hnil, List.append_nil] at he
      exact ⟨n, he ▸ hn, by simp⟩
    · rw [hq', List.concat_eq_append, ← List.append_assoc] at he
      obtain ⟨he, _⟩ := List.append_inj' he rfl
      obtain ⟨m', hm', hdone'⟩ := hp (by simp [he, hne])
      obtain ⟨m'', hm'', hdone''⟩ := h.closed hne (he ▸ hm') hdone'
      exact ⟨m'', hm'', List.mem_append_left _ hdone''⟩

/-- The first step of a new path leads to a node that is done, or to the new one. -/
theorem Loaded.head_done (hf : Sturdy digest f) (h : Loaded digest f t r nt.root count done l)
    {p : List ActionKey} {a : ActionKey} {n : NodeId} (hn : f.nodeAt r (p ++ [a]) = some n)
    (hp : p ≠ [] → ∃ m, f.nodeAt r p = some m ∧ m ∈ done) {b : ActionKey} {q : List ActionKey}
    (hpre : p ++ [a] <+: b :: q) : ∃ n', f.nodeAt r [b] = some n' ∧ n' ∈ done ++ [n] := by
  obtain ⟨s, hs⟩ := hpre
  obtain ⟨rest, hrest⟩ : ∃ rest, p ++ [a] = [b] ++ rest := by
    cases p with
    | nil => exact ⟨[], by rw [(List.cons.inj hs).1]; rfl⟩
    | cons c p => exact ⟨p ++ [a], by rw [← (List.cons.inj hs).1]; rfl⟩
  have hn' := hn
  rw [hrest] at hn'
  exact h.closed_next hf hn hp (List.cons_ne_nil b []) hn' (by simp)

/-- A done node is not below one that is still to come. -/
theorem Loaded.not_below (h : Loaded digest f t r nt.root count done l) {p : List ActionKey}
    {a : ActionKey} {n : NodeId} (hn : f.nodeAt r (p ++ [a]) = some n) (hfresh : n ∉ done)
    {q : List ActionKey} {m : NodeId} (hq : f.nodeAt r q = some m) (hdone : m ∈ done) :
    ¬ p ++ [a] <+: q := by
  intro hpre
  obtain ⟨s, hs⟩ := hpre
  obtain ⟨m', hm', hdone'⟩ := h.closed (by simp) (hs.symm ▸ hq) hdone
  rw [hn] at hm'
  cases hm'
  exact hfresh hdone'

/-- One entry more: its node's path is there, and what hung at that path before is not. -/
theorem Loaded.next (hd : Hash digest) (hf : Sturdy digest f)
    (h : Loaded digest f t r nt.root count done l) (hr : f.resolve r = some ns)
    (ht : t.resolve r = some nt) {p : List ActionKey} {a : ActionKey} {n : NodeId}
    (hn : f.nodeAt r (p ++ [a]) = some n) (hfresh : n ∉ done)
    (hp : p ≠ [] → ∃ m, f.nodeAt r p = some m ∧ m ∈ done) :
    ∃ l', l.step nt.root (f.nodeData n) = (.ok (), l') ∧
      Loaded digest f t r nt.root count (done ++ [n]) l' := by
  obtain ⟨μ, hμ, hμp, m, hm, hpar, hkey, hdepth, hedge⟩ := h.parent hd hf ht hn hp
  refine ⟨_, step_nodeData f l hμ, ?_⟩
  have hnl := hf.shape.nodeAt_lt hn
  have hst := storeBlob_sameTrie l.forest (publishedBlob f n)
  have hfr := storeBlob_frame l.forest (publishedBlob f n)
  have hF := h.sturdy.storeBlob (publishedBlob f n)
  obtain ⟨hb, hblt⟩ := storeBlob_handle l.forest (publishedBlob f n)
  have haction : (f.node n).action = a := (hf.shape.nodeAt_snoc_iff.mp hn).choose_spec.2.2.2
  have hμl := h.sturdy.shape.nodeAt_lt hμp
  simp only [Loading.add]
  generalize hFe : l.forest.storeBlob (publishedBlob f n) = Fb at *
  obtain ⟨F, b⟩ := Fb
  simp only at hst hfr hF hb hblt ⊢
  have hμF : μ < F.nodes.size := hst.size ▸ hμl
  have hμpF : F.nodeAt r p = some μ := (hst.nodeAt r p).trans hμp
  have hkeyF : (F.node μ).nodeKey = (f.node m).nodeKey := (hst.nodeKey μ).trans hkey
  have hdepthF : (F.node μ).depth = (f.node m).depth := (hst.depth μ).trans hdepth
  have hcopy : Copy f n (F.addChild μ ((f.nodeData n).node μ (f.node n).nodeKey b)).1
      F.nodes.size := by
    apply node_copy hf hnl hpar (F.addChild_new hμF _) ?_ hb
    obtain ⟨cs, hcs⟩ := F.addChild_old hμF ((f.nodeData n).node μ (f.node n).nodeKey b) hμF
    rw [hcs]
    exact hkeyF
  have hframe := hfr.trans (addChild_frame hμF ((f.nodeData n).node μ (f.node n).nodeKey b))
  have hpath : ∀ r' q, (F.addChild μ ((f.nodeData n).node μ (f.node n).nodeKey b)).1.nodeAt r' q =
      if r' = r ∧ p ++ [a] <+: q then if q = p ++ [a] then some F.nodes.size else none
      else l.forest.nodeAt r' q := by
    intro r' q
    have hxa : ((f.nodeData n).node μ (f.node n).nodeKey b).action = a := haction
    have := hF.shape.nodeAt_replace (x := (f.nodeData n).node μ (f.node n).nodeKey b) rfl hμpF r' q
    rwa [hxa, hst.nodeAt r' q] at this
  refine ⟨?_, h.frame.trans hframe, ?_, ?_, ?_, ?_, ?_, ?_, ?_, ?_⟩
  · refine hF.addChild hμF rfl rfl ?_ ?_ hblt
    · rw [hkeyF, hdepthF]
      exact haction ▸ hedge
    · intro s hs
      obtain ⟨loc, hloc, he⟩ := Option.map_eq_some_iff.mp hs
      have := (Option.filter_eq_some_iff.mp hloc).2
      rw [← he]
      simpa using this
  · rw [← h.namespaces, ← hst.namespaces]
    rfl
  · intro r' hne q
    rw [hpath, if_neg fun hq => hne hq.1, h.other hne]
  · intro b hb q
    rw [hpath, if_neg, h.kept fun n' hn' hdone => hb n' hn' (List.mem_append_left _ hdone)]
    intro hq
    obtain ⟨n', hn', hdone⟩ := h.head_done hf hn hp hq.2
    exact hb n' hn' hdone
  · intro b n' q hn' hdone hall
    rw [hpath]
    by_cases hq : r = r ∧ p ++ [a] <+: b :: q
    · rw [if_pos hq, if_neg]
      intro he
      exact hall n (he ▸ hn) (by simp)
    · rw [if_neg hq]
      rcases List.mem_append.mp hdone with hdone | hdone
      · exact h.gone hn' hdone fun m' hm' hm'' => hall m' hm' (List.mem_append_left _ hm'')
      · rw [List.mem_singleton] at hdone
        subst n'
        obtain ⟨_, he⟩ := hf.shape.nodeAt_inj hn hn'
        exact absurd ⟨rfl, he ▸ List.prefix_append [b] q⟩ hq
  · intro q n' hq hdone
    rcases List.mem_append.mp hdone with hdone | hdone
    · obtain ⟨m', hm', hle, hby, hc⟩ := h.new hq hdone
      have hnpre : ¬ (r = r ∧ p ++ [a] <+: q) := fun hpre => h.not_below hn hfresh hq hdone hpre.2
      have hml := h.sturdy.shape.nodeAt_lt hm'
      refine ⟨m', by rw [hpath, if_neg hnpre, hm'], hle, ?_, hc.frame h.sturdy hframe hml⟩
      rw [Dict.get?_set_ne, hby]
      intro he
      exact hfresh (key_inj hd hf hr hq hn he ▸ hdone)
    · rw [List.mem_singleton] at hdone
      subst n'
      obtain ⟨_, he⟩ := hf.shape.nodeAt_inj hn hq
      refine ⟨F.nodes.size, ?_, ?_, Dict.get?_set_self _ _ _, hcopy⟩
      · rw [hpath, ← he, if_pos ⟨rfl, List.prefix_rfl⟩, if_pos rfl]
      · rw [hst.size]
        exact h.frame.size
  · exact fun hne hq hdone => h.closed_next hf hn hp hne hq hdone
  · exact (Dict.get?_set_ne _ _ (key_ne_root hf hr hn)).trans h.rootKey
  · rw [h.loaded, List.length_append]
    rfl

end

end CacheSeek.Proofs.SnapshotLoad
