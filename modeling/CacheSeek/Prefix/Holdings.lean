import CacheSeek.Prefix.Growth
import CacheSeek.Prefix.Sessions

namespace CacheSeek.Prefix
open CacheSeek.Lib
namespace NamespaceForest

variable {f : NamespaceForest}

@[simp] theorem modifyNode_self (f : NamespaceForest) (n : NodeId) (u : TrieNode → TrieNode) :
    (f.modifyNode n u).node n = u (f.node n) :=
  Heap.get_modify_self _ _ _

theorem modifyNode_ne (f : NamespaceForest) {n m : NodeId} (u : TrieNode → TrieNode) (h : m ≠ n) :
    (f.modifyNode n u).node m = f.node m :=
  Heap.get_modify_ne _ _ h

@[simp] theorem modifyNode_handles (f : NamespaceForest) (n : NodeId) (u : TrieNode → TrieNode) :
    (f.modifyNode n u).handles = f.handles := rfl

theorem pinSink_sameTrie (f : NamespaceForest) (cfg : WorldKVConfig) (n : NodeId) (d : Int) :
    SameTrie f (f.pinSink cfg n d) := by
  unfold pinSink
  split
  · exact SameTrie.modifyNode f n _ fun p => ⟨rfl, rfl, rfl, rfl, rfl⟩
  · exact SameTrie.refl f

/-- A node pinned once stays pinned. -/
theorem pinSink_self (f : NamespaceForest) (cfg : WorldKVConfig) (n : NodeId) (d : Int) :
    (f.pinSink cfg n d).node n =
      { f.node n with pinned := (f.node n).pinned || decide (d < cfg.sinkChunks) } := by
  unfold pinSink
  split
  · rename_i h
    rw [modifyNode_self]
    simp [h]
  · rename_i h
    simp [h]

theorem pinSink_ne (f : NamespaceForest) (cfg : WorldKVConfig) {n m : NodeId} (d : Int)
    (h : m ≠ n) : (f.pinSink cfg n d).node m = f.node m := by
  unfold pinSink
  split
  · exact f.modifyNode_ne _ h
  · rfl

@[simp] theorem pinSink_handles (f : NamespaceForest) (cfg : WorldKVConfig) (n : NodeId) (d : Int) :
    (f.pinSink cfg n d).handles = f.handles := by
  unfold pinSink
  split <;> rfl

theorem setSkeleton_sameTrie (f : NamespaceForest) (n : NodeId) (k : Bytes) :
    SameTrie f (f.setSkeleton n k) :=
  SameTrie.modifyNode f n _ fun _ => ⟨rfl, rfl, rfl, rfl, rfl⟩

theorem attachBlob_sameTrie (f : NamespaceForest) (n : NodeId) (b : BlobHandle) :
    SameTrie f (f.attachBlob n b).1 := by
  obtain ⟨_, _, h⟩ := SameTrie.modifyNode f n (fun p => { p with blob := some f.handles.size })
    fun _ => ⟨rfl, rfl, rfl, rfl, rfl⟩
  exact ⟨rfl, rfl, h⟩

theorem publish_sameTrie (f : NamespaceForest) (h : HandleId) : SameTrie f (f.publish h) :=
  ⟨rfl, rfl, fun _ => rfl⟩

theorem publish_handle_self (f : NamespaceForest) (h : HandleId) :
    (f.publish h).handle h = { f.handle h with ready := true } := by
  simp only [handle, publish, Heap.get_modify_self]

theorem publish_handle_ne (f : NamespaceForest) {h x : HandleId} (hx : x ≠ h) :
    (f.publish h).handle x = f.handle x := by
  simp only [handle, publish, Heap.get_modify_ne _ _ hx]

theorem addRef_sameTrie (d : Int) (f : NamespaceForest) (n : NodeId) : SameTrie f (addRef d f n) :=
  SameTrie.modifyNode f n _ fun _ => ⟨rfl, rfl, rfl, rfl, rfl⟩

theorem touch_sameTrie (now : Rat) (f : NamespaceForest) (n : NodeId) :
    SameTrie f (touch now f n) :=
  SameTrie.modifyNode f n _ fun _ => ⟨rfl, rfl, rfl, rfl, rfl⟩

theorem foldl_sameTrie {u : NamespaceForest → NodeId → NamespaceForest}
    (hu : ∀ f n, SameTrie f (u f n)) (path : List NodeId) (f : NamespaceForest) :
    SameTrie f (path.foldl u f) := by
  induction path generalizing f with
  | nil => exact SameTrie.refl f
  | cons n path ih => exact (hu f n).trans (ih (u f n))

/-- Nothing but access times may differ. -/
structure Untouched (f g : NamespaceForest) : Prop where
  namespaces : g.namespaces = f.namespaces
  size : g.nodes.size = f.nodes.size
  handles : g.handles = f.handles
  node : ∀ n, ∃ t, g.node n = { f.node n with lastAccess := t }

theorem Untouched.refl (f : NamespaceForest) : Untouched f f := ⟨rfl, rfl, rfl, fun _ => ⟨_, rfl⟩⟩

theorem Untouched.sameTrie {f g : NamespaceForest} (h : Untouched f g) : SameTrie f g := by
  refine ⟨h.namespaces, h.size, fun n => ?_⟩
  obtain ⟨t, ht⟩ := h.node n
  unfold link
  rw [ht]

/-- A node that a path names twice is counted twice. -/
theorem foldl_addRef_node (d : Int) (path : List NodeId) (f : NamespaceForest) (m : NodeId) :
    (path.foldl (addRef d) f).node m =
      { f.node m with refCount := (f.node m).refCount + d * path.count m } := by
  induction path generalizing f with
  | nil => simp
  | cons n path ih =>
    rw [List.foldl_cons, ih, addRef]
    by_cases h : m = n
    · subst m
      have hd : (f.node n).refCount + d + d * path.count n =
          (f.node n).refCount + d * (path.count n + 1 : Nat) := by
        rw [Int.natCast_add, Int.mul_add]
        omega
      simp only [modifyNode_self, List.count_cons_self, hd]
    · rw [modifyNode_ne _ _ h, List.count_cons_of_ne (Ne.symm h)]

theorem foldl_touch_node (now : Rat) (path : List NodeId) (f : NamespaceForest) (m : NodeId) :
    ∃ t, (path.foldl (touch now) f).node m = { f.node m with lastAccess := t } := by
  induction path generalizing f with
  | nil => exact ⟨_, rfl⟩
  | cons n path ih =>
    obtain ⟨t, ht⟩ := ih (touch now f n)
    refine ⟨t, ?_⟩
    rw [List.foldl_cons, ht, touch]
    by_cases h : m = n
    · subst m
      rw [modifyNode_self]
    · rw [modifyNode_ne _ _ h]

theorem foldl_modify_handles {u : NamespaceForest → NodeId → NamespaceForest}
    (hu : ∀ f n, (u f n).handles = f.handles) (path : List NodeId) (f : NamespaceForest) :
    (path.foldl u f).handles = f.handles := by
  induction path generalizing f with
  | nil => rfl
  | cons n path ih => rw [List.foldl_cons, ih, hu]

/-- Every reference taken is given back, whatever happens in between. -/
theorem materialize_untouched {σ ω P L : Type} (S : KVTierStore σ P L) (W : RollingWindow ω P)
    (cfg : WorldKVConfig) (now : Rat) (f : NamespaceForest) (s : σ) (n : NodeId) (w : ω) :
    Untouched f (materialize S W cfg now f s n w).2.1 := by
  have back : ∀ path : List NodeId, ∀ g, SameTrie (path.foldl (addRef 1) f) g →
      g.handles = f.handles →
      (∀ m, ∃ t, g.node m = { (path.foldl (addRef 1) f).node m with lastAccess := t }) →
      Untouched f (path.foldl (addRef (-1)) g) := by
    intro path g hg hh hn
    have ht := foldl_sameTrie (addRef_sameTrie 1) path f
    have hb := foldl_sameTrie (addRef_sameTrie (-1)) path g
    refine ⟨hb.namespaces.trans (hg.namespaces.trans ht.namespaces),
      hb.size.trans (hg.size.trans ht.size), ?_, fun m => ?_⟩
    · exact (foldl_modify_handles (u := addRef (-1)) (fun _ _ => rfl) path g).trans hh
    · obtain ⟨t, hm⟩ := hn m
      have hd : (f.node m).refCount + 1 * path.count m + -1 * path.count m = (f.node m).refCount := by
        omega
      refine ⟨t, ?_⟩
      rw [foldl_addRef_node, hm, foldl_addRef_node]
      simp only [hd]
  unfold materialize
  extract_lets path
  split
  · exact Untouched.refl f
  · dsimp only
    have hh := foldl_modify_handles (u := addRef 1) (fun _ _ => rfl) path f
    split
    · exact back path _ (SameTrie.refl _) hh fun m => ⟨_, rfl⟩
    · refine back path _ (foldl_sameTrie (touch_sameTrie now) path _) ?_
        (foldl_touch_node now path _)
      exact (foldl_modify_handles (u := touch now) (fun _ _ => rfl) path _).trans hh

theorem hasKv_congr {f g : NamespaceForest} {n : NodeId} (hb : (g.node n).blob = (f.node n).blob)
    (hr : ∀ h, (f.node n).blob = some h → (g.handle h).ready = (f.handle h).ready) :
    g.hasKv n = f.hasKv n := by
  unfold hasKv
  rw [hb]
  cases he : (f.node n).blob with
  | none => rfl
  | some h => exact hr h he

/-- A change to one node's data changes the publication of one path. -/
theorem published_update {f g : NamespaceForest} (hs : Shape f) (hg : SameTrie f g) {n : NodeId}
    {r : Bytes} {p : List ActionKey} (hp : f.nodeAt r p = some n)
    (hne : ∀ m, m < f.nodes.size → m ≠ n → g.hasKv m = f.hasKv m) (r' : Bytes)
    (q : List ActionKey) :
    g.published r' q = if r' = r ∧ q = p then g.hasKv n else f.published r' q := by
  unfold published
  rw [hg.nodeAt r' q]
  by_cases hq : r' = r ∧ q = p
  · rw [if_pos hq, hq.1, hq.2, hp]
  · rw [if_neg hq]
    cases hm : f.nodeAt r' q with
    | none => rfl
    | some m =>
      refine hne m (hs.nodeAt_lt hm) ?_
      rintro rfl
      exact hq (hs.nodeAt_inj hm hp)

/-- On one trie, publication is decided node by node. -/
theorem published_sameKv {f g : NamespaceForest} (hs : Shape f) (hg : SameTrie f g)
    (hk : ∀ m, m < f.nodes.size → g.hasKv m = f.hasKv m) : g.published = f.published := by
  funext r q
  unfold published
  rw [hg.nodeAt r q]
  cases hm : f.nodeAt r q with
  | none => rfl
  | some m => exact hk m (hs.nodeAt_lt hm)

theorem Untouched.published {f g : NamespaceForest} (h : Untouched f g) (hs : Shape f) :
    g.published = f.published := by
  apply published_sameKv hs h.sameTrie
  intro m _
  obtain ⟨t, ht⟩ := h.node m
  apply hasKv_congr
  · rw [ht]
  · intro x _
    rw [handle, h.handles, handle]

theorem published_iff {f : NamespaceForest} {r : Bytes} {p : List ActionKey} :
    f.published r p = true ↔ ∃ n, f.nodeAt r p = some n ∧ f.hasKv n = true := by
  unfold published
  cases f.nodeAt r p <;> simp

theorem hasKv_iff {f : NamespaceForest} {n : NodeId} :
    f.hasKv n = true ↔ ∃ h, (f.node n).blob = some h ∧ (f.handle h).ready = true := by
  unfold hasKv
  cases (f.node n).blob <;> simp

section
variable {σ P L : Type} {S : KVTierStore σ P L} {cfg : WorldKVConfig}

def fill (cfg : WorldKVConfig) (f : NamespaceForest) (n : NodeId) (a : IngestArgs P L) :
    NamespaceForest :=
  (((f.pinSink cfg n a.depth).setSkeleton n a.nodeKey).attachBlob n (a.newHandle cfg)).1.publish
    f.handles.size

variable (cfg) in
/-- Over a store that publishes inside its put, ingestion fills the committed node at once. -/
theorem ingest_synchronous (hS : Synchronous S) (f : NamespaceForest) (s : σ) (a : IngestArgs P L) :
    ∃ s', ingest S cfg f s a =
      (.ok (f.commit a.parent a.action a.nodeKey a.depth).2,
        fill cfg (f.commit a.parent a.action a.nodeKey a.depth).1
          (f.commit a.parent a.action a.nodeKey a.depth).2 a, s') := by
  simp only [ingest]
  generalize f.commit a.parent a.action a.nodeKey a.depth = c
  have hk := hS.skeleton s (latentLocator a.nodeKey) a.latent
  generalize S.putSkeleton s (latentLocator a.nodeKey) a.latent = x at hk ⊢
  obtain ⟨_, s1⟩ := x
  simp only at hk
  subst hk
  have hsize : (((c.1.pinSink cfg c.2 a.depth).setSkeleton c.2 a.nodeKey).attachBlob c.2
      (a.newHandle cfg)).2 = c.1.handles.size := by
    simp only [attachBlob, setSkeleton, modifyNode_handles, pinSink_handles]
  have hp := hS.put s1 (kvLocator a.nodeKey) a.kvPayload c.1.handles.size
  simp only [hsize]
  generalize S.putAsync s1 (kvLocator a.nodeKey) a.kvPayload c.1.handles.size = y at hp ⊢
  obtain ⟨_, s2⟩ := y
  simp only at hp
  subst hp
  exact ⟨s2, rfl⟩

section
variable (f : NamespaceForest) (n : NodeId) (a : IngestArgs P L)

theorem fill_sameTrie : SameTrie f (fill cfg f n a) :=
  (pinSink_sameTrie f cfg n a.depth).trans <| (setSkeleton_sameTrie _ n a.nodeKey).trans <|
    (attachBlob_sameTrie _ n _).trans (publish_sameTrie _ _)

theorem fill_node (m : NodeId) : (fill cfg f n a).node m =
    (((f.pinSink cfg n a.depth).setSkeleton n a.nodeKey).modifyNode n fun p =>
      { p with blob := some f.handles.size }).node m := by
  simp only [fill, publish, attachBlob, node, modifyNode, setSkeleton, pinSink_handles]

theorem fill_self : (fill cfg f n a).node n =
    { f.node n with
      pinned := (f.node n).pinned || decide (a.depth < cfg.sinkChunks)
      skeleton := some ⟨latentLocator a.nodeKey⟩
      blob := some f.handles.size } := by
  rw [fill_node, modifyNode_self, setSkeleton, modifyNode_self, pinSink_self]

theorem fill_ne {m : NodeId} (h : m ≠ n) : (fill cfg f n a).node m = f.node m := by
  rw [fill_node, modifyNode_ne _ _ h, setSkeleton, modifyNode_ne _ _ h, pinSink_ne _ _ _ h]

theorem fill_handles : (fill cfg f n a).handles =
    (f.handles.alloc (a.newHandle cfg)).modify f.handles.size fun b => { b with ready := true } := by
  simp only [fill, publish, attachBlob, setSkeleton, modifyNode_handles, pinSink_handles]

theorem fill_handle_new : (fill cfg f n a).handle f.handles.size =
    { a.newHandle cfg with ready := true } := by
  unfold handle
  rw [fill_handles, Heap.get_modify_self, Heap.get_alloc_self]

theorem fill_handle_old {h : HandleId} (hh : h < f.handles.size) :
    (fill cfg f n a).handle h = f.handle h := by
  unfold handle
  rw [fill_handles, Heap.get_modify_ne _ _ (Nat.ne_of_lt hh), Heap.get_alloc_lt _ _ hh]

end

variable (cfg) in
/-- Ingesting under a path publishes the path that is one chunk longer, and no other. -/
theorem published_ingest (hs : Shape f)
    (hlt : ∀ n x, n < f.nodes.size → (f.node n).blob = some x → x < f.handles.size)
    {a : IngestArgs P L} {r : Bytes} {p : List ActionKey} (hp : f.nodeAt r p = some a.parent)
    (r' : Bytes) (q : List ActionKey) :
    (fill cfg (f.commit a.parent a.action a.nodeKey a.depth).1
      (f.commit a.parent a.action a.nodeKey a.depth).2 a).published r' q =
        if r' = r ∧ q = p ++ [a.action] then true else f.published r' q := by
  have hn := hs.nodeAt_lt hp
  have hshape := hs.commit (a := a.action) hn a.nodeKey a.depth
  have hnode := hs.nodeAt_commit (a := a.action) a.nodeKey a.depth hp r (p ++ [a.action])
  have hpub := hs.published_commit (a := a.action) a.nodeKey a.depth hp
  have hhand := commit_handles f a.parent a.action a.nodeKey a.depth
  have hold : ∀ {m}, m < (f.commit a.parent a.action a.nodeKey a.depth).1.nodes.size →
      m ≠ (f.commit a.parent a.action a.nodeKey a.depth).2 → ∀ x,
      ((f.commit a.parent a.action a.nodeKey a.depth).1.node m).blob = some x →
      x < f.handles.size := by
    intro m hm hne x hx
    rcases commit_node_cases hn a.nodeKey a.depth hm with ⟨hlm, cs, he⟩ | ⟨_, he, _⟩
    · rw [he] at hx
      exact hlt m x hlm hx
    · exact absurd he hne
  rw [if_pos ⟨rfl, rfl⟩] at hnode
  generalize f.commit a.parent a.action a.nodeKey a.depth = c at *
  obtain ⟨f1, n⟩ := c
  simp only at *
  have hfill : SameTrie f1 (fill cfg f1 n a) := fill_sameTrie f1 n a
  have hkv : (fill cfg f1 n a).hasKv n = true := by
    rw [hasKv_iff]
    exact ⟨f1.handles.size, by rw [fill_self], by rw [fill_handle_new]⟩
  rw [← hpub, published_update hshape hfill hnode ?_ r' q, hkv]
  intro m hm hne
  apply hasKv_congr
  · rw [fill_ne f1 n a hne]
  · intro x hx
    rw [fill_handle_old f1 n a (by rw [hhand]; exact hold hm hne x hx)]

/-- `evict_blob` drops the blob of an unpinned node that has one, and nothing else. -/
theorem evictBlob_cases (S : KVTierStore σ P L) (f : NamespaceForest) (st : σ) (n : NodeId) :
    (∃ h, (f.node n).blob = some h ∧ (f.node n).pinned = false ∧ (f.node n).refCount ≤ 0 ∧
      evictBlob S f st n =
        (true, f.modifyNode n fun p => { p with blob := none }, S.free st (f.handle h))) ∨
    (((f.node n).blob = none ∨ (f.node n).pinned = true ∨ 0 < (f.node n).refCount) ∧
      evictBlob S f st n = (false, f, st)) := by
  cases hb : (f.node n).blob with
  | none => exact Or.inr ⟨Or.inl rfl, by simp only [evictBlob, hb]⟩
  | some h =>
    simp only [evictBlob, hb]
    by_cases hc : (f.node n).pinned = true ∨ 0 < (f.node n).refCount
    · refine Or.inr ⟨Or.inr hc, ?_⟩
      rw [if_pos (by simpa using hc)]
    · refine Or.inl ⟨h, rfl, ?_, ?_, ?_⟩
      · cases hp : (f.node n).pinned with
        | false => rfl
        | true => exact absurd (Or.inl hp) hc
      · exact Int.not_lt.mp fun hr => hc (Or.inr hr)
      · rw [if_neg (by simpa using hc)]

end

end NamespaceForest

end CacheSeek.Prefix
