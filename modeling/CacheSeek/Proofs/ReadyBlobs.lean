import CacheSeek.Proofs.TwinForests

namespace CacheSeek.Proofs.ReadyBlobs
open CacheSeek.Lib CacheSeek.Prefix CacheSeek.Prefix.NamespaceForest
open CacheSeek.Proofs.SnapshotNodes CacheSeek.Proofs.SnapshotLoad CacheSeek.Proofs.SnapshotMerged
open CacheSeek.Proofs.SnapshotRoundTrip CacheSeek.Proofs.SnapshotRuns CacheSeek.Proofs.TwinForests

variable {σ P L : Type} {digest : Bytes → Bytes} {S : KVTierStore σ P L} {cfg : WorldKVConfig}
  {f g : NamespaceForest} {r : Bytes} {p : List ActionKey} {n : NodeId}

def Ready (f : NamespaceForest) (n : NodeId) : Prop := (f.node n).blob ≠ none → f.hasKv n = true

/-- Every blob that a path leads to is published. -/
def AllReady (f : NamespaceForest) : Prop := ∀ ⦃r p n⦄, f.nodeAt r p = some n → Ready f n

theorem Ready.congr (h : Ready f n) (hb : (g.node n).blob = (f.node n).blob)
    (hh : ∀ b, (f.node n).blob = some b → g.handle b = f.handle b) : Ready g n := by
  unfold Ready
  rw [hb, hasKv_congr hb fun b hx => by rw [hh b hx]]
  exact h

theorem Ready.bare (h : (f.node n).blob = none) : Ready f n := fun hne => absurd h hne

theorem empty_allReady : AllReady .empty := by
  intro r p n hn
  obtain ⟨ns, hns, -⟩ := Option.bind_eq_some_iff.mp hn
  cases hns

/-- No path is new, and what was ready still is. -/
theorem AllReady.sameTrie (h : AllReady f) (hs : Shape f) (hg : SameTrie f g)
    (hk : ∀ k < f.nodes.size, Ready f k → Ready g k) : AllReady g := by
  intro r p n hn
  rw [hg.nodeAt] at hn
  exact hk n (hs.nodeAt_lt hn) (h hn)

theorem AllReady.untouched (h : AllReady f) (hs : Shape f) (hu : Untouched f g) : AllReady g := by
  apply h.sameTrie hs hu.sameTrie
  intro k _ hk
  obtain ⟨t, ht⟩ := hu.node k
  exact hk.congr (by rw [ht]) fun b _ => by rw [handle, hu.handles, handle]

theorem AllReady.modifyNode (h : AllReady f) (hs : Shape f) (n : NodeId) (u : TrieNode → TrieNode)
    (hu : ∀ x, (u x).nodeKey = x.nodeKey ∧ (u x).action = x.action ∧ (u x).depth = x.depth ∧
      (u x).parent = x.parent ∧ (u x).children = x.children)
    (hb : ∀ x, (u x).blob = x.blob ∨ (u x).blob = none) : AllReady (f.modifyNode n u) := by
  apply h.sameTrie hs (SameTrie.modifyNode f n u hu)
  intro k _ hk
  by_cases hkn : k = n
  · subst hkn
    rcases hb (f.node k) with hsame | hnone
    · exact hk.congr (by rw [modifyNode_self, hsame]) fun _ _ => rfl
    · exact Ready.bare (by rw [modifyNode_self, hnone])
  · exact hk.congr (by rw [modifyNode_ne f u hkn]) fun _ _ => rfl

theorem AllReady.create (h : AllReady f) (hs : Shape f) (r c : Bytes) : AllReady (f.getOrCreateNamespace r c).1 := by
  cases hr : f.resolve r with
  | some ns =>
    rw [getOrCreate_old hr]
    exact h
  | none =>
    rw [getOrCreate_new hr]
    intro r' q n hn
    rw [hs.nodeAt_addWorld hr] at hn
    split at hn
    · obtain rfl := Option.some.inj hn
      exact Ready.bare (by rw [addWorld_new, virtualRoot])
    · exact (h hn).congr (by rw [addWorld_old f r c (hs.nodeAt_lt hn)]) fun _ _ => rfl

theorem AllReady.commit (h : AllReady f) (hs : Shape f) (hn : f.nodeAt r p = some n) (a : ActionKey) (k : Bytes)
    (d : Int) : AllReady (f.commit n a k d).1 := by
  have hlt := hs.nodeAt_lt hn
  cases hc : f.child n a with
  | some c =>
    rw [commit_old hc]
    exact h
  | none =>
    rw [commit_new hc]
    intro r' q m hm
    rw [hs.nodeAt_addChild rfl hc hn] at hm
    split at hm
    · obtain rfl := Option.some.inj hm
      exact Ready.bare (by rw [f.addChild_new hlt])
    · obtain ⟨cs, hcs⟩ := f.addChild_old hlt { nodeKey := k, action := a, depth := d, parent := some n }
        (hs.nodeAt_lt hm)
      exact (h hm).congr (by rw [hcs]) fun _ _ => rfl

theorem AllReady.pinSink (h : AllReady f) (hs : Shape f) (n : NodeId) (d : Int) : AllReady (f.pinSink cfg n d) := by
  unfold NamespaceForest.pinSink
  split
  · exact h.modifyNode hs n (fun x => { x with pinned := true }) (fun _ => ⟨rfl, rfl, rfl, rfl, rfl⟩) fun _ =>
      Or.inl rfl
  · exact h

/-- The new blob is ready once it is published. -/
theorem AllReady.publish (h : AllReady f) (hs : Sturdy digest f) (n : NodeId) (b : BlobHandle) :
    AllReady ((f.attachBlob n b).1.publish f.handles.size) := by
  apply h.sameTrie hs.shape ((attachBlob_sameTrie f n b).trans (publish_sameTrie _ _))
  intro k hlt hk
  by_cases hkn : k = n
  · subst hkn
    intro _
    rw [← publishedBlob_isSome]
    have hv := congrArg ForestView.NodeView.blob (published_view_self b f k)
    exact congrArg Option.isSome hv
  · have hnode : ((f.attachBlob n b).1.publish f.handles.size).node k = f.node k := attached_ne b f hkn
    refine hk.congr (by rw [hnode]) ?_
    intro x hx
    have hx := hs.blob_lt hlt hx
    rw [publish_handle_ne _ (Nat.ne_of_lt hx), attached_old b f n hx]

def Publishes (S : KVTierStore σ P L) (E : List P → Prop) : Prop :=
  ∀ s loc payload b, E payload → (S.putAsync s loc payload b).1 = .published

theorem AllReady.ingest {E : List P → Prop} (hE : Publishes S E) (h : AllReady f) (hs : Sturdy digest f)
    {a : IngestArgs P L} (ha : Chained digest f a) (hp : f.nodeAt r p = some a.parent) (hpayload : E a.kvPayload)
    (s : σ) : AllReady (ingest S cfg f s a).2.1 := by
  obtain ⟨hc, hpar⟩ := commit_sturdy hs ha.parent ⟨ha.nodeKey, ha.depth⟩
  have hready := h.commit hs.shape hp a.action a.nodeKey a.depth
  simp only [Prefix.ingest]
  generalize f.commit a.parent a.action a.nodeKey a.depth = c at hc hpar hready ⊢
  have hpin : Sturdy digest (c.1.pinSink cfg c.2 a.depth) := pinSink_sturdy hc c.2 a.depth
  have hparent : ((c.1.pinSink cfg c.2 a.depth).node c.2).parent ≠ none := by
    rw [(pinSink_sameTrie c.1 cfg c.2 a.depth).parent, hpar]
    exact Option.some_ne_none a.parent
  have hpinned : AllReady (c.1.pinSink cfg c.2 a.depth) := hready.pinSink hc.shape c.2 a.depth
  cases S.putSkeleton s (latentLocator a.nodeKey) a.latent with
  | mk res s1 =>
    cases res with
    | error e => exact hpinned
    | ok =>
      have hsk := setSkeleton_sturdy hpin hparent a.nodeKey
      have hset : AllReady ((c.1.pinSink cfg c.2 a.depth).setSkeleton c.2 a.nodeKey) :=
        hpinned.modifyNode hpin.shape c.2 (fun x => { x with skeleton := some ⟨latentLocator a.nodeKey⟩ })
          (fun _ => ⟨rfl, rfl, rfl, rfl, rfl⟩) fun _ => Or.inl rfl
      have hput := hE s1 (kvLocator a.nodeKey) a.kvPayload
        ((c.1.pinSink cfg c.2 a.depth).setSkeleton c.2 a.nodeKey).handles.size hpayload
      have hsize : (((c.1.pinSink cfg c.2 a.depth).setSkeleton c.2 a.nodeKey).attachBlob c.2 (a.newHandle cfg)).2 =
          ((c.1.pinSink cfg c.2 a.depth).setSkeleton c.2 a.nodeKey).handles.size := rfl
      simp only [hsize]
      generalize S.putAsync s1 (kvLocator a.nodeKey) a.kvPayload _ = x at hput ⊢
      obtain ⟨out, s2⟩ := x
      simp only at hput
      subst hput
      exact hset.publish hsk c.2 (a.newHandle cfg)

theorem AllReady.evict (h : AllReady f) (hs : Shape f) (s : σ) (n : NodeId) : AllReady (evictBlob S f s n).2.1 := by
  rcases evictBlob_cases S f s n with ⟨b, -, -, -, he⟩ | ⟨-, he⟩
  · rw [he]
    exact h.modifyNode hs n (fun x => { x with blob := none }) (fun _ => ⟨rfl, rfl, rfl, rfl, rfl⟩) fun _ =>
      Or.inr rfl
  · rw [he]
    exact h

/-- Blobs that were not published stay behind. -/
theorem loaded_allReady (hf : Sturdy digest f) (hm : Merged digest f .empty g fun r => f.resolve r ≠ none) :
    AllReady g := by
  intro r p m hg hne
  have hnode := loaded_node hf hm r p
  rw [hg] at hnode
  obtain ⟨n, -, hs⟩ := hnode.to_some
  cases hk : f.hasKv n with
  | false => exact absurd (hs.bare hk) hne
  | true =>
    rw [← publishedBlob_isSome, hs.blob, publishedBlob_isSome, hk]

/-- An eviction drops what is published, unless it is pinned. -/
theorem evicted_eq (h : Ready f n) (hidle : Idle f) (s : σ) :
    (evictBlob S f s n).1 = ((publishedBlob f n).isSome && !(f.node n).pinned) := by
  rw [publishedBlob_isSome]
  rcases evictBlob_cases S f s n with ⟨b, hb, hpin, -, he⟩ | ⟨hstay, he⟩
  · have hk : f.hasKv n = true := h (by rw [hb]; exact Option.some_ne_none b)
    rw [he, hk, hpin]
    rfl
  · rw [he]
    rcases hstay with hb | hpin | hrc
    · simp only [hasKv, hb, Bool.false_and]
    · rw [hpin, Bool.not_true, Bool.and_false]
    · rw [hidle n] at hrc
      exact absurd hrc (Int.lt_irrefl 0)

/-- One chunk in two forests: the evictions answer alike. -/
theorem evicted_twin {m : NodeId} (h : Twins digest f g r p n m) (hf : AllReady f) (hg : AllReady g)
    (hidle : Idle f) (hidle' : Idle g) (s t : σ) : (evictBlob S g t m).1 = (evictBlob S f s n).1 := by
  rw [evicted_eq (hf h.leftAt) hidle, evicted_eq (hg h.rightAt) hidle', h.blob, h.pinned]

end CacheSeek.Proofs.ReadyBlobs
