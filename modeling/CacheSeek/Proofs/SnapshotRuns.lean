import CacheSeek.Proofs.SnapshotMerged

namespace CacheSeek.Proofs.SnapshotRuns
open CacheSeek.Lib CacheSeek.Prefix CacheSeek.Prefix.NamespaceForest CacheSeek.Proofs.KeyIdentity
open CacheSeek.Proofs.Worlds CacheSeek.Proofs.SnapshotLoad CacheSeek.Proofs.SnapshotMerged

variable {σ ω P L : Type} {digest : Bytes → Bytes} {S : KVTierStore σ P L} {W : RollingWindow ω P}
  {cfg : WorldKVConfig} {f g : NamespaceForest}

/-- A chunk with the key its chain gives it, one deeper than the node it goes under. -/
structure Chained (digest : Bytes → Bytes) (f : NamespaceForest) (a : IngestArgs P L) : Prop where
  parent : a.parent < f.nodes.size
  nodeKey : nodeKey digest (f.node a.parent).nodeKey a.action.bytes = some a.nodeKey
  depth : a.depth = (f.node a.parent).depth + 1

/-- The forests of a process: worlds, chunks, publications now or later, reads,
evictions, and snapshots of other processes loaded at any time. -/
inductive Reach (digest : Bytes → Bytes) (S : KVTierStore σ P L) (W : RollingWindow ω P)
    (cfg : WorldKVConfig) : NamespaceForest → Prop where
  | empty : Reach digest S W cfg .empty
  | create {f : NamespaceForest} {r : Bytes} (h : Reach digest S W cfg f) (hr : Apart digest r)
      (c : Bytes) : Reach digest S W cfg (f.getOrCreateNamespace r c).1
  | ingest {f : NamespaceForest} {a : IngestArgs P L} (h : Reach digest S W cfg f)
      (ha : Chained digest f a) (s : σ) : Reach digest S W cfg (ingest S cfg f s a).2.1
  | publish {f : NamespaceForest} (h : Reach digest S W cfg f) (b : HandleId) :
      Reach digest S W cfg (f.publish b)
  | materialize {f : NamespaceForest} (h : Reach digest S W cfg f) (now : Rat) (s : σ) (n : NodeId)
      (w : ω) : Reach digest S W cfg (materialize S W cfg now f s n w).2.1
  | evict {f : NamespaceForest} (h : Reach digest S W cfg f) (s : σ) (n : NodeId) :
      Reach digest S W cfg (evictBlob S f s n).2.1
  | load {t f : NamespaceForest} (ht : Reach digest S W cfg t) (hf : Reach digest S W cfg f) :
      Reach digest S W cfg (t.loadSnapshot f.snapshot).2

theorem empty_sturdy : Sturdy digest .empty := by
  refine ⟨Shape.empty, Edges.empty, ?_, ?_, ?_, ?_⟩
  · intro r ns hr
    cases hr
  all_goals
    intro n
    intros
    rename_i hn _
    exact absurd hn (Nat.not_lt_zero n)

/-- Nodes change what they hold: no root anything, the others nothing out of order. -/
theorem Sturdy.update (h : Sturdy digest f) (hs : SameTrie f g)
    (hroot : ∀ n, (f.node n).parent = none → (f.node n).skeleton = none → (f.node n).blob = none →
      (f.node n).pinned = true →
      (g.node n).skeleton = none ∧ (g.node n).blob = none ∧ (g.node n).pinned = true)
    (hsk : ∀ n s, (g.node n).skeleton = some s →
      (f.node n).skeleton = some s ∨ s.latentLocator ≠ "")
    (hb : ∀ n b, (g.node n).blob = some b → (f.node n).blob = some b ∨ b < g.handles.size)
    (hsize : f.handles.size ≤ g.handles.size) : Sturdy digest g := by
  refine ⟨hs.shape h.shape, h.edges.sameTrie hs, ?_, ?_, ?_, ?_⟩
  · intro r ns hr
    exact h.apart (hs.resolve r ▸ hr)
  · intro n hn hp
    rw [hs.size] at hn
    rw [hs.parent] at hp
    obtain ⟨h1, h2, h3, h4⟩ := h.roots hn hp
    exact ⟨hs.action n ▸ h1, hroot n hp h2 h3 h4⟩
  · intro n s hn he
    rcases hsk n s he with he | hne
    · exact h.skeleton (hs.size ▸ hn) he
    · exact hne
  · intro n b hn he
    rcases hb n b he with he | hlt
    · exact Nat.lt_of_lt_of_le (h.blob_lt (hs.size ▸ hn) he) hsize
    · exact hlt

theorem publish_sturdy (h : Sturdy digest f) (b : HandleId) : Sturdy digest (f.publish b) :=
  Sturdy.update h (publish_sameTrie f b) (fun _ _ h1 h2 h3 => ⟨h1, h2, h3⟩) (fun _ _ => Or.inl)
    (fun _ _ => Or.inl) (Nat.le_refl _)

theorem untouched_sturdy (h : Sturdy digest f) (hu : Untouched f g) : Sturdy digest g := by
  apply Sturdy.update h hu.sameTrie
  · intro n _ h1 h2 h3
    obtain ⟨t, ht⟩ := hu.node n
    rw [ht]
    exact ⟨h1, h2, h3⟩
  · intro n s hs
    obtain ⟨t, ht⟩ := hu.node n
    rw [ht] at hs
    exact Or.inl hs
  · intro n b hb
    obtain ⟨t, ht⟩ := hu.node n
    rw [ht] at hb
    exact Or.inl hb
  · rw [hu.handles]

/-- A change to one node, root or not. -/
theorem modifyNode_sturdy (h : Sturdy digest f) (n : NodeId) (u : TrieNode → TrieNode)
    (hu : ∀ p, (u p).nodeKey = p.nodeKey ∧ (u p).action = p.action ∧ (u p).depth = p.depth ∧
      (u p).parent = p.parent ∧ (u p).children = p.children)
    (hroot : (f.node n).parent = none → (f.node n).skeleton = none → (f.node n).blob = none →
      (f.node n).pinned = true → (u (f.node n)).skeleton = none ∧ (u (f.node n)).blob = none ∧
        (u (f.node n)).pinned = true)
    (hsk : ∀ s, (u (f.node n)).skeleton = some s →
      (f.node n).skeleton = some s ∨ s.latentLocator ≠ "")
    (hb : ∀ b, (u (f.node n)).blob = some b → (f.node n).blob = some b) :
    Sturdy digest (f.modifyNode n u) := by
  apply Sturdy.update h (SameTrie.modifyNode f n u hu)
  · intro m hp h1 h2 h3
    by_cases he : m = n
    · subst m
      rw [modifyNode_self]
      exact hroot hp h1 h2 h3
    · rw [modifyNode_ne _ _ he]
      exact ⟨h1, h2, h3⟩
  · intro m s hs
    by_cases he : m = n
    · subst m
      rw [modifyNode_self] at hs
      exact hsk s hs
    · rw [modifyNode_ne _ _ he] at hs
      exact Or.inl hs
  · intro m b hm
    by_cases he : m = n
    · subst m
      rw [modifyNode_self] at hm
      exact Or.inl (hb b hm)
    · rw [modifyNode_ne _ _ he] at hm
      exact Or.inl hm
  · exact Nat.le_refl _

theorem evict_sturdy (h : Sturdy digest f) (s : σ) (n : NodeId) :
    Sturdy digest (evictBlob S f s n).2.1 := by
  rcases evictBlob_cases S f s n with ⟨b, _, _, _, he⟩ | ⟨_, he⟩
  · rw [he]
    apply modifyNode_sturdy h n (fun p => { p with blob := none }) (fun _ => ⟨rfl, rfl, rfl, rfl, rfl⟩)
    · intro _ h1 _ h3
      exact ⟨h1, rfl, h3⟩
    · intro s hs
      exact Or.inl hs
    · intro b hb
      cases hb
  · rw [he]
    exact h

theorem create_sturdy (h : Sturdy digest f) {r : Bytes} (hr : Apart digest r) (c : Bytes) :
    Sturdy digest (f.getOrCreateNamespace r c).1 := by
  cases he : f.resolve r with
  | some ns =>
    rw [getOrCreate_old he]
    exact h
  | none =>
    rw [getOrCreate_new he]
    exact sturdy_addWorld h he hr c

theorem commit_sturdy (h : Sturdy digest f) {n : NodeId} {a : ActionKey} {k : Bytes} {d : Int}
    (hn : n < f.nodes.size) (hR : ChainEdge digest (f.node n).nodeKey (f.node n).depth a k d) :
    Sturdy digest (f.commit n a k d).1 ∧
      ((f.commit n a k d).1.node (f.commit n a k d).2).parent = some n := by
  cases hc : f.child n a with
  | some c =>
    rw [commit_old hc]
    exact ⟨h, h.shape.child_parent hn hc⟩
  | none =>
    rw [commit_new hc]
    refine ⟨h.addChild hn rfl rfl hR ?_ ?_, ?_⟩
    · intro s hs
      cases hs
    · intro b hb
      cases hb
    · rw [addChild_snd, f.addChild_new hn]

theorem pinSink_sturdy (h : Sturdy digest f) (n : NodeId) (d : Int) :
    Sturdy digest (f.pinSink cfg n d) := by
  unfold pinSink
  split
  · apply modifyNode_sturdy h n (fun p => { p with pinned := true }) (fun _ => ⟨rfl, rfl, rfl, rfl, rfl⟩)
    · intro _ h1 h2 _
      exact ⟨h1, h2, rfl⟩
    · intro s hs
      exact Or.inl hs
    · intro b hb
      exact hb
  · exact h

/-- The loader reads an empty locator as no skeleton. -/
theorem latentLocator_ne_empty (k : Bytes) : latentLocator k ≠ "" := by
  intro h
  have := congrArg String.toList h
  simp [latentLocator] at this

/-- Only a chunk, never a world's root, carries a skeleton. -/
theorem setSkeleton_sturdy (h : Sturdy digest f) {n : NodeId} (hp : (f.node n).parent ≠ none)
    (k : Bytes) : Sturdy digest (f.setSkeleton n k) := by
  apply modifyNode_sturdy h n (fun p => { p with skeleton := some ⟨latentLocator k⟩ })
    (fun _ => ⟨rfl, rfl, rfl, rfl, rfl⟩)
  · intro hp'
    exact absurd hp' hp
  · intro s hs
    cases hs
    exact Or.inr (latentLocator_ne_empty k)
  · intro b hb
    exact hb

theorem attachBlob_sturdy (h : Sturdy digest f) {n : NodeId} (hp : (f.node n).parent ≠ none)
    (b : BlobHandle) : Sturdy digest (f.attachBlob n b).1 := by
  have hne : ∀ {m}, m ≠ n → (f.attachBlob n b).1.node m = f.node m := fun hm =>
    modifyNode_ne f (fun p => { p with blob := some f.handles.size }) hm
  have hself : (f.attachBlob n b).1.node n = { f.node n with blob := some f.handles.size } :=
    modifyNode_self f n fun p => { p with blob := some f.handles.size }
  apply Sturdy.update h (attachBlob_sameTrie f n b)
  · intro m hp' h1 h2 h3
    rw [hne fun he => hp (he ▸ hp')]
    exact ⟨h1, h2, h3⟩
  · intro m s hs
    by_cases he : m = n
    · subst m
      rw [hself] at hs
      exact Or.inl hs
    · rw [hne he] at hs
      exact Or.inl hs
  · intro m x hx
    by_cases he : m = n
    · subst m
      rw [hself] at hx
      cases hx
      exact Or.inr (Nat.lt_succ_self _)
    · rw [hne he] at hx
      exact Or.inl hx
  · exact Nat.le_succ _

/-- However far `ingest` gets. -/
theorem ingest_sturdy (h : Sturdy digest f) {a : IngestArgs P L} (ha : Chained digest f a) (s : σ) :
    Sturdy digest (ingest S cfg f s a).2.1 := by
  obtain ⟨hc, hpar⟩ := commit_sturdy h ha.parent ⟨ha.nodeKey, ha.depth⟩
  simp only [ingest]
  generalize f.commit a.parent a.action a.nodeKey a.depth = c at hc hpar ⊢
  have hp : Sturdy digest (c.1.pinSink cfg c.2 a.depth) := pinSink_sturdy hc c.2 a.depth
  have hpp : ((c.1.pinSink cfg c.2 a.depth).node c.2).parent ≠ none := by
    rw [(pinSink_sameTrie c.1 cfg c.2 a.depth).parent, hpar]
    exact Option.some_ne_none a.parent
  cases S.putSkeleton s (latentLocator a.nodeKey) a.latent with
  | mk res s1 =>
    cases res with
    | error e => exact hp
    | ok =>
      have hs := setSkeleton_sturdy hp hpp a.nodeKey
      have hsp : (((c.1.pinSink cfg c.2 a.depth).setSkeleton c.2 a.nodeKey).node c.2).parent ≠
          none := by
        rw [(setSkeleton_sameTrie _ c.2 a.nodeKey).parent]
        exact hpp
      have hb := attachBlob_sturdy hs hsp (a.newHandle cfg)
      dsimp only
      split
      · exact publish_sturdy hb _
      · exact hb
      · exact hb

/-- Every forest that the manager's calls reach. -/
theorem reach_sturdy (hd : Hash digest) (h : Reach digest S W cfg f) : Sturdy digest f := by
  induction h with
  | empty => exact empty_sturdy
  | create _ hr c ih => exact create_sturdy ih hr c
  | ingest _ ha s ih => exact ingest_sturdy ih ha s
  | publish _ b ih => exact publish_sturdy ih b
  | materialize _ now s n w ih => exact untouched_sturdy ih (materialize_untouched S W cfg now _ s n w)
  | evict _ s n ih => exact evict_sturdy ih s n
  | load _ _ iht ihf =>
    obtain ⟨g, hg, hm⟩ := loadSnapshot_merged hd ihf iht
    rw [hg]
    exact hm.sturdy

/-- The chunk after `path` in a chain is chained to the node `path` leads to. -/
theorem chained_of_chain (h : Sturdy digest f) {r : Bytes} {actions : List ActionKey}
    {chain : List Bytes} {i : Nat} {a : IngestArgs P L}
    (hchain : buildActionChain digest r (actions.map ActionKey.bytes) = some chain)
    (hmount : f.nodeAt r (actions.take i) = some a.parent) (haction : actions[i]? = some a.action)
    (hkey : chain[i]? = some a.nodeKey) (hdepth : a.depth = i) : Chained digest f a := by
  obtain ⟨hedge, hnext⟩ := chainEdge_of_chain h.shape h.edges hchain hmount haction hkey
  exact ⟨h.shape.nodeAt_lt hmount, hedge, hdepth.trans hnext⟩

end CacheSeek.Proofs.SnapshotRuns
