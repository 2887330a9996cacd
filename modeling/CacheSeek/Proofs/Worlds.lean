import CacheSeek.Prefix.Holdings
import CacheSeek.Prefix.Sessions
import CacheSeek.Proofs.KeyIdentity

namespace CacheSeek.Proofs.Worlds
open CacheSeek.Lib CacheSeek.Prefix CacheSeek.Prefix.NamespaceForest
open CacheSeek.Proofs.KeyIdentity

variable {σ ω P L : Type} {digest : Bytes → Bytes} {S : KVTierStore σ P L} {W : RollingWindow ω P}
  {cfg : WorldKVConfig}

theorem addressFrom_eq {f : NamespaceForest} (h : Shape f) {r : Bytes} {p q : List ActionKey}
    {n : NodeId} {fuel : Nat} (hf : n ≤ fuel) (hn : f.nodeAt r p = some n) :
    f.addressFrom fuel n q = (r, p ++ q) := by
  induction fuel generalizing n p q with
  | zero =>
    rcases List.eq_nil_or_concat p with rfl | ⟨p, a, rfl⟩
    · obtain ⟨ns, hr, rfl⟩ := Shape.nodeAt_nil_iff.mp hn
      simp only [addressFrom, h.root_key hr, List.nil_append]
    · rw [List.concat_eq_append] at hn
      obtain ⟨m, hm, _, hp, _⟩ := h.nodeAt_snoc_iff.mp hn
      exact absurd (Nat.lt_of_lt_of_le (h.parent_lt (h.nodeAt_lt hn) hp) hf) (Nat.not_lt_zero m)
  | succ fuel ih =>
    rcases List.eq_nil_or_concat p with rfl | ⟨p, a, rfl⟩
    · obtain ⟨ns, hr, rfl⟩ := Shape.nodeAt_nil_iff.mp hn
      simp only [addressFrom, h.root_parent hr, h.root_key hr, List.nil_append]
    · rw [List.concat_eq_append] at hn ⊢
      obtain ⟨m, hm, _, hp, rfl⟩ := h.nodeAt_snoc_iff.mp hn
      have hm' : m ≤ fuel :=
        Nat.le_of_lt_succ (Nat.lt_of_lt_of_le (h.parent_lt (h.nodeAt_lt hn) hp) hf)
      simp only [addressFrom, hp]
      rw [ih hm' hm, List.append_assoc, List.singleton_append]

/-- Walking up from a node gives back the path that leads to it. -/
theorem address_eq {f : NamespaceForest} (h : Shape f) {r : Bytes} {p : List ActionKey} {n : NodeId}
    (hn : f.nodeAt r p = some n) : f.address n = (r, p) := by
  unfold address
  rw [addressFrom_eq h (Nat.le_refl n) hn, List.append_nil]

def ChainEdge (digest : Bytes → Bytes) (k : Bytes) (d : Int) (a : ActionKey) (k' : Bytes)
    (d' : Int) : Prop :=
  nodeKey digest k a.bytes = some k' ∧ d' = d + 1

theorem nodeAt_key {f : NamespaceForest} (h : Shape f) (he : Edges (ChainEdge digest) f) {r : Bytes}
    {p : List ActionKey} {n : NodeId} (hn : f.nodeAt r p = some n) :
    pathKey digest r p = some (f.node n).nodeKey := by
  induction p using List.reverseRecOn generalizing n with
  | nil =>
    obtain ⟨ns, hr, rfl⟩ := Shape.nodeAt_nil_iff.mp hn
    rw [h.root_key hr]
    rfl
  | append_singleton p a ih =>
    obtain ⟨m, hm, hc, _⟩ := h.nodeAt_snoc_iff.mp hn
    rw [pathKey_snoc, ih hm]
    exact (he (h.nodeAt_lt hm) hc).1

theorem nodeAt_depth {f : NamespaceForest} (h : Shape f) (he : Edges (ChainEdge digest) f)
    {r : Bytes} {p : List ActionKey} {n : NodeId} (hn : f.nodeAt r p = some n) :
    (f.node n).depth = (p.length : Int) - 1 :=
  h.nodeAt_depth (fun hm hc => (he hm hc).2) hn

/-- The next key of a chain follows the node its chunks so far lead to. -/
theorem chainEdge_of_chain {f : NamespaceForest} (h : Shape f) (he : Edges (ChainEdge digest) f) {r : Bytes}
    {actions : List ActionKey} {chain : List Bytes} {i : Nat} {n : NodeId} {a : ActionKey} {k : Bytes}
    (hchain : buildActionChain digest r (actions.map ActionKey.bytes) = some chain)
    (hmount : f.nodeAt r (actions.take i) = some n) (ha : actions[i]? = some a) (hk : chain[i]? = some k) :
    ChainEdge digest (f.node n).nodeKey (f.node n).depth a k i := by
  obtain ⟨hi, _⟩ := List.getElem?_eq_some_iff.mp ha
  constructor
  · have hget := (buildActionChain_get hchain).2 i hi
    rw [hk, List.take_add_one, ha, Option.toList_some, pathKey_snoc, nodeAt_key h he hmount] at hget
    exact hget.symm
  · rw [nodeAt_depth h he hmount, List.length_take]
    omega

structure Kept (cfg : WorldKVConfig) (f : NamespaceForest) (n : NodeId) : Prop where
  skeleton : (f.node n).skeleton = some ⟨latentLocator (f.node n).nodeKey⟩
  pinned : (f.node n).pinned = decide ((f.node n).depth < cfg.sinkChunks)
  blob : ∀ h, (f.node n).blob = some h → h < f.handles.size ∧
    (f.handle h).locator = kvLocator (f.node n).nodeKey ∧ (f.handle h).ready = true

/-- A session's chunks so far lead to its mount. -/
structure Mounted (digest : Bytes → Bytes) (f : NamespaceForest) (s : Session) : Prop where
  chain : buildActionChain digest s.root (s.actions.map ActionKey.bytes) = some s.chain
  mount : f.nodeAt s.root (s.actions.take s.next) = some s.mount
  next : s.next ≤ s.actions.length

structure Good (digest : Bytes → Bytes) (cfg : WorldKVConfig) (w : World σ) : Prop where
  shape : Shape w.forest
  attached : Attached w.forest
  edges : Edges (ChainEdge digest) w.forest
  roots : ∀ n, n < w.forest.nodes.size → (w.forest.node n).parent = none →
    (w.forest.node n).blob = none ∧ (w.forest.node n).pinned = true
  kept : ∀ n, n < w.forest.nodes.size → (w.forest.node n).parent ≠ none → Kept cfg w.forest n
  refs : ∀ n, n < w.forest.nodes.size → (w.forest.node n).refCount = 0
  sessions : ∀ s ∈ w.sessions, Mounted digest w.forest s
  log : ∀ r p, p ≠ [] → w.forest.published r p = live r p w.log
  worlds : ∀ r, w.forest.resolve r ≠ none ↔ .created r ∈ w.log

theorem init_good (st : σ) : Good digest cfg (World.init st) := by
  refine ⟨Shape.empty, Attached.empty, Edges.empty, ?_, ?_, ?_, ?_, ?_, ?_⟩
  · intro n hn
    exact absurd hn (Nat.not_lt_zero _)
  · intro n hn
    exact absurd hn (Nat.not_lt_zero _)
  · intro n hn
    exact absurd hn (Nat.not_lt_zero _)
  · intro s hs
    cases hs
  · intro r p _
    rfl
  · intro r
    simp [World.init, resolve, NamespaceForest.empty]

/-- A blob's handle has been made. -/
theorem Good.blob_lt {w : World σ} (h : Good digest cfg w) {n : NodeId} {b : HandleId}
    (hn : n < w.forest.nodes.size) (hb : (w.forest.node n).blob = some b) :
    b < w.forest.handles.size := by
  by_cases hp : (w.forest.node n).parent = none
  · rw [(h.roots n hn hp).1] at hb
    cases hb
  · exact ((h.kept n hn hp).blob b hb).1

theorem Good.create {w : World σ} (h : Good digest cfg w) (r c : Bytes) :
    Good digest cfg
      { w with forest := (w.forest.getOrCreateNamespace r c).1, log := .created r :: w.log } := by
  cases hr : w.forest.resolve r with
  | some ns =>
    rw [getOrCreate_old hr]
    refine ⟨h.shape, h.attached, h.edges, h.roots, h.kept, h.refs, h.sessions, h.log, ?_⟩
    intro r'
    rw [h.worlds r', List.mem_cons]
    constructor
    · exact Or.inr
    · rintro (he | he)
      · cases he
        exact (h.worlds r).mp (by simp [hr])
      · exact he
  | none =>
    rw [getOrCreate_new hr]
    refine ⟨h.shape.addWorld hr c, h.attached.addWorld h.shape c, h.edges.addWorld h.shape r c,
      ?_, ?_, ?_, ?_, ?_, ?_⟩
    · intro n hn hp
      rcases Nat.lt_succ_iff_lt_or_eq.mp hn with hn | rfl
      · simp only [addWorld_old w.forest r c hn] at hp ⊢
        exact h.roots n hn hp
      · simp only [addWorld_new]
        exact ⟨rfl, rfl⟩
    · intro n hn hp
      rcases Nat.lt_succ_iff_lt_or_eq.mp hn with hn | rfl
      · simp only [addWorld_old w.forest r c hn] at hp
        obtain ⟨h1, h2, h3⟩ := h.kept n hn hp
        constructor <;> simp only [addWorld_old w.forest r c hn]
        · exact h1
        · exact h2
        · exact h3
      · simp only [addWorld_new] at hp
        exact absurd rfl hp
    · intro n hn
      rcases Nat.lt_succ_iff_lt_or_eq.mp hn with hn | rfl
      · simp only [addWorld_old w.forest r c hn]
        exact h.refs n hn
      · simp only [addWorld_new]
        rfl
    · intro s hs
      obtain ⟨h1, h2, h3⟩ := h.sessions s hs
      refine ⟨h1, ?_, h3⟩
      simp only [h.shape.nodeAt_addWorld hr]
      rw [if_neg, h2]
      rintro ⟨he, hp⟩
      rw [he, hp, nodeAt_nil, hr] at h2
      cases h2
    · intro r' p hp
      rw [h.shape.published_addWorld hr, h.log r' p hp]
      rfl
    · intro r'
      simp only [addWorld_resolve, List.mem_cons, Event.created.injEq, ← h.worlds r']
      by_cases he : r' = r <;> simp [he]

/-- An operation that only touches access times. -/
theorem Good.untouched {w : World σ} (h : Good digest cfg w) {f : NamespaceForest} (st : σ)
    (hf : Untouched w.forest f) : Good digest cfg { w with forest := f, store := st } := by
  have hs := hf.sameTrie
  refine ⟨hs.shape h.shape, hs.attached h.attached, h.edges.sameTrie hs, ?_, ?_, ?_, ?_, ?_, ?_⟩
  · intro n hn hp
    obtain ⟨t, ht⟩ := hf.node n
    simp only [ht] at hp ⊢
    exact h.roots n (hs.size ▸ hn) hp
  · intro n hn hp
    obtain ⟨t, ht⟩ := hf.node n
    simp only [ht] at hp
    obtain ⟨h1, h2, h3⟩ := h.kept n (hs.size ▸ hn) hp
    constructor <;> simp only [ht, handle, hf.handles]
    · exact h1
    · exact h2
    · exact h3
  · intro n hn
    obtain ⟨t, ht⟩ := hf.node n
    simp only [ht]
    exact h.refs n (hs.size ▸ hn)
  · intro s hm
    obtain ⟨h1, h2, h3⟩ := h.sessions s hm
    exact ⟨h1, by rw [← h2]; exact hs.nodeAt _ _, h3⟩
  · intro r p hp
    rw [← h.log r p hp, ← hf.published h.shape]
  · intro r
    rw [← h.worlds r]
    simp only [hs.resolve r]

theorem Good.evict {w : World σ} (h : Good digest cfg w) {n : NodeId}
    (hn : n < w.forest.nodes.size) {b : HandleId} (hb : (w.forest.node n).blob = some b) (st : σ) :
    Good digest cfg
      { w with
          forest := w.forest.modifyNode n fun p => { p with blob := none }
          store := st
          log := .evicted (w.forest.address n).1 (w.forest.address n).2 :: w.log } := by
  obtain ⟨r, p, hp⟩ := h.shape.exists_path h.attached hn
  have hs := SameTrie.modifyNode w.forest n (fun p => { p with blob := none })
    fun _ => ⟨rfl, rfl, rfl, rfl, rfl⟩
  have hne : ∀ {m}, m ≠ n →
      (w.forest.modifyNode n fun p => { p with blob := none }).node m = w.forest.node m :=
    fun hm => modifyNode_ne _ _ hm
  have hself := modifyNode_self w.forest n fun p => { p with blob := none }
  rw [address_eq h.shape hp]
  refine ⟨hs.shape h.shape, hs.attached h.attached, h.edges.sameTrie hs, ?_, ?_, ?_, ?_, ?_, ?_⟩
  · intro m hm hpar
    by_cases he : m = n
    · subst m
      simp only [hself] at hpar ⊢
      rw [(h.roots n hn hpar).1] at hb
      cases hb
    · simp only [hne he] at hpar ⊢
      exact h.roots m hm hpar
  · intro m hm hpar
    by_cases he : m = n
    · subst m
      simp only [hself] at hpar
      obtain ⟨h1, h2, _⟩ := h.kept n hn hpar
      constructor <;> simp only [hself]
      · exact h1
      · exact h2
      · intro _ hb
        cases hb
    · simp only [hne he] at hpar
      obtain ⟨h1, h2, h3⟩ := h.kept m hm hpar
      constructor <;> simp only [hne he]
      · exact h1
      · exact h2
      · exact h3
  · intro m hm
    by_cases he : m = n
    · subst m
      simp only [hself]
      exact h.refs n hn
    · simp only [hne he]
      exact h.refs m hm
  · intro s hm
    obtain ⟨h1, h2, h3⟩ := h.sessions s hm
    exact ⟨h1, by rw [← h2]; exact hs.nodeAt _ _, h3⟩
  · intro r' q hq
    have hkv : (w.forest.modifyNode n fun p => { p with blob := none }).hasKv n = false := by
      simp only [hasKv, hself]
    simp only [live, ← h.log r' q hq]
    rw [published_update h.shape hs hp _ r' q, hkv]
    intro m _ hm
    simp only [hasKv, hne hm]
    rfl
  · intro r'
    simp only [hs.resolve r', h.worlds r', List.mem_cons, reduceCtorEq, false_or]

structure Committed (cfg : WorldKVConfig) (f : NamespaceForest) (n : NodeId) (a : ActionKey)
    (k : Bytes) (d : Int) : Prop where
  nodeKey : ((f.commit n a k d).1.node (f.commit n a k d).2).nodeKey = k
  depth : ((f.commit n a k d).1.node (f.commit n a k d).2).depth = d
  parent : ((f.commit n a k d).1.node (f.commit n a k d).2).parent = some n
  refs : ((f.commit n a k d).1.node (f.commit n a k d).2).refCount = 0
  pinned : (((f.commit n a k d).1.node (f.commit n a k d).2).pinned || decide (d < cfg.sinkChunks)) =
    decide (d < cfg.sinkChunks)
  other : ∀ m, m < (f.commit n a k d).1.nodes.size → m ≠ (f.commit n a k d).2 →
    m < f.nodes.size ∧ ∃ cs, (f.commit n a k d).1.node m = { f.node m with children := cs }

theorem Good.committed {w : World σ} (h : Good digest cfg w) {n : NodeId} {a : ActionKey} {k : Bytes}
    {d : Int} (hn : n < w.forest.nodes.size)
    (hR : ChainEdge digest (w.forest.node n).nodeKey (w.forest.node n).depth a k d) :
    Committed cfg w.forest n a k d := by
  have hother : ∀ m, m < (w.forest.commit n a k d).1.nodes.size → m ≠ (w.forest.commit n a k d).2 →
      m < w.forest.nodes.size ∧
        ∃ cs, (w.forest.commit n a k d).1.node m = { w.forest.node m with children := cs } := by
    intro m hm hne
    rcases commit_node_cases hn k d hm with hold | ⟨_, he, _⟩
    · exact hold
    · exact absurd he hne
  cases hc : w.forest.child n a with
  | some c =>
    have hlt := (h.shape.child_lt hn hc).2
    have hpar := h.shape.child_parent hn hc
    obtain ⟨h1, h2⟩ := h.edges hn hc
    obtain ⟨h3, h4⟩ := hR
    have hdep := h2.trans h4.symm
    refine ⟨?_, ?_, ?_, ?_, ?_, hother⟩ <;> rw [commit_old hc]
    · exact Option.some.inj (h1.symm.trans h3)
    · exact hdep
    · exact hpar
    · exact h.refs c hlt
    · rw [(h.kept c hlt (by rw [hpar]; exact Option.some_ne_none n)).pinned, hdep, Bool.or_self]
  | none =>
    refine ⟨?_, ?_, ?_, ?_, ?_, hother⟩ <;>
      rw [commit_new hc, addChild_snd, w.forest.addChild_new hn]
    exact Bool.false_or _

/-- What every node holds between operations. -/
structure Tended (cfg : WorldKVConfig) (f : NamespaceForest) : Prop where
  roots : ∀ n, n < f.nodes.size → (f.node n).parent = none →
    (f.node n).blob = none ∧ (f.node n).pinned = true
  kept : ∀ n, n < f.nodes.size → (f.node n).parent ≠ none → Kept cfg f n
  refs : ∀ n, n < f.nodes.size → (f.node n).refCount = 0

/-- The node that is filled holds its chunk, and the others what they held. -/
theorem Good.filled {w : World σ} (h : Good digest cfg w) {f : NamespaceForest} {n : NodeId}
    {b : IngestArgs P L} (hkey : (f.node n).nodeKey = b.nodeKey) (hdepth : (f.node n).depth = b.depth)
    (hparent : (f.node n).parent ≠ none) (hrefs : (f.node n).refCount = 0)
    (hpinned : ((f.node n).pinned || decide (b.depth < cfg.sinkChunks)) = decide (b.depth < cfg.sinkChunks))
    (hother : ∀ m, m < f.nodes.size → m ≠ n → m < w.forest.nodes.size ∧
      ∃ cs, f.node m = { w.forest.node m with children := cs })
    (hhandles : f.handles = w.forest.handles) : Tended cfg (fill cfg f n b) := by
  have hfill : SameTrie f (fill cfg f n b) := fill_sameTrie f n b
  have hself : (fill cfg f n b).node n = _ := fill_self f n b
  have hold : ∀ m, m < f.nodes.size → m ≠ n → m < w.forest.nodes.size ∧
      ∃ cs, (fill cfg f n b).node m = { w.forest.node m with children := cs } := by
    intro m hm hne
    obtain ⟨hlt, cs, he⟩ := hother m hm hne
    exact ⟨hlt, cs, by rw [fill_ne f n b hne, he]⟩
  have hhandle : ∀ x, x < w.forest.handles.size → (fill cfg f n b).handle x = w.forest.handle x := by
    intro x hx
    rw [fill_handle_old f n b (by rw [hhandles]; exact hx), handle, hhandles]
    rfl
  have hsize : w.forest.handles.size < (fill cfg f n b).handles.size := by
    rw [fill_handles, Heap.size_modify, Heap.size_alloc, hhandles]
    exact Nat.lt_succ_self _
  refine ⟨?_, ?_, ?_⟩
  · intro m hm hp
    rw [hfill.size] at hm
    by_cases he : m = n
    · subst m
      rw [hfill.parent] at hp
      exact absurd hp hparent
    · obtain ⟨hlt, cs, he⟩ := hold m hm he
      simp only [he] at hp ⊢
      exact h.roots m hlt hp
  · intro m hm hp
    rw [hfill.size] at hm
    by_cases he : m = n
    · subst m
      refine ⟨?_, ?_, ?_⟩
      · rw [hfill.nodeKey, hself, hkey]
      · rw [hfill.depth, hself, hdepth]
        exact hpinned
      · intro x hx
        rw [hself] at hx
        cases hx
        rw [hfill.nodeKey, fill_handle_new f n b]
        refine ⟨by rw [hhandles]; exact hsize, ?_, rfl⟩
        simp only [IngestArgs.newHandle, hkey]
    · obtain ⟨hlt, cs, he⟩ := hold m hm he
      simp only [he] at hp
      obtain ⟨h1, h2, h3⟩ := h.kept m hlt hp
      refine ⟨by simp only [he, h1], by simp only [he, h2], ?_⟩
      intro x hx
      simp only [he] at hx ⊢
      obtain ⟨hx1, hx2, hx3⟩ := h3 x hx
      rw [hhandle x hx1]
      exact ⟨Nat.lt_trans hx1 hsize, hx2, hx3⟩
  · intro m hm
    rw [hfill.size] at hm
    by_cases he : m = n
    · subst m
      rw [hself]
      exact hrefs
    · obtain ⟨hlt, cs, he⟩ := hold m hm he
      simp only [he]
      exact h.refs m hlt

/-- Ingesting stores the chunk's path and mounts the session on its node. -/
theorem Good.ingest {w : World σ} (h : Good digest cfg w) {i : Nat} {s : Session} {a : ActionKey}
    {k : Bytes} (hi : w.sessions[i]? = some s) (ha : s.actions[s.next]? = some a)
    (hk : s.chain[s.next]? = some k) (payload : List P) (latent : L) (nbytes : Int)
    (nLayers : Option Int) (st : σ) :
    Good digest cfg
      { forest := fill cfg (w.forest.commit s.mount a k s.next).1
          (w.forest.commit s.mount a k s.next).2 (s.ingestArgs a k payload latent nbytes nLayers)
        store := st
        sessions := w.sessions.set i
          { s with next := s.next + 1, mount := (w.forest.commit s.mount a k s.next).2 }
        log := .ingested s.root (s.actions.take (s.next + 1)) :: w.log } := by
  have hm := h.sessions s (List.mem_of_getElem? hi)
  have hlt := (List.getElem?_eq_some_iff.mp ha).1
  have htake : s.actions.take (s.next + 1) = s.actions.take s.next ++ [a] := by
    rw [List.take_add_one, ha]
    rfl
  have hn := h.shape.nodeAt_lt hm.mount
  have hkey := chainEdge_of_chain h.shape h.edges hm.chain hm.mount ha hk
  have hc := h.committed hn hkey
  have hnode := h.shape.nodeAt_commit (a := a) k s.next hm.mount
  have hpub : ∀ r p, (fill cfg (w.forest.commit s.mount a k s.next).1
      (w.forest.commit s.mount a k s.next).2
      (s.ingestArgs a k payload latent nbytes nLayers)).published r p =
        if r = s.root ∧ p = s.actions.take s.next ++ [a] then true else w.forest.published r p :=
    fun r p => published_ingest cfg h.shape (fun _ _ => h.blob_lt) hm.mount r p
  have hfill : SameTrie (w.forest.commit s.mount a k s.next).1 (fill cfg _ _ _) :=
    fill_sameTrie (w.forest.commit s.mount a k s.next).1 (w.forest.commit s.mount a k s.next).2
      (s.ingestArgs a k payload latent nbytes nLayers)
  have ht : Tended cfg (fill cfg (w.forest.commit s.mount a k s.next).1
      (w.forest.commit s.mount a k s.next).2 (s.ingestArgs a k payload latent nbytes nLayers)) := by
    refine h.filled hc.nodeKey hc.depth ?_ hc.refs hc.pinned hc.other (commit_handles w.forest s.mount a k s.next)
    rw [hc.parent]
    exact Option.some_ne_none s.mount
  refine ⟨hfill.shape (h.shape.commit hn k s.next), hfill.attached (h.attached.commit h.shape hn k s.next),
    (h.edges.commit h.shape hn hkey).sameTrie hfill, ht.roots, ht.kept, ht.refs, ?_, ?_, ?_⟩
  · intro t ht
    rcases List.mem_or_eq_of_mem_set ht with ht | rfl
    · have hold := h.sessions t ht
      refine ⟨hold.chain, ?_, hold.next⟩
      rw [hfill.nodeAt]
      exact h.shape.nodeAt_commit_of_some k s.next hm.mount hold.mount
    · refine ⟨hm.chain, ?_, hlt⟩
      rw [hfill.nodeAt, hnode, if_pos ⟨rfl, htake⟩]
  · intro r p hp
    rw [live, ← h.log r p hp, hpub, ← htake]
  · intro r
    rw [hfill.resolve, commit_resolve w.forest s.mount a k s.next, h.worlds r]
    simp only [List.mem_cons, reduceCtorEq, false_or]

theorem Good.start {w : World σ} (h : Good digest cfg w) {r : Bytes} {actions : List ActionKey}
    {chain : List Bytes} (hc : buildActionChain digest r (actions.map ActionKey.bytes) = some chain)
    {k : Nat} {n : NodeId} (hn : w.forest.nodeAt r (actions.take k) = some n)
    (hk : k ≤ actions.length) :
    Good digest cfg { w with sessions := w.sessions ++ [⟨r, actions, chain, k, n⟩] } := by
  refine ⟨h.shape, h.attached, h.edges, h.roots, h.kept, h.refs, ?_, h.log, h.worlds⟩
  intro s hs
  rcases List.mem_append.mp hs with hs | hs
  · exact h.sessions s hs
  · rw [List.mem_singleton] at hs
    subst s
    exact ⟨hc, hn, hk⟩

/-- Every operation keeps the invariant, whichever session issues it. -/
theorem step_good (hS : Synchronous S) {w w' : World σ} {op : Op P L ω} (h : Good digest cfg w)
    (hw : w.step digest S W cfg op = some w') : Good digest cfg w' := by
  cases op with
  | create r c =>
    cases hw
    exact h.create r c
  | start r actions resume =>
    simp only [World.step] at hw
    cases hc : buildActionChain digest r (actions.map ActionKey.bytes) with
    | none => simp [hc] at hw
    | some chain =>
      cases hr : w.forest.resolve r with
      | none => simp [hc, Shape.lookup_none w.forest hr] at hw
      | some ns =>
        obtain ⟨n, _, hn⟩ := h.shape.descend_eq [] actions 0
          (Shape.nodeAt_nil_iff.mpr ⟨ns, hr, rfl⟩)
        rw [List.nil_append] at hn
        change w.forest.nodeAt r (actions.take (longest (w.forest.published r) actions)) = _ at hn
        simp only [hc, h.shape.lookup_eq hr, hn, Option.some.injEq] at hw
        subst w'
        cases resume with
        | true => exact h.start hc hn (longest_le _ _)
        | false => exact h.start hc (Shape.nodeAt_nil_iff.mpr ⟨ns, hr, rfl⟩) (Nat.zero_le _)
  | ingest i payload latent nbytes nLayers =>
    simp only [World.step] at hw
    cases hi : w.sessions[i]? with
    | none => simp [hi] at hw
    | some s =>
      cases ha : s.actions[s.next]? with
      | none => simp [hi, ha] at hw
      | some a =>
        cases hk : s.chain[s.next]? with
        | none => simp [hi, ha, hk] at hw
        | some k =>
          obtain ⟨st, hst⟩ := ingest_synchronous cfg hS w.forest w.store
            (s.ingestArgs a k payload latent nbytes nLayers)
          simp only [hi, ha, hk, hst, Option.some.injEq] at hw
          subst w'
          exact h.ingest hi ha hk payload latent nbytes nLayers st
  | materialize n window now =>
    simp only [World.step] at hw
    split at hw
    · cases hw
      exact h.untouched _ (materialize_untouched S W cfg now w.forest w.store n window)
    · cases hw
  | evict n =>
    simp only [World.step] at hw
    split at hw
    · rename_i hn
      rcases evictBlob_cases S w.forest w.store n with ⟨b, hb, _, _, he⟩ | ⟨_, he⟩
      · simp only [he, Option.some.injEq] at hw
        subst w'
        exact h.evict hn hb _
      · simp only [he, Option.some.injEq] at hw
        subst w'
        exact h
    · cases hw

theorem run_good (hS : Synchronous S) {w : World σ} {st : σ} {ops : List (Op P L ω)}
    (hr : run (World.step digest S W cfg) (World.init st) ops = some w) : Good digest cfg w :=
  run_invariant (fun _ _ _ hg hw => step_good hS hg hw) (init_good st) hr

/-- What `lookup` answers in a good world is what the history says. -/
theorem Good.matchedLen {w : World σ} (h : Good digest cfg w) (r : Bytes)
    (actions : List ActionKey) :
    (w.forest.lookup r actions).matchedLen = longest (fun p => live r p w.log) actions := by
  rw [h.shape.matchedLen_eq]
  apply longest_congr
  intro j h1 h2
  apply h.log
  intro he
  rw [List.take_eq_nil_iff] at he
  rcases he with he | he
  · omega
  · rw [he] at h2
    simp at h2
    omega

end CacheSeek.Proofs.Worlds
