import CacheSeek.Prefix.Holdings
import CacheSeek.Proofs.StoreContents

namespace CacheSeek.Proofs.StoredForest
open CacheSeek.Lib CacheSeek.Prefix CacheSeek.Prefix.NamespaceForest CacheSeek.Stores
open CacheSeek.Stores.TensorTier CacheSeek.Proofs.StoreKeys CacheSeek.Proofs.StoreContents

variable {τ : Type}

structure Grows (f g : NamespaceForest) : Prop where
  size : f.nodes.size ≤ g.nodes.size
  nodeKey : ∀ {n}, n < f.nodes.size → (g.node n).nodeKey = (f.node n).nodeKey
  skeleton : ∀ {n}, n < f.nodes.size → (f.node n).skeleton ≠ none → (g.node n).skeleton ≠ none
  handles : f.handles.size ≤ g.handles.size
  locator : ∀ {h}, h < f.handles.size → (g.handle h).locator = (f.handle h).locator
  layers : ∀ {h}, h < f.handles.size → (g.handle h).nLayers = (f.handle h).nLayers

theorem Grows.refl (f : NamespaceForest) : Grows f f :=
  ⟨Nat.le_refl _, fun _ => rfl, fun _ => id, Nat.le_refl _, fun _ => rfl, fun _ => rfl⟩

/-- A change of nodes that leaves keys and skeletons. -/
theorem Grows.of_nodes {f g : NamespaceForest} (hs : f.nodes.size ≤ g.nodes.size)
    (hh : g.handles = f.handles)
    (hn : ∀ n, n < f.nodes.size → (g.node n).nodeKey = (f.node n).nodeKey ∧
      ((f.node n).skeleton ≠ none → (g.node n).skeleton ≠ none)) : Grows f g :=
  ⟨hs, fun h => (hn _ h).1, fun h => (hn _ h).2, Nat.le_of_eq (congrArg Heap.size hh.symm),
    fun _ => by simp only [handle, hh], fun _ => by simp only [handle, hh]⟩

theorem create_grows (f : NamespaceForest) (r c : Bytes) :
    Grows f (f.getOrCreateNamespace r c).1 := by
  cases hr : f.resolve r with
  | some ns =>
    rw [getOrCreate_old hr]
    exact Grows.refl f
  | none =>
    rw [getOrCreate_new hr]
    refine Grows.of_nodes (Nat.le_succ _) rfl ?_
    intro n hn
    rw [addWorld_old f r c hn]
    exact ⟨rfl, id⟩

theorem commit_grows {f : NamespaceForest} {n : NodeId} (hn : n < f.nodes.size) (a : ActionKey)
    (k : Bytes) (d : Int) : Grows f (f.commit n a k d).1 := by
  refine Grows.of_nodes (commit_le f n a k d) (commit_handles f n a k d) ?_
  intro m hm
  cases h : f.child n a with
  | some c =>
    rw [commit_old h]
    exact ⟨rfl, id⟩
  | none =>
    rw [commit_new h]
    obtain ⟨cs, he⟩ := f.addChild_old hn { nodeKey := k, action := a, depth := d, parent := some n } hm
    rw [he]
    exact ⟨rfl, id⟩

theorem modifyNode_grows (f : NamespaceForest) (n : NodeId) (u : TrieNode → TrieNode)
    (hk : ∀ p, (u p).nodeKey = p.nodeKey) (hs : ∀ p, p.skeleton ≠ none → (u p).skeleton ≠ none) :
    Grows f (f.modifyNode n u) := by
  refine Grows.of_nodes (Nat.le_refl _) rfl ?_
  intro m _
  by_cases he : m = n
  · subst m
    rw [modifyNode_self]
    exact ⟨hk _, hs _⟩
  · rw [modifyNode_ne _ _ he]
    exact ⟨rfl, id⟩

theorem pinSink_grows (f : NamespaceForest) (cfg : WorldKVConfig) (n : NodeId) (d : Int) :
    Grows f (f.pinSink cfg n d) := by
  unfold pinSink
  split
  · exact modifyNode_grows f n _ (fun _ => rfl) fun _ => id
  · exact Grows.refl f

theorem setSkeleton_grows (f : NamespaceForest) (n : NodeId) (k : Bytes) :
    Grows f (f.setSkeleton n k) :=
  modifyNode_grows f n _ (fun _ => rfl) fun _ _ => Option.some_ne_none _

theorem attachBlob_node (f : NamespaceForest) (n m : NodeId) (b : BlobHandle) :
    (f.attachBlob n b).1.node m =
      (f.modifyNode n fun p => { p with blob := some f.handles.size }).node m := rfl

theorem attachBlob_grows (f : NamespaceForest) (n : NodeId) (b : BlobHandle) :
    Grows f (f.attachBlob n b).1 := by
  obtain ⟨h1, h2, h3, _⟩ := modifyNode_grows f n (fun p => { p with blob := some f.handles.size })
    (fun _ => rfl) fun _ => id
  refine ⟨h1, h2, h3, Nat.le_succ _, ?_, ?_⟩
  · intro h hh
    exact congrArg BlobHandle.locator (Heap.get_alloc_lt _ _ hh)
  · intro h hh
    exact congrArg BlobHandle.nLayers (Heap.get_alloc_lt _ _ hh)

theorem publish_grows (f : NamespaceForest) (h : HandleId) : Grows f (f.publish h) := by
  refine ⟨Nat.le_refl _, fun _ => rfl, fun _ => id, Nat.le_refl _, ?_, ?_⟩ <;> intro x _
  all_goals
    by_cases he : x = h
    · subst x
      rw [publish_handle_self]
    · rw [publish_handle_ne _ he]

section
variable (V : Values τ) (M : MachineConfig τ)

/-- A handle's locator names the key whose blob it stands for; once ready, all of
the blob is stored. -/
def HandleOk (f : NamespaceForest) (s : TensorTier τ) (h : HandleId) : Prop :=
  ∃ k, (f.handle h).locator = kvLocator k ∧
    (f.handle h).nLayers ≤ (V.payloadOf k).length ∧
    ((f.handle h).ready = true → ∀ w ∈ V.blob k, Has M.ops s w)

/-- The puts still to do, and the rest already done. -/
def Pending (f : NamespaceForest) (s : TensorTier τ) (h : HandleId)
    (pending : List (String × Option τ)) : Prop :=
  h < f.handles.size ∧ ∃ k, (f.handle h).locator = kvLocator k ∧ (∀ w ∈ pending, w ∈ V.blob k) ∧
    ∀ w ∈ V.blob k, w ∈ pending ∨ Has M.ops s w

structure ItemOk (m : Machine τ) (item : PutItem τ) : Prop where
  handle : item.handle < m.forest.handles.size
  status : m.status item.handle = .queued
  content : ∃ k, (m.forest.handle item.handle).locator = kvLocator k ∧
    item.locator = kvLocator k ∧ item.payload = pairs (V.payloadOf k)

/-- What a call has to do with a node. -/
def Target (f : NamespaceForest) (a : IngestArgs (LayerValue τ) τ) (n : NodeId) : Prop :=
  n < f.nodes.size ∧ (f.node n).nodeKey = a.nodeKey

def PcOk (m : Machine τ) (i : Nat) (a : IngestArgs (LayerValue τ) τ) : IngestPc τ → Prop
  | .commit => True
  | .pin n => Target m.forest a n
  | .putSkeleton n => Target m.forest a n
  | .setSkeleton n => Target m.forest a n ∧ Has M.ops m.store (V.skeleton a.nodeKey)
  | .attach n => Target m.forest a n ∧ (m.forest.node n).skeleton ≠ none
  | .putAsync _ h => h < m.forest.handles.size ∧ m.status h = .caller i ∧
      (m.forest.handle h).locator = kvLocator a.nodeKey
  | .writing _ h pending => m.status h = .caller i ∧ Pending V M m.forest m.store h pending
  | .returned _ => True
  | .raised => True

structure CallOk (m : Machine τ) (i : Nat) (c : IngestCall τ) : Prop where
  parent : c.args.parent < m.forest.nodes.size
  nodeKey : c.args.nodeKey = V.keyOf (m.forest.node c.args.parent).nodeKey c.args.action
  payload : c.args.kvPayload = pairs (V.payloadOf c.args.nodeKey)
  latent : c.args.latent = V.latentOf c.args.nodeKey
  nLayers : ∀ k, c.args.nLayers = some k → k ≤ (V.payloadOf c.args.nodeKey).length
  pc : PcOk V M m i c.args c.pc

/-- Forest, store and history agree. -/
structure Stored (f : NamespaceForest) (s : TensorTier τ) (status : HandleId → WriteStatus) :
    Prop where
  shape : Shape f
  keyed : Edges (fun k _ a k' _ => k' = V.keyOf k a) f
  skeleton : ∀ {n sk}, n < f.nodes.size → (f.node n).skeleton = some sk →
    sk = ⟨latentLocator (f.node n).nodeKey⟩ ∧ Has M.ops s (V.skeleton (f.node n).nodeKey)
  blob : ∀ {n h}, n < f.nodes.size → (f.node n).blob = some h → h < f.handles.size ∧
    (f.handle h).locator = kvLocator (f.node n).nodeKey ∧ (f.node n).skeleton ≠ none
  handles : ∀ {h}, h < f.handles.size → HandleOk V M f s h
  status : ∀ {h}, h < f.handles.size → (f.handle h).ready = true → status h = .published

structure Sound (m : Machine τ) : Prop where
  stored : Stored V M m.forest m.store m.status
  calls : ∀ {i c}, m.calls[i]? = some c → CallOk V M m i c
  queue : ∀ {item}, item ∈ m.queue → ItemOk V m item
  queueNodup : (m.queue.map PutItem.handle).Nodup
  worker : ∀ {h pending}, m.worker = some (h, pending) →
    m.status h = .worker ∧ Pending V M m.forest m.store h pending

end

variable {V : Values τ} {M : MachineConfig τ}

theorem HandleOk.mono {f : NamespaceForest} {s s' : TensorTier τ} {h : HandleId}
    (ho : HandleOk V M f s h) (hs : Keeps V M.ops s s') : HandleOk V M f s' h := by
  obtain ⟨k, h1, h2, h3⟩ := ho
  exact ⟨k, h1, h2, fun hr w hw => hs w (V.holds_blob hw) (h3 hr w hw)⟩

/-- What is still to be written stays so while the forest grows and the store keeps its keys. -/
theorem Pending.mono {f g : NamespaceForest} {s s' : TensorTier τ} {h : HandleId}
    {pending : List (String × Option τ)} (hp : Pending V M f s h pending) (hg : Grows f g)
    (hs : Keeps V M.ops s s') : Pending V M g s' h pending := by
  obtain ⟨hh, k, h1, h2, h3⟩ := hp
  refine ⟨Nat.lt_of_lt_of_le hh hg.handles, k, (hg.locator hh).trans h1, h2, ?_⟩
  intro w hw
  rcases h3 w hw with hw' | hw'
  · exact Or.inl hw'
  · exact Or.inr (hs w (V.holds_blob hw) hw')

theorem Target.mono {f g : NamespaceForest} {a : IngestArgs (LayerValue τ) τ} {n : NodeId}
    (ht : Target f a n) (hg : Grows f g) : Target g a n :=
  ⟨Nat.lt_of_lt_of_le ht.1 hg.size, (hg.nodeKey ht.1).trans ht.2⟩

/-- A step keeps what a call relies on unless it takes the call's own handle. -/
theorem PcOk.mono {m m' : Machine τ} {i : Nat} {a : IngestArgs (LayerValue τ) τ} {pc : IngestPc τ}
    (hp : PcOk V M m i a pc) (hg : Grows m.forest m'.forest) (hs : Keeps V M.ops m.store m'.store)
    (hst : ∀ h, h < m.forest.handles.size → m.status h = .caller i → m'.status h = m.status h) :
    PcOk V M m' i a pc := by
  cases pc with
  | commit => trivial
  | pin n => exact Target.mono hp hg
  | putSkeleton n => exact Target.mono hp hg
  | setSkeleton n => exact ⟨hp.1.mono hg, hs _ (V.holds_skeleton _) hp.2⟩
  | attach n => exact ⟨hp.1.mono hg, hg.skeleton hp.1.1 hp.2⟩
  | putAsync n h =>
    obtain ⟨h1, h2, h3⟩ := hp
    exact ⟨Nat.lt_of_lt_of_le h1 hg.handles, (hst h h1 h2).trans h2, (hg.locator h1).trans h3⟩
  | writing n h pending =>
    obtain ⟨h1, h2⟩ := hp
    exact ⟨(hst h h2.1 h1).trans h1, h2.mono hg hs⟩
  | returned n => trivial
  | raised => trivial

theorem CallOk.mono {m m' : Machine τ} {i : Nat} {c : IngestCall τ} (hc : CallOk V M m i c)
    (hg : Grows m.forest m'.forest) (hs : Keeps V M.ops m.store m'.store)
    (hst : ∀ h, h < m.forest.handles.size → m.status h = .caller i → m'.status h = m.status h) :
    CallOk V M m' i c :=
  ⟨Nat.lt_of_lt_of_le hc.parent hg.size, by rw [hg.nodeKey hc.parent]; exact hc.nodeKey,
    hc.payload, hc.latent, hc.nLayers, hc.pc.mono hg hs hst⟩

theorem ItemOk.mono {m m' : Machine τ} {item : PutItem τ} (hi : ItemOk V m item)
    (hg : Grows m.forest m'.forest) (hst : m'.status item.handle = m.status item.handle) :
    ItemOk V m' item := by
  obtain ⟨h1, h2, k, h3, h4⟩ := hi
  exact ⟨Nat.lt_of_lt_of_le h1 hg.handles, hst.trans h2, k, (hg.locator h1).trans h3, h4⟩

namespace Stored

variable {f : NamespaceForest} {s : TensorTier τ} {status : HandleId → WriteStatus}

theorem store (h : Stored V M f s status) {s' : TensorTier τ} (hs : Keeps V M.ops s s') :
    Stored V M f s' status :=
  ⟨h.shape, h.keyed,
    fun hn hk => ⟨(h.skeleton hn hk).1, hs _ (V.holds_skeleton _) (h.skeleton hn hk).2⟩,
    h.blob, fun hh => (h.handles hh).mono hs, h.status⟩

theorem not_ready (h : Stored V M f s status) {x : HandleId} (hx : status x ≠ .published)
    (hlt : x < f.handles.size) : (f.handle x).ready = false := by
  cases hr : (f.handle x).ready with
  | false => rfl
  | true => exact absurd (h.status hlt hr) hx

/-- History may change for a handle that is not ready. -/
theorem setStatus (h : Stored V M f s status) {x : HandleId}
    (hx : x < f.handles.size → (f.handle x).ready = false) (st : WriteStatus) :
    Stored V M f s fun y => if y = x then st else status y := by
  refine ⟨h.shape, h.keyed, h.skeleton, h.blob, h.handles, ?_⟩
  intro y hy hr
  split
  · rename_i he
    subst y
    rw [hx hy] at hr
    cases hr
  · exact h.status hy hr

theorem create (h : Stored V M f s status) (r c : Bytes) :
    Stored V M (f.getOrCreateNamespace r c).1 s status := by
  cases hr : f.resolve r with
  | some ns => rwa [getOrCreate_old hr]
  | none =>
    rw [getOrCreate_new hr]
    refine ⟨h.shape.addWorld hr c, h.keyed.addWorld h.shape r c, ?_, ?_, h.handles, h.status⟩
    · intro n sk hn hk
      rcases Nat.lt_succ_iff_lt_or_eq.mp hn with hn | rfl
      · simp only [addWorld_old f r c hn] at hk ⊢
        exact h.skeleton hn hk
      · simp only [addWorld_new] at hk
        cases hk
    · intro n b hn hb
      rcases Nat.lt_succ_iff_lt_or_eq.mp hn with hn | rfl
      · simp only [addWorld_old f r c hn] at hb ⊢
        exact h.blob hn hb
      · simp only [addWorld_new] at hb
        cases hb

theorem commit (h : Stored V M f s status) {n : NodeId} (hn : n < f.nodes.size) {a : ActionKey}
    {k : Bytes} (hk : k = V.keyOf (f.node n).nodeKey a) (d : Int) :
    Stored V M (f.commit n a k d).1 s status := by
  have hnode : ∀ m, m < (f.commit n a k d).1.nodes.size → (m < f.nodes.size ∧
      ∃ cs, (f.commit n a k d).1.node m = { f.node m with children := cs }) ∨
      ((f.commit n a k d).1.node m).skeleton = none ∧ ((f.commit n a k d).1.node m).blob = none := by
    intro m hm
    rcases commit_node_cases hn k d hm with hold | ⟨_, _, he⟩
    · exact Or.inl hold
    · rw [he]
      exact Or.inr ⟨rfl, rfl⟩
  have hhand := commit_handles f n a k d
  refine ⟨h.shape.commit hn k d, h.keyed.commit h.shape hn hk, ?_, ?_, ?_, ?_⟩
  · intro m sk hm hsk
    rcases hnode m hm with ⟨hm, cs, he⟩ | ⟨he, _⟩
    · rw [he] at hsk ⊢
      exact h.skeleton hm hsk
    · rw [he] at hsk
      cases hsk
  · intro m b hm hb
    rcases hnode m hm with ⟨hm, cs, he⟩ | ⟨_, he⟩
    · rw [he] at hb ⊢
      simp only [handle, hhand]
      exact h.blob hm hb
    · rw [he] at hb
      cases hb
  · intro x hx
    rw [hhand] at hx
    simpa only [HandleOk, handle, hhand] using h.handles hx
  · intro x hx hr
    rw [hhand] at hx
    simp only [handle, hhand] at hr
    exact h.status hx hr

/-- A node's data may change as long as skeleton and blob stay right. -/
theorem modifyNode (h : Stored V M f s status) {n : NodeId} {u : TrieNode → TrieNode}
    (hu : ∀ p, (u p).nodeKey = p.nodeKey ∧ (u p).action = p.action ∧ (u p).depth = p.depth ∧
      (u p).parent = p.parent ∧ (u p).children = p.children)
    (hsk : ∀ sk, (u (f.node n)).skeleton = some sk → (f.node n).skeleton = some sk ∨
      sk = ⟨latentLocator (f.node n).nodeKey⟩ ∧ Has M.ops s (V.skeleton (f.node n).nodeKey))
    (hb : ∀ b, (u (f.node n)).blob = some b → (f.node n).blob = some b)
    (hne : (f.node n).skeleton ≠ none → (u (f.node n)).skeleton ≠ none) :
    Stored V M (f.modifyNode n u) s status := by
  have hs := SameTrie.modifyNode f n u hu
  refine ⟨hs.shape h.shape, h.keyed.sameTrie hs, ?_, ?_, h.handles, h.status⟩
  · intro m sk hm hk
    rw [hs.nodeKey]
    by_cases he : m = n
    · subst m
      rw [modifyNode_self] at hk
      rcases hsk sk hk with hk | hk
      · exact h.skeleton hm hk
      · exact hk
    · rw [modifyNode_ne _ _ he] at hk
      exact h.skeleton hm hk
  · intro m b hm hk
    rw [hs.nodeKey]
    by_cases he : m = n
    · subst m
      rw [modifyNode_self] at hk ⊢
      obtain ⟨h1, h2, h3⟩ := h.blob hm (hb b hk)
      exact ⟨h1, h2, hne h3⟩
    · rw [modifyNode_ne _ _ he] at hk ⊢
      exact h.blob hm hk

theorem pinSink (h : Stored V M f s status) (cfg : WorldKVConfig) (n : NodeId) (d : Int) :
    Stored V M (f.pinSink cfg n d) s status := by
  unfold NamespaceForest.pinSink
  split
  · exact h.modifyNode (fun _ => ⟨rfl, rfl, rfl, rfl, rfl⟩) (fun _ => Or.inl) (fun _ => id) id
  · exact h

theorem setSkeleton (h : Stored V M f s status) {n : NodeId} {k : Bytes}
    (hk : (f.node n).nodeKey = k) (hh : Has M.ops s (V.skeleton k)) :
    Stored V M (f.setSkeleton n k) s status := by
  refine h.modifyNode (fun _ => ⟨rfl, rfl, rfl, rfl, rfl⟩) ?_ (fun _ => id)
    fun _ => Option.some_ne_none _
  intro sk hsk
  cases hsk
  rw [hk]
  exact Or.inr ⟨rfl, hh⟩

/-- A dropped handle is no longer asked for. -/
theorem evict (h : Stored V M f s status) (n : NodeId) :
    Stored V M (f.modifyNode n fun p => { p with blob := none }) s status := by
  refine h.modifyNode (fun _ => ⟨rfl, rfl, rfl, rfl, rfl⟩) (fun _ => Or.inl) ?_ id
  intro b hb
  cases hb

/-- A new handle, not ready, takes the place of the node's blob. -/
theorem attachBlob (h : Stored V M f s status) {n : NodeId}
    (hsk : (f.node n).skeleton ≠ none) {b : BlobHandle}
    (hb : b.locator = kvLocator (f.node n).nodeKey) (hr : b.ready = false)
    (hl : b.nLayers ≤ (V.payloadOf (f.node n).nodeKey).length) :
    Stored V M (f.attachBlob n b).1 s status := by
  have hs := attachBlob_sameTrie f n b
  have hold : ∀ {x}, x < f.handles.size → (f.attachBlob n b).1.handle x = f.handle x :=
    fun hx => Heap.get_alloc_lt _ _ hx
  have hnew : (f.attachBlob n b).1.handle f.handles.size = b := Heap.get_alloc_self _ _
  refine ⟨hs.shape h.shape, h.keyed.sameTrie hs, ?_, ?_, ?_, ?_⟩
  · intro m sk hm hk
    rw [hs.nodeKey]
    rw [attachBlob_node] at hk
    by_cases he : m = n
    · subst m
      rw [modifyNode_self] at hk
      exact h.skeleton hm hk
    · rw [modifyNode_ne _ _ he] at hk
      exact h.skeleton hm hk
  · intro m x hm hx
    rw [hs.nodeKey]
    rw [attachBlob_node] at hx ⊢
    by_cases he : m = n
    · subst m
      rw [modifyNode_self] at hx ⊢
      cases hx
      exact ⟨Nat.lt_succ_self _, by rw [hnew]; exact hb, hsk⟩
    · rw [modifyNode_ne _ _ he] at hx ⊢
      obtain ⟨h1, h2, h3⟩ := h.blob hm hx
      exact ⟨Nat.lt_succ_of_lt h1, by rw [hold h1]; exact h2, h3⟩
  · intro x hx
    rcases Nat.lt_succ_iff_lt_or_eq.mp hx with hx | rfl
    · unfold HandleOk
      rw [hold hx]
      exact h.handles hx
    · unfold HandleOk
      rw [hnew]
      refine ⟨_, hb, hl, ?_⟩
      rw [hr]
      intro hf
      cases hf
  · intro x hx hrx
    rcases Nat.lt_succ_iff_lt_or_eq.mp hx with hx | rfl
    · rw [hold hx] at hrx
      exact h.status hx hrx
    · rw [hnew, hr] at hrx
      cases hrx

/-- A handle becomes ready when its blob is stored. -/
theorem publish (h : Stored V M f s status) {x : HandleId} (hp : Pending V M f s x []) :
    Stored V M (f.publish x) s fun y => if y = x then .published else status y := by
  have hg := publish_grows f x
  have hne : ∀ {y}, y ≠ x → (f.publish x).handle y = f.handle y := fun hy => publish_handle_ne f hy
  refine ⟨(publish_sameTrie f x).shape h.shape, h.keyed.sameTrie (publish_sameTrie f x),
    h.skeleton, ?_, ?_, ?_⟩
  · intro n b hn hb
    obtain ⟨h1, h2, h3⟩ := h.blob hn hb
    exact ⟨h1, (hg.locator h1).trans h2, h3⟩
  · intro y hy
    by_cases he : y = x
    · subst y
      obtain ⟨_, k, hk, _, hall⟩ := hp
      obtain ⟨k', hk', hl, _⟩ := h.handles hy
      have hkk := kvLocator_inj (hk.symm.trans hk')
      subst k'
      refine ⟨k, (hg.locator hy).trans hk, by rw [hg.layers hy]; exact hl, fun _ w hw => ?_⟩
      rcases hall w hw with hw' | hw'
      · cases hw'
      · exact hw'
    · unfold HandleOk
      rw [hne he]
      exact h.handles hy
  · intro y hy hr
    split
    · rfl
    · rename_i he
      rw [hne he] at hr
      exact h.status hy hr

end Stored

end CacheSeek.Proofs.StoredForest
