import CacheSeek.Prefix.Steps
import CacheSeek.Lib.Lists

namespace CacheSeek.Proofs.ReuseKept
open CacheSeek.Lib CacheSeek.Prefix CacheSeek.Prefix.NamespaceForest CacheSeek.Stores

variable {τ : Type} {M : MachineConfig τ}

/-- No lookup matches fewer chunks than before. -/
def NoLess (f g : NamespaceForest) : Prop :=
  ∀ r actions, (f.lookup r actions).matchedLen ≤ (g.lookup r actions).matchedLen

/-- Some lookup ends at the chunk node `n`. -/
def Matchable (f : NamespaceForest) (n : NodeId) : Prop :=
  ∃ r actions, 0 < (f.lookup r actions).matchedLen ∧ (f.lookup r actions).node = some n

/-- A path that is published all the way. -/
def Full (f : NamespaceForest) (r : Bytes) (p : List ActionKey) : Prop :=
  ∀ j, 1 ≤ j → j ≤ p.length → f.published r (p.take j) = true

theorem NoLess.refl (f : NamespaceForest) : NoLess f f := fun _ _ => Nat.le_refl _

theorem NoLess.trans {f g h : NamespaceForest} (hg : NoLess f g) (hh : NoLess g h) : NoLess f h :=
  fun r actions => Nat.le_trans (hg r actions) (hh r actions)

theorem full_take {f : NamespaceForest} (hs : Shape f) (r : Bytes) (actions : List ActionKey) :
    Full f r (actions.take (f.lookup r actions).matchedLen) := by
  intro j h1 h2
  rw [hs.matchedLen_eq] at h2 ⊢
  rw [List.length_take] at h2
  rw [List.take_take, Nat.min_eq_left (by omega)]
  exact longest_holds _ _ h1 (by omega)

theorem Full.initial {f : NamespaceForest} {r : Bytes} {p q : List ActionKey} (h : Full f r p)
    (hq : q <+: p) : Full f r q := by
  intro j h1 h2
  have hlen := hq.length_le
  have he : q.take j = p.take j := by
    obtain ⟨t, rfl⟩ := hq
    rw [List.take_append_of_le_length h2]
  rw [he]
  exact h j h1 (by omega)

/-- A lookup of a full path matches all of it. -/
theorem Full.lookup {f : NamespaceForest} (hs : Shape f) {r : Bytes} {p : List ActionKey}
    (h : Full f r p) : (f.lookup r p).matchedLen = p.length := by
  rw [hs.matchedLen_eq]
  exact (longest_eq_length_iff _ p).mpr h

/-- A forest that keeps every fully published path matches no less anywhere. -/
theorem noLess_of_full {f g : NamespaceForest} (hf : Shape f) (hg : Shape g)
    (h : ∀ r p, Full f r p → Full g r p) : NoLess f g := by
  intro r actions
  have hp := h r _ (full_take hf r actions)
  have hle : (f.lookup r actions).matchedLen ≤ actions.length := by
    rw [hf.matchedLen_eq]
    exact longest_le _ _
  rw [hg.matchedLen_eq]
  refine (le_longest_iff _ _ _ hle).mpr fun j h1 h2 => ?_
  have := hp j h1 (by rw [List.length_take]; omega)
  rwa [List.take_take, Nat.min_eq_left h2] at this

/-- Lookup can end at a node when its whole path is published. -/
theorem matchable_iff {f : NamespaceForest} (hs : Shape f) {r : Bytes} {p : List ActionKey}
    {n : NodeId} (hn : f.nodeAt r p = some n) (hp : p ≠ []) : Matchable f n ↔ Full f r p := by
  constructor
  · rintro ⟨r', actions, hpos, hnode⟩
    have hfull := full_take hs r' actions
    cases hr : f.resolve r' with
    | none =>
      rw [Shape.lookup_none f hr] at hnode
      cases hnode
    | some ns =>
      rw [hs.lookup_eq hr] at hnode
      obtain ⟨rfl, rfl⟩ := hs.nodeAt_inj hn hnode
      rwa [← hs.matchedLen_eq]
  · intro hfull
    have hlen := hfull.lookup hs
    refine ⟨r, p, ?_, ?_⟩
    · rw [hlen]
      exact List.length_pos_iff.mpr hp
    · cases hr : f.resolve r with
      | none =>
        unfold nodeAt at hn
        rw [hr] at hn
        cases hn
      | some ns =>
        rw [hs.matchedLen_eq] at hlen
        rw [hs.lookup_eq hr, hlen, List.take_length, hn]

def pcNode : IngestPc τ → Option NodeId
  | .pin n => some n
  | .putSkeleton n => some n
  | .setSkeleton n => some n
  | .attach n => some n
  | _ => none

structure Tidy (m : Machine τ) : Prop where
  shape : Shape m.forest
  attached : Attached m.forest
  blob_lt : ∀ {n h}, n < m.forest.nodes.size → (m.forest.node n).blob = some h →
    h < m.forest.handles.size
  parent : ∀ {i : Nat} {c : IngestCall τ}, m.calls[i]? = some c → c.args.parent < m.forest.nodes.size
  target : ∀ {i : Nat} {c : IngestCall τ} {n : NodeId}, m.calls[i]? = some c → pcNode c.pc = some n →
    m.forest.child c.args.parent c.args.action = some n

def Gains (f g : NamespaceForest) : Prop :=
  ∀ r p, f.published r p = true → g.published r p = true

theorem Gains.full {f g : NamespaceForest} (h : Gains f g) {r : Bytes} {p : List ActionKey}
    (hp : Full f r p) : Full g r p :=
  fun j h1 h2 => h r _ (hp j h1 h2)

theorem gains_of_hasKv {f g : NamespaceForest} (h : SameTrie f g)
    (hk : ∀ n, f.hasKv n = true → g.hasKv n = true) : Gains f g := by
  intro r p hp
  obtain ⟨n, hn, hkv⟩ := published_iff.mp hp
  exact published_iff.mpr ⟨n, by rw [h.nodeAt, hn], hk n hkv⟩

/-- Publication only adds. -/
theorem publish_gains (f : NamespaceForest) (h : HandleId) : Gains f (f.publish h) := by
  apply gains_of_hasKv (publish_sameTrie f h)
  intro n hn
  obtain ⟨b, hb, hr⟩ := hasKv_iff.mp hn
  refine hasKv_iff.mpr ⟨b, hb, ?_⟩
  by_cases he : b = h
  · subst b
    rw [publish_handle_self]
  · rw [publish_handle_ne f he, hr]

theorem modifyNode_gains (f : NamespaceForest) (n : NodeId) (u : TrieNode → TrieNode)
    (hu : ∀ p, (u p).nodeKey = p.nodeKey ∧ (u p).action = p.action ∧ (u p).depth = p.depth ∧
      (u p).parent = p.parent ∧ (u p).children = p.children)
    (hb : ∀ p, (u p).blob = p.blob) : Gains f (f.modifyNode n u) := by
  apply gains_of_hasKv (SameTrie.modifyNode f n u hu)
  intro m hm
  rwa [hasKv_congr (f := f)]
  · by_cases he : m = n
    · subst m
      rw [modifyNode_self, hb]
    · rw [modifyNode_ne _ _ he]
  · exact fun _ _ => rfl

theorem pinSink_gains (f : NamespaceForest) (cfg : WorldKVConfig) (n : NodeId) (d : Int) :
    Gains f (f.pinSink cfg n d) := by
  unfold pinSink
  split
  · exact modifyNode_gains f n _ (fun _ => ⟨rfl, rfl, rfl, rfl, rfl⟩) fun _ => rfl
  · exact fun _ _ => id

theorem create_gains {f : NamespaceForest} (h : Shape f) (r c : Bytes) :
    Gains f (f.getOrCreateNamespace r c).1 := by
  cases hr : f.resolve r with
  | some ns =>
    rw [getOrCreate_old hr]
    exact fun _ _ => id
  | none =>
    rw [getOrCreate_new hr]
    intro r' p hp
    rwa [h.published_addWorld hr]

/-- A fresh handle takes the place of the old blob: that one path is no longer published. -/
theorem published_attachBlob {m : Machine τ} (ht : Tidy m) {r : Bytes} {p : List ActionKey}
    {n : NodeId} (hn : m.forest.nodeAt r p = some n) {b : BlobHandle} (hb : b.ready = false)
    (r' : Bytes) (q : List ActionKey) :
    (m.forest.attachBlob n b).1.published r' q =
      if r' = r ∧ q = p then false else m.forest.published r' q := by
  have hnode : ∀ x, (m.forest.attachBlob n b).1.node x =
      (m.forest.modifyNode n fun p => { p with blob := some m.forest.handles.size }).node x :=
    fun _ => rfl
  have hself : (m.forest.attachBlob n b).1.hasKv n = false := by
    have hnew : (m.forest.attachBlob n b).1.handle m.forest.handles.size = b :=
      Heap.get_alloc_self _ _
    unfold hasKv
    rw [hnode, modifyNode_self]
    simp only [hnew, hb]
  rw [published_update ht.shape (attachBlob_sameTrie m.forest n b) hn ?_ r' q, hself]
  intro x hx hne
  apply hasKv_congr
  · rw [hnode, modifyNode_ne _ _ hne]
  · intro h hh
    exact congrArg BlobHandle.ready (Heap.get_alloc_lt _ _ (ht.blob_lt hx hh))

inductive Effect (m : Machine τ) (e : MachineEvent τ) (m' : Machine τ) : Prop where
  | gain (h : Gains m.forest m'.forest)
  | attach (i : Nat) (o : Outcome) (c : IngestCall τ) (n : NodeId) (he : e = .advance i o)
      (hi : m.calls[i]? = some c) (hpc : c.pc = .attach n) (b : BlobHandle) (hb : b.ready = false)
      (hf : m'.forest = (m.forest.attachBlob n b).1)
  | evict (n : NodeId) (he : e = .evict n)

theorem Tidy.parentPath {m : Machine τ} (h : Tidy m) {i : Nat} {c : IngestCall τ}
    (hi : m.calls[i]? = some c) : ∃ r p, m.forest.nodeAt r p = some c.args.parent :=
  h.shape.exists_path h.attached (h.parent hi)

def CallsKept (m m' : Machine τ) : Prop :=
  ∀ (i : Nat) (c : IngestCall τ), m'.calls[i]? = some c → ∃ d : IngestCall τ,
    m.calls[i]? = some d ∧ c.args = d.args ∧ (pcNode c.pc = none ∨ pcNode c.pc = pcNode d.pc)

theorem CallsKept.refl {m m' : Machine τ} (h : m'.calls = m.calls) : CallsKept m m' :=
  fun _ c hi => ⟨c, h ▸ hi, rfl, Or.inr rfl⟩

theorem CallsKept.set {m m' : Machine τ} {i : Nat} {c : IngestCall τ} {pc : IngestPc τ}
    (hi : m.calls[i]? = some c) (h : m'.calls = m.calls.set i { c with pc })
    (hpc : pcNode pc = none ∨ pcNode pc = pcNode c.pc) : CallsKept m m' := by
  intro j d hj
  rw [h] at hj
  rcases set_cases hj with ⟨rfl, rfl⟩ | ⟨_, hj⟩
  · exact ⟨c, hi, rfl, hpc⟩
  · exact ⟨d, hj, rfl, Or.inr rfl⟩

/-- A step that changes what the nodes hold, and at most one call. -/
theorem Tidy.sameTrie {m m' : Machine τ} (h : Tidy m) (hs : SameTrie m.forest m'.forest)
    (hb : ∀ {n x}, n < m.forest.nodes.size → (m'.forest.node n).blob = some x →
      x < m'.forest.handles.size) (hc : CallsKept m m') : Tidy m' := by
  refine ⟨hs.shape h.shape, hs.attached h.attached, fun hn => hb (hs.size ▸ hn), ?_, ?_⟩
  · intro i c hi
    obtain ⟨d, hi, he, _⟩ := hc i c hi
    rw [hs.size, he]
    exact h.parent hi
  · intro i c n hi hn
    obtain ⟨d, hi, he, hp⟩ := hc i c hi
    rw [hs.child, he]
    rcases hp with hp | hp
    · rw [hp] at hn
      cases hn
    · exact h.target hi (hp ▸ hn)

structure StepOk (m : Machine τ) (e : MachineEvent τ) (m' : Machine τ) : Prop where
  tidy : Tidy m'
  extends_ : Extends m.forest m'.forest
  effect : Effect m e m'

theorem stepOk_store {m m' : Machine τ} {e : MachineEvent τ} (h : Tidy m)
    (hf : m'.forest = m.forest) (hc : CallsKept m m') : StepOk m e m' := by
  have hs : SameTrie m.forest m'.forest := hf ▸ SameTrie.refl m.forest
  refine ⟨h.sameTrie hs ?_ hc, Extends.sameTrie hs, .gain (hf ▸ fun _ _ => id)⟩
  rw [hf]
  exact h.blob_lt

theorem stepOk_publish {m m' : Machine τ} {e : MachineEvent τ} (h : Tidy m) {x : HandleId}
    (hf : m'.forest = m.forest.publish x) (hc : CallsKept m m') : StepOk m e m' := by
  have hs : SameTrie m.forest m'.forest := hf ▸ publish_sameTrie m.forest x
  refine ⟨h.sameTrie hs ?_ hc, Extends.sameTrie hs, .gain (hf ▸ publish_gains m.forest x)⟩
  rw [hf]
  exact h.blob_lt

theorem stepOk_modifyNode {m m' : Machine τ} {e : MachineEvent τ} (h : Tidy m)
    (hs : SameTrie m.forest m'.forest) (hh : m'.forest.handles = m.forest.handles)
    (hb : ∀ n, (m'.forest.node n).blob = (m.forest.node n).blob)
    (hg : Gains m.forest m'.forest) (hc : CallsKept m m') : StepOk m e m' := by
  refine ⟨h.sameTrie hs ?_ hc, Extends.sameTrie hs, .gain hg⟩
  intro n x hn hx
  rw [hh]
  exact h.blob_lt hn (hb n ▸ hx)

theorem modifyNode_blob (f : NamespaceForest) (n : NodeId) (u : TrieNode → TrieNode)
    (hu : ∀ p, (u p).blob = p.blob) (m : NodeId) :
    ((f.modifyNode n u).node m).blob = (f.node m).blob := by
  by_cases he : m = n
  · subst m
    rw [modifyNode_self, hu]
  · rw [modifyNode_ne _ _ he]

theorem pinSink_blob (f : NamespaceForest) (cfg : WorldKVConfig) (n m : NodeId) (d : Int) :
    ((f.pinSink cfg n d).node m).blob = (f.node m).blob := by
  unfold pinSink
  split
  · apply modifyNode_blob
    intro p
    rfl
  · rfl

theorem setSkeleton_blob (f : NamespaceForest) (n m : NodeId) (k : Bytes) :
    ((f.setSkeleton n k).node m).blob = (f.node m).blob := by
  apply modifyNode_blob
  intro p
  rfl

theorem stepOk_commit {m : Machine τ} {e : MachineEvent τ} {i : Nat} {c : IngestCall τ} (h : Tidy m)
    (hi : m.calls[i]? = some c) :
    StepOk m e ({ m with
      forest := (m.forest.commit c.args.parent c.args.action c.args.nodeKey c.args.depth).1 }.setPc
        i c (.pin (m.forest.commit c.args.parent c.args.action c.args.nodeKey c.args.depth).2)) := by
  have hn := h.parent hi
  obtain ⟨r, p, hp⟩ := h.parentPath hi
  have hx := commit_extends h.shape hp c.args.action c.args.nodeKey c.args.depth
  have hle := commit_le m.forest c.args.parent c.args.action c.args.nodeKey c.args.depth
  refine ⟨⟨h.shape.commit hn _ _, h.attached.commit h.shape hn _ _, ?_, ?_, ?_⟩, hx, .gain ?_⟩
  · intro n x hlt hb
    simp only [Machine.setPc, commit_handles] at hb ⊢
    rcases commit_node_cases hn _ _ hlt with ⟨hlt, cs, he⟩ | ⟨_, _, he⟩
    · rw [he] at hb
      exact h.blob_lt hlt hb
    · rw [he] at hb
      cases hb
  · intro j d hj
    rcases set_cases hj with ⟨rfl, rfl⟩ | ⟨_, hj⟩
    · exact Nat.lt_of_lt_of_le hn hle
    · exact Nat.lt_of_lt_of_le (h.parent hj) hle
  · intro j d n hj hd
    rcases set_cases hj with ⟨rfl, rfl⟩ | ⟨_, hj⟩
    · cases hd
      exact commit_child hn _ _
    · exact hx.child h.shape h.attached (h.parent hj) (h.target hj hd)
  · intro r' q hq
    simp only [Machine.setPc, h.shape.published_commit _ _ hp]
    exact hq

/-- The one step of an ingest that takes a published blob away. -/
theorem stepOk_attach {m : Machine τ} {o : Outcome} {i : Nat} {c : IngestCall τ} {n : NodeId}
    (h : Tidy m) (hi : m.calls[i]? = some c) (hpc : c.pc = .attach n) {b : BlobHandle}
    (hb : b.ready = false) (x : HandleId) :
    StepOk m (.advance i o) (({ m with forest := (m.forest.attachBlob n b).1 }.setStatus
      x (.caller i)).setPc i c (.putAsync n x)) := by
  have hs := attachBlob_sameTrie m.forest n b
  refine ⟨h.sameTrie hs ?_ (.set hi rfl (Or.inl rfl)), Extends.sameTrie hs,
    .attach i o c n rfl hi hpc b hb rfl⟩
  intro y z hy hz
  change ((m.forest.modifyNode n fun p => { p with blob := some m.forest.handles.size }).node y).blob
    = some z at hz
  change z < m.forest.handles.size + 1
  by_cases he : y = n
  · subst y
    rw [modifyNode_self] at hz
    cases hz
    exact Nat.lt_succ_self _
  · rw [modifyNode_ne _ _ he] at hz
    exact Nat.lt_succ_of_lt (h.blob_lt hy hz)

theorem advance_stepOk {m m' : Machine τ} {i : Nat} {a : IngestArgs (LayerValue τ) τ}
    {pc : IngestPc τ} {o : Outcome} (h : Tidy m) (hi : m.calls[i]? = some ⟨a, pc⟩)
    (hm : Machine.Advances M m i o a pc m') : StepOk m (.advance i o) m' := by
  cases hm with
  | commit => exact stepOk_commit h hi
  | pin n =>
    exact stepOk_modifyNode h (pinSink_sameTrie _ _ _ _) (pinSink_handles _ _ _ _)
      (pinSink_blob _ _ _ · _) (pinSink_gains _ _ _ _) (.set hi rfl (Or.inr rfl))
  | skeletonPut n s _ => exact stepOk_store h rfl (.set hi rfl (Or.inr rfl))
  | skeletonFails n s _ => exact stepOk_store h rfl (.set hi rfl (Or.inl rfl))
  | setSkeleton n =>
    exact stepOk_modifyNode h (setSkeleton_sameTrie _ _ _) rfl (setSkeleton_blob _ _ · _)
      (modifyNode_gains _ _ _ (fun _ => ⟨rfl, rfl, rfl, rfl, rfl⟩) fun _ => rfl)
      (.set hi rfl (Or.inr rfl))
  | attach n => exact stepOk_attach h hi rfl rfl _
  | enqueue n x _ _ => exact stepOk_store h rfl (.set hi rfl (Or.inl rfl))
  | writes n x _ => exact stepOk_store h rfl (.set hi rfl (Or.inl rfl))
  | publish n x => exact stepOk_publish h rfl (.set hi rfl (Or.inl rfl))
  | written n x key t pending s _ => exact stepOk_store h rfl (.set hi rfl (Or.inl rfl))
  | aborts n x key t pending s _ => exact stepOk_store h rfl (.set hi rfl (Or.inl rfl))

/-- A new root is an empty world. -/
theorem stepOk_create {m : Machine τ} (h : Tidy m) (r c : Bytes) :
    StepOk m (.create r c) { m with forest := (m.forest.getOrCreateNamespace r c).1 } := by
  have hx := create_extends h.shape r c
  have hg := create_gains h.shape r c
  cases hr : m.forest.resolve r with
  | some ns =>
    rw [getOrCreate_old hr] at hx hg ⊢
    exact stepOk_store h rfl (.refl rfl)
  | none =>
    rw [getOrCreate_new hr] at hx hg ⊢
    refine ⟨⟨h.shape.addWorld hr c, h.attached.addWorld h.shape c, ?_, ?_, ?_⟩, hx, .gain hg⟩
    · intro n x hn hb
      rcases Nat.lt_succ_iff_lt_or_eq.mp hn with hn | rfl
      · rw [addWorld_old m.forest r c hn] at hb
        exact h.blob_lt hn hb
      · rw [addWorld_new] at hb
        cases hb
    · exact fun hi => Nat.lt_succ_of_lt (h.parent hi)
    · exact fun hi hn => hx.child h.shape h.attached (h.parent hi) (h.target hi hn)

/-- A new call has no target yet. -/
theorem stepOk_call {m : Machine τ} (h : Tidy m) {a : IngestArgs (LayerValue τ) τ}
    (hp : a.parent < m.forest.nodes.size) :
    StepOk m (.call a) { m with calls := m.calls ++ [⟨a, .commit⟩] } := by
  refine ⟨⟨h.shape, h.attached, h.blob_lt, ?_, ?_⟩, Extends.refl _, .gain fun _ _ => id⟩
  · intro i c hi
    rcases concat_cases hi with hi | ⟨_, rfl⟩
    · exact h.parent hi
    · exact hp
  · intro i c n hi hn
    rcases concat_cases hi with hi | ⟨_, rfl⟩
    · exact h.target hi hn
    · cases hn

/-- An eviction takes a blob away on request. -/
theorem stepOk_evict {m : Machine τ} (h : Tidy m) (n : NodeId) (s : TensorTier τ) :
    StepOk m (.evict n) { m with
      forest := m.forest.modifyNode n fun p => { p with blob := none }
      store := s } := by
  have hs := SameTrie.modifyNode m.forest n (fun p => { p with blob := none })
    fun _ => ⟨rfl, rfl, rfl, rfl, rfl⟩
  refine ⟨h.sameTrie hs ?_ (.refl rfl), Extends.sameTrie hs, .evict n rfl⟩
  intro y z hy hz
  by_cases he : y = n
  · subst y
    simp only [modifyNode_self] at hz
    cases hz
  · simp only [modifyNode_ne _ _ he] at hz
    exact h.blob_lt hy hz

/-- One step, by the thread that takes it. -/
theorem step_stepOk {m m' : Machine τ} {e : MachineEvent τ} (h : Tidy m)
    (hm : m.step M e = some m') : StepOk m e m' := by
  cases Machine.step_cases hm with
  | create r c => exact stepOk_create h r c
  | call a hp _ => exact stepOk_call h hp
  | advance i o a pc _ hi ha => exact advance_stepOk h hi ha
  | get item queue _ _ => exact stepOk_store h rfl (.refl rfl)
  | put o x key t pending s _ _ => exact stepOk_store h rfl (.refl rfl)
  | putFails o x key t pending s _ _ => exact stepOk_store h rfl (.refl rfl)
  | finish x _ => exact stepOk_publish h rfl (.refl rfl)
  | evict n b _ _ _ _ => exact stepOk_evict h n _
  | spare n _ => exact stepOk_store h rfl (.refl rfl)
  | read b layer => exact stepOk_store h rfl (.refl rfl)

theorem init_tidy (s : TensorTier τ) : Tidy (Machine.init s) := by
  refine ⟨Shape.empty, Attached.empty, ?_, ?_, ?_⟩ <;> intros <;> contradiction

theorem reachable_tidy {s : TensorTier τ} {m : Machine τ}
    (hr : Reachable (Machine.step M) (Machine.init s) m) : Tidy m :=
  hr.invariant (fun _ _ _ h hm => (step_stepOk h hm).tidy) (init_tidy s)

end CacheSeek.Proofs.ReuseKept
