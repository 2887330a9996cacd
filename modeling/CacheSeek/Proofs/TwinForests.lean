import CacheSeek.Proofs.ForestView
import CacheSeek.Proofs.WindowPath

namespace CacheSeek.Proofs.TwinForests
open CacheSeek.Lib CacheSeek.Prefix CacheSeek.Prefix.NamespaceForest CacheSeek.Proofs.KeyIdentity
open CacheSeek.Proofs.Worlds CacheSeek.Proofs.SnapshotNodes CacheSeek.Proofs.SnapshotLoad
open CacheSeek.Proofs.SnapshotRuns CacheSeek.Proofs.WindowPath CacheSeek.Proofs.ForestView

variable {σ ω P L : Type} {digest : Bytes → Bytes} {S : KVTierStore σ P L} {W : RollingWindow ω P}
  {cfg : WorldKVConfig} {R : σ → σ → Prop} {f g : NamespaceForest} {s t : σ} {r : Bytes}
  {p : List ActionKey} {n m : NodeId}

/-- Stores tied by `R` answer alike, whatever numbers the handles have. A free cannot be seen. -/
structure Carries (S : KVTierStore σ P L) (R : σ → σ → Prop) : Prop where
  put : ∀ {s t}, R s t → ∀ node payload b c,
    (S.putAsync t (kvLocator node) payload c).1 = (S.putAsync s (kvLocator node) payload b).1 ∧
      R (S.putAsync s (kvLocator node) payload b).2 (S.putAsync t (kvLocator node) payload c).2
  putSkeleton : ∀ {s t}, R s t → ∀ node latent,
    (S.putSkeleton t (latentLocator node) latent).1 = (S.putSkeleton s (latentLocator node) latent).1 ∧
      R (S.putSkeleton s (latentLocator node) latent).2 (S.putSkeleton t (latentLocator node) latent).2
  getLayer : ∀ {s t}, R s t → ∀ b layer,
    (S.getLayer t b layer).1 = (S.getLayer s b layer).1 ∧ R (S.getLayer s b layer).2 (S.getLayer t b layer).2
  getSkeleton : ∀ {s t}, R s t → ∀ loc,
    (S.getSkeleton t loc).1 = (S.getSkeleton s loc).1 ∧ R (S.getSkeleton s loc).2 (S.getSkeleton t loc).2
  freeLeft : ∀ {s t}, R s t → ∀ b, R (S.free s b) t
  freeRight : ∀ {s t}, R s t → ∀ b, R s (S.free t b)

/-- One path in two forests with the same view. -/
structure Twins (digest : Bytes → Bytes) (f g : NamespaceForest) (r : Bytes) (p : List ActionKey) (n m : NodeId) :
    Prop where
  same : Same f g
  left : Sturdy digest f
  right : Sturdy digest g
  leftAt : f.nodeAt r p = some n
  rightAt : g.nodeAt r p = some m

namespace Twins

theorem nodeView (h : Twins digest f g r p n m) : nodeView g m = nodeView f n := by
  have hv := h.same r p
  rw [view_some h.leftAt, view_some h.rightAt] at hv
  exact Option.some.inj hv

theorem nodeKey (h : Twins digest f g r p n m) : (g.node m).nodeKey = (f.node n).nodeKey :=
  congrArg NodeView.nodeKey h.nodeView

theorem action (h : Twins digest f g r p n m) : (g.node m).action = (f.node n).action :=
  congrArg NodeView.action h.nodeView

theorem depth (h : Twins digest f g r p n m) : (g.node m).depth = (f.node n).depth :=
  congrArg NodeView.depth h.nodeView

theorem pinned (h : Twins digest f g r p n m) : (g.node m).pinned = (f.node n).pinned :=
  congrArg NodeView.pinned h.nodeView

theorem skeleton (h : Twins digest f g r p n m) : (g.node m).skeleton = (f.node n).skeleton :=
  congrArg NodeView.skeleton h.nodeView

theorem blob (h : Twins digest f g r p n m) : publishedBlob g m = publishedBlob f n :=
  congrArg NodeView.blob h.nodeView

variable {a : ActionKey}

theorem parentLeft (h : Twins digest f g r (p ++ [a]) n m) : (f.node n).parent ≠ none := by
  obtain ⟨k, _, _, hp, _⟩ := h.left.shape.nodeAt_snoc_iff.mp h.leftAt
  rw [hp]
  exact Option.some_ne_none k

theorem parentRight (h : Twins digest f g r (p ++ [a]) n m) : (g.node m).parent ≠ none := by
  obtain ⟨k, _, _, hp, _⟩ := h.right.shape.nodeAt_snoc_iff.mp h.rightAt
  rw [hp]
  exact Option.some_ne_none k

/-- A chunk committed under twins gives twins one action further. -/
theorem commit (h : Twins digest f g r p n m) {k : Bytes} {d : Int}
    (hR : ChainEdge digest (f.node n).nodeKey (f.node n).depth a k d) :
    Twins digest (f.commit n a k d).1 (g.commit m a k d).1 r (p ++ [a]) (f.commit n a k d).2 (g.commit m a k d).2 := by
  have hR' : ChainEdge digest (g.node m).nodeKey (g.node m).depth a k d := by rwa [h.nodeKey, h.depth]
  refine ⟨h.same.commit h.left h.right h.leftAt h.rightAt a k d, ?_, ?_, ?_, ?_⟩
  · exact (commit_sturdy h.left (h.left.shape.nodeAt_lt h.leftAt) hR).1
  · exact (commit_sturdy h.right (h.right.shape.nodeAt_lt h.rightAt) hR').1
  · rw [h.left.shape.nodeAt_commit k d h.leftAt, if_pos ⟨rfl, rfl⟩]
  · rw [h.right.shape.nodeAt_commit k d h.rightAt, if_pos ⟨rfl, rfl⟩]

/-- One change made to both nodes. -/
theorem modifyNode (h : Twins digest f g r p n m) (u : TrieNode → TrieNode)
    (hu : ∀ x, (u x).nodeKey = x.nodeKey ∧ (u x).action = x.action ∧ (u x).depth = x.depth ∧
      (u x).parent = x.parent ∧ (u x).children = x.children)
    (hb : ∀ x, (u x).blob = x.blob)
    (hv : ∀ x y, x.pinned = y.pinned → x.skeleton = y.skeleton →
      (u x).pinned = (u y).pinned ∧ (u x).skeleton = (u y).skeleton) :
    Same (f.modifyNode n u) (g.modifyNode m u) := by
  have hne : ∀ (e : NamespaceForest) (i k : NodeId), k ≠ i →
      ForestView.nodeView (e.modifyNode i u) k = ForestView.nodeView e k := fun e i k hk =>
    nodeView_congr (modifyNode_ne e u hk) fun _ _ => rfl
  have hself : ∀ (e : NamespaceForest) (i : NodeId), publishedBlob (e.modifyNode i u) i = publishedBlob e i :=
    fun e i => publishedBlob_congr (by rw [modifyNode_self, hb]) fun _ _ => rfl
  apply h.same.update h.left.shape h.right.shape h.leftAt h.rightAt (SameTrie.modifyNode f n u hu)
    (SameTrie.modifyNode g m u hu)
  · exact fun k _ hk => hne f n k hk
  · exact fun k _ hk => hne g m k hk
  · obtain ⟨h1, h2, h3, -⟩ := hu (g.node m)
    obtain ⟨e1, e2, e3, -⟩ := hu (f.node n)
    obtain ⟨hpin, hsk⟩ := hv _ _ h.pinned h.skeleton
    simp only [ForestView.nodeView, hself, modifyNode_self, h1, h2, h3, e1, e2, e3, hpin, hsk, h.blob, h.nodeKey,
      h.depth, h.action]

theorem pinSink (h : Twins digest f g r p n m) (cfg : WorldKVConfig) (d : Int) :
    Twins digest (f.pinSink cfg n d) (g.pinSink cfg m d) r p n m := by
  refine ⟨?_, pinSink_sturdy h.left n d, pinSink_sturdy h.right m d, ?_, ?_⟩
  · unfold NamespaceForest.pinSink
    split
    · exact h.modifyNode (fun x => { x with pinned := true }) (fun _ => ⟨rfl, rfl, rfl, rfl, rfl⟩) (fun _ => rfl)
        fun _ _ _ hs => ⟨rfl, hs⟩
    · exact h.same
  · rw [(pinSink_sameTrie f cfg n d).nodeAt, h.leftAt]
  · rw [(pinSink_sameTrie g cfg m d).nodeAt, h.rightAt]

theorem setSkeleton (h : Twins digest f g r (p ++ [a]) n m) (k : Bytes) :
    Twins digest (f.setSkeleton n k) (g.setSkeleton m k) r (p ++ [a]) n m := by
  refine ⟨?_, setSkeleton_sturdy h.left h.parentLeft k, setSkeleton_sturdy h.right h.parentRight k, ?_, ?_⟩
  · exact h.modifyNode (fun x => { x with skeleton := some ⟨latentLocator k⟩ }) (fun _ => ⟨rfl, rfl, rfl, rfl, rfl⟩)
      (fun _ => rfl) fun _ _ hp _ => ⟨hp, rfl⟩
  · rw [(setSkeleton_sameTrie f n k).nodeAt, h.leftAt]
  · rw [(setSkeleton_sameTrie g m k).nodeAt, h.rightAt]

end Twins

section
variable (b : BlobHandle)

theorem attached_self (f : NamespaceForest) (n : NodeId) :
    (f.attachBlob n b).1.node n = { f.node n with blob := some f.handles.size } :=
  modifyNode_self f n fun x => { x with blob := some f.handles.size }

theorem attached_ne (f : NamespaceForest) {n k : NodeId} (hk : k ≠ n) : (f.attachBlob n b).1.node k = f.node k :=
  modifyNode_ne f (fun x => { x with blob := some f.handles.size }) hk

theorem attached_new (f : NamespaceForest) (n : NodeId) : (f.attachBlob n b).1.handle f.handles.size = b :=
  Heap.get_alloc_self _ _

theorem attached_old (f : NamespaceForest) (n : NodeId) {x : HandleId} (hx : x < f.handles.size) :
    (f.attachBlob n b).1.handle x = f.handle x :=
  Heap.get_alloc_lt _ _ hx

/-- A fresh handle hides the blob before it until it is published. -/
theorem attached_view (hb : b.ready = false) (f : NamespaceForest) (n : NodeId) :
    nodeView (f.attachBlob n b).1 n = { nodeView f n with blob := none } := by
  have hkv : (f.attachBlob n b).1.hasKv n = false := by
    simp only [hasKv, attached_self, attached_new, hb]
  simp only [nodeView, publishedBlob, hkv, attached_self, Bool.false_eq_true, ↓reduceIte]

theorem attached_view_ne (h : Sturdy digest f) {k : NodeId} (hlt : k < f.nodes.size) (hk : k ≠ n) :
    nodeView (f.attachBlob n b).1 k = nodeView f k :=
  nodeView_congr (attached_ne b f hk) fun _ hx => attached_old b f n (h.blob_lt hlt hx)

theorem published_view_self (f : NamespaceForest) (n : NodeId) :
    nodeView ((f.attachBlob n b).1.publish f.handles.size) n =
      { nodeView f n with blob := some { b with ready := true } } := by
  have hnode : ((f.attachBlob n b).1.publish f.handles.size).node n =
      { f.node n with blob := some f.handles.size } := attached_self b f n
  have hhandle : ((f.attachBlob n b).1.publish f.handles.size).handle f.handles.size = { b with ready := true } := by
    rw [publish_handle_self, attached_new]
  simp only [nodeView, publishedBlob, hasKv, hnode, hhandle, Option.map_some, ↓reduceIte]

theorem published_view_ne (h : Sturdy digest f) {k : NodeId} (hlt : k < f.nodes.size) (hk : k ≠ n) :
    nodeView ((f.attachBlob n b).1.publish f.handles.size) k = nodeView f k := by
  have hnode : ((f.attachBlob n b).1.publish f.handles.size).node k = f.node k := attached_ne b f hk
  apply nodeView_congr hnode
  intro x hx
  have hlt := h.blob_lt hlt hx
  rw [publish_handle_ne _ (Nat.ne_of_lt hlt), attached_old b f n hlt]

variable {b}

/-- Each side gives the handle a number of its own, which no view shows. -/
theorem Twins.attach (h : Twins digest f g r p n m) (hb : b.ready = false) :
    Same (f.attachBlob n b).1 (g.attachBlob m b).1 := by
  apply h.same.update h.left.shape h.right.shape h.leftAt h.rightAt (attachBlob_sameTrie f n b)
    (attachBlob_sameTrie g m b)
  · exact fun k hk hne => attached_view_ne b h.left hk hne
  · exact fun k hk hne => attached_view_ne b h.right hk hne
  · rw [attached_view b hb, attached_view b hb, h.nodeView]

/-- Each side publishes its own handle. -/
theorem Twins.publish (h : Twins digest f g r p n m) :
    Same ((f.attachBlob n b).1.publish f.handles.size) ((g.attachBlob m b).1.publish g.handles.size) := by
  apply h.same.update h.left.shape h.right.shape h.leftAt h.rightAt
    ((attachBlob_sameTrie f n b).trans (publish_sameTrie _ _))
    ((attachBlob_sameTrie g m b).trans (publish_sameTrie _ _))
  · exact fun k hk hne => published_view_ne b h.left hk hne
  · exact fun k hk hne => published_view_ne b h.right hk hne
  · rw [published_view_self, published_view_self, h.nodeView]

end

/-- One chunk ingested on both sides: the same outcome, and the same view after it, however far it got. -/
theorem ingest_twin (cfg : WorldKVConfig) (hS : Carries S R) (hR : R s t) {a : IngestArgs P L}
    (h : Twins digest f g r p a.parent m)
    (ha : ChainEdge digest (f.node a.parent).nodeKey (f.node a.parent).depth a.action a.nodeKey a.depth) :
    ((ingest S cfg g t { a with parent := m }).1.map fun _ => ()) = ((ingest S cfg f s a).1.map fun _ => ()) ∧
      Same (ingest S cfg f s a).2.1 (ingest S cfg g t { a with parent := m }).2.1 ∧
      R (ingest S cfg f s a).2.2 (ingest S cfg g t { a with parent := m }).2.2 := by
  have hc := h.commit ha
  simp only [ingest]
  generalize f.commit a.parent a.action a.nodeKey a.depth = x at hc ⊢
  generalize g.commit m a.action a.nodeKey a.depth = y at hc ⊢
  have hpin := hc.pinSink cfg a.depth
  obtain ⟨hans, hR1⟩ := hS.putSkeleton hR a.nodeKey a.latent
  generalize S.putSkeleton s (latentLocator a.nodeKey) a.latent = xs at hans hR1 ⊢
  generalize S.putSkeleton t (latentLocator a.nodeKey) a.latent = ys at hans hR1 ⊢
  obtain ⟨res, s1⟩ := xs
  obtain ⟨res', t1⟩ := ys
  simp only at hans hR1
  subst hans
  cases res' with
  | error e => exact ⟨rfl, hpin.same, hR1⟩
  | ok =>
    have hsk := hpin.setSkeleton a.nodeKey
    have hsize : ∀ (e : NamespaceForest) (i : NodeId) (k : Bytes) (z : BlobHandle),
        ((e.setSkeleton i k).attachBlob i z).2 = (e.setSkeleton i k).handles.size := fun _ _ _ _ => rfl
    obtain ⟨hput, hR2⟩ :=
      hS.put hR1 a.nodeKey a.kvPayload ((x.1.pinSink cfg x.2 a.depth).setSkeleton x.2 a.nodeKey).handles.size
      ((y.1.pinSink cfg y.2 a.depth).setSkeleton y.2 a.nodeKey).handles.size
    have hnew : IngestArgs.newHandle { a with parent := m } cfg = a.newHandle cfg := rfl
    have hready : (a.newHandle cfg).ready = false := rfl
    simp only [hsize, hnew]
    generalize S.putAsync s1 (kvLocator a.nodeKey) a.kvPayload _ = xp at hput hR2 ⊢
    generalize S.putAsync t1 (kvLocator a.nodeKey) a.kvPayload _ = yp at hput hR2 ⊢
    obtain ⟨out, s2⟩ := xp
    obtain ⟨out', t2⟩ := yp
    simp only at hput hR2
    subst hput
    cases out' with
    | published => exact ⟨rfl, hsk.publish, hR2⟩
    | pending => exact ⟨rfl, hsk.attach hready, hR2⟩
    | raised => exact ⟨rfl, hsk.attach hready, hR2⟩

/-- What `materialize` reads of a node. -/
def readOf (f : NamespaceForest) (n : NodeId) : BlobHandle × Int :=
  (f.handle ((f.node n).blob.getD 0), (f.node n).depth)

theorem readOf_addRef (d : Int) (path : List NodeId) (f : NamespaceForest) (n : NodeId) :
    readOf (path.foldl (addRef d) f) n = readOf f n := by
  have hh := foldl_modify_handles (u := addRef d) (fun _ _ => rfl) path f
  simp only [readOf, foldl_addRef_node, handle, hh]

/-- For a published chunk the handle alone decides what a read asks of the store. -/
theorem readOf_published (h : f.hasKv n = true) :
    publishedBlob f n = some (f.handle ((f.node n).blob.getD 0)) := by
  obtain ⟨b, hb, -⟩ := hasKv_iff.mp h
  rw [publishedBlob, if_pos h, hb, Option.map_some, Option.getD_some]

theorem Twins.hasKv (h : Twins digest f g r p n m) : g.hasKv m = f.hasKv n := by
  rw [← publishedBlob_isSome, ← publishedBlob_isSome, h.blob]

theorem Twins.readOf (h : Twins digest f g r p n m) (hk : f.hasKv n = true) : readOf g m = readOf f n := by
  have hb := h.blob
  rw [readOf_published hk, readOf_published (h.hasKv.trans hk), Option.some.injEq] at hb
  simp only [TwinForests.readOf, hb, h.depth]

section
variable {js : List Nat} {φ ψ : Nat → NodeId}

/-- The same chunks are read under other node numbers. -/
theorem readLayer_twin (hS : Carries S R) (hR : R s t) (hread : ∀ j ∈ js, readOf g (ψ j) = readOf f (φ j))
    (layer : Nat) :
    (readLayer S g layer t (js.map ψ)).1 = (readLayer S f layer s (js.map φ)).1 ∧
      R (readLayer S f layer s (js.map φ)).2 (readLayer S g layer t (js.map ψ)).2 := by
  induction js generalizing s t with
  | nil => exact ⟨rfl, hR⟩
  | cons j js ih =>
    obtain ⟨hb, hd⟩ := Prod.mk.inj (hread j List.mem_cons_self)
    obtain ⟨hans, hR1⟩ := hS.getLayer hR (f.handle ((f.node (φ j)).blob.getD 0)) layer
    simp only [List.map_cons, readLayer, hb, hd]
    generalize S.getLayer s _ layer = x at hans hR1 ⊢
    generalize S.getLayer t _ layer = y at hans hR1 ⊢
    obtain ⟨res, s1⟩ := x
    obtain ⟨res', t1⟩ := y
    simp only at hans hR1
    subst hans
    cases res' with
    | error e => exact ⟨rfl, hR1⟩
    | ok payload =>
      dsimp only
      obtain ⟨hrest, hR2⟩ := ih hR1 fun k hk => hread k (List.mem_cons_of_mem j hk)
      generalize readLayer S f layer s1 (js.map φ) = x at hrest hR2 ⊢
      generalize readLayer S g layer t1 (js.map ψ) = y at hrest hR2 ⊢
      obtain ⟨res, s2⟩ := x
      obtain ⟨res', t2⟩ := y
      simp only at hrest hR2
      subst hrest
      cases res' with
      | error e => exact ⟨rfl, hR2⟩
      | ok rest => exact ⟨rfl, hR2⟩

/-- Both windows are seeded with the same blobs, layer by layer. -/
theorem seedLayers_twin (hS : Carries S R) (hR : R s t) (hread : ∀ j ∈ js, readOf g (ψ j) = readOf f (φ j))
    (depth : Int) (layers : List Nat) (w : ω) :
    (seedLayers S W g (js.map ψ) depth layers t w).1 = (seedLayers S W f (js.map φ) depth layers s w).1 ∧
      R (seedLayers S W f (js.map φ) depth layers s w).2.1 (seedLayers S W g (js.map ψ) depth layers t w).2.1 ∧
      (seedLayers S W g (js.map ψ) depth layers t w).2.2 = (seedLayers S W f (js.map φ) depth layers s w).2.2 := by
  induction layers generalizing s t w with
  | nil => exact ⟨rfl, hR, rfl⟩
  | cons layer layers ih =>
    obtain ⟨hans, hR1⟩ := readLayer_twin hS hR hread layer
    simp only [seedLayers]
    generalize readLayer S f layer s (js.map φ) = x at hans hR1 ⊢
    generalize readLayer S g layer t (js.map ψ) = y at hans hR1 ⊢
    obtain ⟨res, s1⟩ := x
    obtain ⟨res', t1⟩ := y
    simp only at hans hR1
    subst hans
    cases res' with
    | error e => exact ⟨rfl, hR1, rfl⟩
    | ok blobs =>
      dsimp only
      generalize W.seedLayer w layer blobs depth = z
      obtain ⟨seeded, w1⟩ := z
      cases seeded with
      | error e => exact ⟨rfl, hR1, rfl⟩
      | ok => exact ih hR1 w1

theorem pathLayers_twin (hread : ∀ j ∈ js, readOf g (ψ j) = readOf f (φ j)) :
    pathLayers g (js.map ψ) = pathLayers f (js.map φ) := by
  simp only [pathLayers, List.getLast?_map]
  cases hlast : js.getLast? with
  | none => rfl
  | some j =>
    have hb := (Prod.mk.inj (hread j (List.mem_of_getLast? hlast))).1
    simp only [Option.map_some, hb]

end

theorem Twins.take (h : Twins digest f g r p n m) (j : Nat) :
    Twins digest f g r (p.take (j + 1)) (chunkNode f r p j) (chunkNode g r p j) :=
  ⟨h.same, h.left, h.right, nodeAt_chunkNode h.leftAt j, nodeAt_chunkNode h.rightAt j⟩

/-- The same chunks go into the window, in the same order, or the same error comes back. -/
theorem materialize_twin (cfg : WorldKVConfig) (hS : Carries S R) (hR : R s t) (h : Twins digest f g r p n m)
    (now : Rat) (w : ω) :
    (materialize S W cfg now g t m w).1 = (materialize S W cfg now f s n w).1 ∧
      R (materialize S W cfg now f s n w).2.2.1 (materialize S W cfg now g t m w).2.2.1 ∧
      (materialize S W cfg now g t m w).2.2.2 = (materialize S W cfg now f s n w).2.2.2 := by
  simp only [materialize, windowPath_eq h.left.shape h.left.edges h.leftAt,
    windowPath_eq h.right.shape h.right.edges h.rightAt]
  generalize gathered cfg p.length = js
  have hany : (js.map (chunkNode g r p)).any (fun k => !g.hasKv k) =
      (js.map (chunkNode f r p)).any fun k => !f.hasKv k := by
    rw [List.any_map, List.any_map]
    congr 1
    funext j
    exact congrArg (fun b => !b) (h.take j).hasKv
  rw [hany, List.isEmpty_map, List.isEmpty_map]
  split
  · exact ⟨rfl, hR, rfl⟩
  · rename_i hgo
    have hkv : ∀ j ∈ js, f.hasKv (chunkNode f r p j) = true := by
      intro j hj
      by_contra hk
      apply hgo
      simp only [Bool.or_eq_true, List.any_eq_true, List.mem_map]
      exact Or.inr ⟨_, ⟨j, hj, rfl⟩, by simpa using hk⟩
    have hread : ∀ j ∈ js, readOf ((js.map (chunkNode g r p)).foldl (addRef 1) g) (chunkNode g r p j) =
        readOf ((js.map (chunkNode f r p)).foldl (addRef 1) f) (chunkNode f r p j) := by
      intro j hj
      rw [readOf_addRef, readOf_addRef, (h.take j).readOf (hkv j hj)]
    have hdepth : ∀ (d : Int) (path : List NodeId) (e : NamespaceForest) (k : NodeId),
        ((path.foldl (addRef d) e).node k).depth = (e.node k).depth := fun d path e k => by rw [foldl_addRef_node]
    simp only [hdepth, h.depth, pathLayers_twin hread]
    obtain ⟨hans, hR1, hw⟩ := seedLayers_twin (W := W) hS hR hread (f.node n).depth
      (List.range (pathLayers ((js.map (chunkNode f r p)).foldl (addRef 1) f) (js.map (chunkNode f r p)))) w
    generalize seedLayers S W ((js.map (chunkNode f r p)).foldl (addRef 1) f) _ _ _ s w = x at hans hR1 hw ⊢
    generalize seedLayers S W ((js.map (chunkNode g r p)).foldl (addRef 1) g) _ _ _ t w = y at hans hR1 hw ⊢
    obtain ⟨res, s1, w1⟩ := x
    obtain ⟨res', t1, w1'⟩ := y
    simp only at hans hR1 hw
    subst hans hw
    cases res' with
    | error e => exact ⟨rfl, hR1, rfl⟩
    | ok => exact ⟨rfl, hR1, rfl⟩

/-- A resume leaves the forest as it was, access times apart. -/
theorem tryFastForward_untouched (S : KVTierStore σ P L) (W : RollingWindow ω P) (cfg : WorldKVConfig) (now : Rat)
    (f : NamespaceForest) (s : σ) (r : Bytes) (actions : List ActionKey) (w : ω) :
    Untouched f (tryFastForward S W cfg now f s r actions w).2.1 := by
  simp only [tryFastForward]
  generalize f.lookup r actions = m
  split
  · exact Untouched.refl f
  · exact Untouched.refl f
  · split
    · exact Untouched.refl f
    · rename_i n _ _ _
      have hu := materialize_untouched S W cfg now f s n w
      generalize materialize S W cfg now f s n w = x at hu ⊢
      obtain ⟨res, f1, s1, w1⟩ := x
      cases res with
      | error e => exact hu
      | ok resumed => cases resumed <;> exact hu

/-- Both sides match and resume alike. -/
theorem tryFastForward_twin (cfg : WorldKVConfig) (hS : Carries S R) (hR : R s t) (h : Same f g) (hf : Sturdy digest f)
    (hg : Sturdy digest g) (now : Rat) (actions : List ActionKey) (w : ω) :
    ((tryFastForward S W cfg now g t r actions w).1.map FastForwardResult.startChunk) =
        ((tryFastForward S W cfg now f s r actions w).1.map FastForwardResult.startChunk) ∧
      R (tryFastForward S W cfg now f s r actions w).2.2.1 (tryFastForward S W cfg now g t r actions w).2.2.1 ∧
      (tryFastForward S W cfg now g t r actions w).2.2.2 = (tryFastForward S W cfg now f s r actions w).2.2.2 := by
  simp only [tryFastForward]
  cases hr : f.resolve r with
  | none =>
    have hr' : g.resolve r = none := by
      have := h.resolve r
      rw [hr] at this
      exact Option.isSome_eq_false_iff.mp this |> Option.isNone_iff_eq_none.mp
    rw [Shape.lookup_none f hr, Shape.lookup_none g hr']
    exact ⟨rfl, hR, rfl⟩
  | some ns =>
    obtain ⟨ns', hr'⟩ : ∃ ns', g.resolve r = some ns' := by
      apply Option.isSome_iff_exists.mp
      rw [h.resolve r, hr]
      rfl
    rw [hf.shape.lookup_eq hr, hg.shape.lookup_eq hr', h.published]
    dsimp only
    cases hn : f.nodeAt r (actions.take (longest (f.published r) actions)) with
    | none =>
      rw [h.missing hn]
      exact ⟨rfl, hR, rfl⟩
    | some n =>
      obtain ⟨m, hm, -⟩ := h.node hn
      rw [hm]
      dsimp only
      split
      · exact ⟨rfl, hR, rfl⟩
      · obtain ⟨hans, hR1, hw⟩ := materialize_twin (W := W) cfg hS hR ⟨h, hf, hg, hn, hm⟩ now w
        generalize materialize S W cfg now f s n w = x at hans hR1 hw ⊢
        generalize materialize S W cfg now g t m w = y at hans hR1 hw ⊢
        obtain ⟨res, f1, s1, w1⟩ := x
        obtain ⟨res', g1, t1, w1'⟩ := y
        simp only at hans hR1 hw
        subst hans hw
        cases res' with
        | error e => exact ⟨rfl, hR1, rfl⟩
        | ok resumed => cases resumed <;> exact ⟨rfl, hR1, rfl⟩

/-- The node numbers of the two answers may differ. -/
theorem lookup_twin (h : Same f g) (hf : Sturdy digest f) (hg : Sturdy digest g) (r : Bytes)
    (actions : List ActionKey) :
    (g.lookup r actions).ns.isSome = (f.lookup r actions).ns.isSome ∧
      (g.lookup r actions).matchedLen = (f.lookup r actions).matchedLen := by
  have hns : ∀ {e : NamespaceForest}, Shape e → (e.lookup r actions).ns = e.resolve r := by
    intro e he
    cases hr : e.resolve r with
    | none => rw [Shape.lookup_none e hr]
    | some ns => rw [he.lookup_eq hr]
  rw [hns hf.shape, hns hg.shape, hf.shape.matchedLen_eq, hg.shape.matchedLen_eq, h.published]
  exact ⟨h.resolve r, rfl⟩

def Idle (f : NamespaceForest) : Prop := ∀ n, (f.node n).refCount = 0

/-- An eviction takes the published blob of an unpinned node away. -/
theorem evict_view (hf : Sturdy digest f) (hidle : Idle f) (hn : f.nodeAt r p = some n) (s : σ) (r' : Bytes)
    (q : List ActionKey) :
    view (evictBlob S f s n).2.1 r' q =
      if r' = r ∧ q = p then (view f r p).map fun v => if v.pinned then v else { v with blob := none }
      else view f r' q := by
  have hself : r' = r ∧ q = p → view f r' q = some (nodeView f n) := by
    rintro ⟨rfl, rfl⟩
    exact view_some hn
  rw [view_some hn, Option.map_some]
  rcases evictBlob_cases S f s n with ⟨b, -, hpin, -, he⟩ | ⟨hstay, he⟩
  · have hsame := SameTrie.modifyNode f n (fun x => { x with blob := none }) fun _ => ⟨rfl, rfl, rfl, rfl, rfl⟩
    have hother := fun k (_ : k < f.nodes.size) (hk : k ≠ n) =>
      nodeView_congr (modifyNode_ne f (fun x => { x with blob := none }) hk) fun _ _ => rfl
    rw [he]
    dsimp only
    rw [view_update hf.shape hsame hn hother]
    have hpinned : ¬ (nodeView f n).pinned = true := Bool.eq_false_iff.mp hpin
    have hnew : nodeView (f.modifyNode n fun x => { x with blob := none }) n = { nodeView f n with blob := none } := by
      simp only [nodeView, publishedBlob, hasKv, modifyNode_self, Bool.false_eq_true, ↓reduceIte]
    rw [hnew, if_neg hpinned]
  · rw [he]
    split
    · rename_i hq
      rw [hself hq]
      rcases hstay with hb | hpin | hrc
      · have hnone : publishedBlob f n = none := by simp only [publishedBlob, hasKv, hb, Bool.false_eq_true, ↓reduceIte]
        split
        · rfl
        · simp only [nodeView, hnone]
      · rw [if_pos (show (nodeView f n).pinned = true from hpin)]
      · rw [hidle n] at hrc
        exact absurd hrc (Int.lt_irrefl 0)
    · rfl

/-- Whether or not it evicts, a call leaves related stores related. -/
theorem evict_free (hS : Carries S R) (hR : R s t) (f g : NamespaceForest) (n m : NodeId) :
    R (evictBlob S f s n).2.2 (evictBlob S g t m).2.2 := by
  rcases evictBlob_cases S f s n with ⟨b, -, -, -, he⟩ | ⟨-, he⟩ <;>
    rcases evictBlob_cases S g t m with ⟨c, -, -, -, he'⟩ | ⟨-, he'⟩ <;> rw [he, he']
  · exact hS.freeRight (hS.freeLeft hR _) _
  · exact hS.freeLeft hR _
  · exact hS.freeRight hR _
  · exact hR

theorem Idle.frame (h : Idle f) (hg : ∀ n, (g.node n).refCount = (f.node n).refCount) : Idle g :=
  fun n => (hg n).trans (h n)

theorem Idle.modifyNode (h : Idle f) (n : NodeId) (u : TrieNode → TrieNode)
    (hu : ∀ x, (u x).refCount = x.refCount) : Idle (f.modifyNode n u) :=
  h.frame fun k => Heap.get_modify_frame f.nodes n u TrieNode.refCount (hu _) k

theorem Idle.alloc (h : Idle f) {x : TrieNode} (hx : x.refCount = 0) (hg : g.nodes = f.nodes.alloc x) : Idle g := by
  intro n
  rw [node, hg]
  by_cases hn : n = f.nodes.size
  · rw [hn, Heap.get_alloc_self, hx]
  · rw [Heap.get_alloc_ne _ _ hn]
    exact h n

theorem Idle.addChild (h : Idle f) (n : NodeId) {x : TrieNode} (hx : x.refCount = 0) : Idle (f.addChild n x).1 := by
  have hadd : Idle { f with nodes := f.nodes.alloc x } := h.alloc hx rfl
  exact hadd.modifyNode n (fun y => { y with children := y.children.set x.action f.nodes.size }) fun _ => rfl

theorem Idle.create (h : Idle f) (r c : Bytes) : Idle (f.getOrCreateNamespace r c).1 := by
  cases hr : f.resolve r with
  | some ns =>
    rw [getOrCreate_old hr]
    exact h
  | none =>
    rw [getOrCreate_new hr]
    exact h.alloc (x := virtualRoot r) rfl rfl

theorem Idle.commit (h : Idle f) (n : NodeId) (a : ActionKey) (k : Bytes) (d : Int) : Idle (f.commit n a k d).1 := by
  cases hc : f.child n a with
  | some c =>
    rw [commit_old hc]
    exact h
  | none =>
    rw [commit_new hc]
    exact h.addChild n rfl

theorem Idle.untouched (h : Idle f) (hu : Untouched f g) : Idle g :=
  h.frame fun n => by
    obtain ⟨t, ht⟩ := hu.node n
    rw [ht]

theorem Idle.pinSink (h : Idle f) (n : NodeId) (d : Int) : Idle (f.pinSink cfg n d) := by
  unfold NamespaceForest.pinSink
  split
  · exact h.modifyNode n (fun x => { x with pinned := true }) fun _ => rfl
  · exact h

/-- Ingestion takes no reference. -/
theorem Idle.ingest (h : Idle f) (s : σ) (a : IngestArgs P L) : Idle (ingest S cfg f s a).2.1 := by
  have hpin : Idle ((f.commit a.parent a.action a.nodeKey a.depth).1.pinSink cfg
      (f.commit a.parent a.action a.nodeKey a.depth).2 a.depth) := (h.commit _ _ _ _).pinSink _ _
  simp only [Prefix.ingest]
  generalize (f.commit a.parent a.action a.nodeKey a.depth) = x at hpin ⊢
  have hfill : Idle (((x.1.pinSink cfg x.2 a.depth).setSkeleton x.2 a.nodeKey).attachBlob x.2 (a.newHandle cfg)).1 := by
    have hsk : Idle ((x.1.pinSink cfg x.2 a.depth).setSkeleton x.2 a.nodeKey) :=
      hpin.modifyNode x.2 (fun y => { y with skeleton := some ⟨latentLocator a.nodeKey⟩ }) fun _ => rfl
    exact hsk.modifyNode x.2 (fun y => { y with blob := some _ }) fun _ => rfl
  split
  · exact hpin
  · split
    · exact hfill
    · exact hfill
    · exact hfill

theorem Idle.evict (h : Idle f) (s : σ) (n : NodeId) : Idle (evictBlob S f s n).2.1 := by
  rcases evictBlob_cases S f s n with ⟨b, -, -, -, he⟩ | ⟨-, he⟩
  · rw [he]
    exact h.modifyNode n (fun x => { x with blob := none }) fun _ => rfl
  · rw [he]
    exact h

theorem Idle.steps {l : Loading} (h : Idle l.forest) (root : NodeId) (nodes : List NodeData) :
    Idle (Loading.steps root l nodes).2.forest := by
  have hadd : ∀ {l : Loading}, Idle l.forest → ∀ parent key nd blob, Idle (l.add parent key nd blob).forest := by
    intro l hl parent key nd blob
    cases blob with
    | none => exact hl.addChild parent (x := nd.node parent key none) rfl
    | some b =>
      have hstore : Idle { l.forest with handles := l.forest.handles.alloc b } := hl
      exact hstore.addChild parent (x := nd.node parent key (some _)) rfl
  have hstep : ∀ {l : Loading}, Idle l.forest → ∀ nd, Idle (l.step root nd).2.forest := by
    intro l hl nd
    unfold Loading.step
    split
    · exact hl
    · split
      · exact hl
      · split
        · exact hadd hl _ _ _ _
        · split
          · exact hl
          · exact hadd hl _ _ _ _
  induction nodes generalizing l with
  | nil => exact h
  | cons nd nodes ih =>
    have hnd := hstep h nd
    simp only [Loading.steps]
    generalize l.step root nd = x at hnd ⊢
    obtain ⟨res, l'⟩ := x
    cases res with
    | error e => exact hnd
    | ok => exact ih hnd

/-- A loaded chunk starts without references. -/
theorem Idle.load (h : Idle f) (data : SnapshotData) : Idle (f.loadSnapshot data).2 := by
  have hns : ∀ {e : NamespaceForest}, Idle e → ∀ k d, Idle (e.loadNamespace k d).2.1 := by
    intro e he k d
    unfold loadNamespace
    split
    · exact he
    · exact he
    · rename_i r c _ _
      have hset : Idle ((e.getOrCreateNamespace r c).1.setPinned (e.getOrCreateNamespace r c).2
          (d.pinned.getD (e.getOrCreateNamespace r c).2.pinned)) := he.create r c
      exact Idle.steps (l := ⟨_, _, k⟩) hset _ _
  have hall : ∀ (ds : List NamespaceData) (e : NamespaceForest) (k : Nat), Idle e → Idle (e.loadNamespaces k ds).2 := by
    intro ds
    induction ds with
    | nil => exact fun _ _ he => he
    | cons d ds ih =>
      intro e k he
      have hd := hns he k d
      simp only [loadNamespaces]
      generalize e.loadNamespace k d = x at hd ⊢
      obtain ⟨res, e', k'⟩ := x
      cases res with
      | error err => exact hd
      | ok => exact ih e' k' hd
  exact hall data.namespaces f 0 h

end CacheSeek.Proofs.TwinForests
