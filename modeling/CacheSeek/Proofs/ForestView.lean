import CacheSeek.Proofs.SnapshotRoundTrip

namespace CacheSeek.Proofs.ForestView
open CacheSeek.Lib CacheSeek.Prefix CacheSeek.Prefix.NamespaceForest CacheSeek.Proofs.KeyIdentity
open CacheSeek.Proofs.SnapshotNodes CacheSeek.Proofs.SnapshotLoad CacheSeek.Proofs.SnapshotRuns

variable {σ P L : Type} {digest : Bytes → Bytes} {f g f' g' : NamespaceForest} {r r' : Bytes}
  {p q : List ActionKey} {n m : NodeId}

/-- A node as the manager reads it: an unpublished blob is none. -/
structure NodeView where
  nodeKey : Bytes
  action : ActionKey
  depth : Int
  pinned : Bool
  skeleton : Option Skeleton
  blob : Option BlobHandle

def nodeView (f : NamespaceForest) (n : NodeId) : NodeView :=
  { nodeKey := (f.node n).nodeKey
    action := (f.node n).action
    depth := (f.node n).depth
    pinned := (f.node n).pinned
    skeleton := (f.node n).skeleton
    blob := publishedBlob f n }

def view (f : NamespaceForest) (r : Bytes) (p : List ActionKey) : Option NodeView :=
  (f.nodeAt r p).map (nodeView f)

theorem publishedBlob_congr (hb : (g.node m).blob = (f.node n).blob)
    (hh : ∀ b, (f.node n).blob = some b → g.handle b = f.handle b) :
    publishedBlob g m = publishedBlob f n := by
  unfold publishedBlob hasKv
  rw [hb]
  cases hx : (f.node n).blob with
  | none => rfl
  | some b => simp only [Option.map_some, hh b hx]

/-- Children, references and access times are not in view. -/
theorem nodeView_congr {cs : Dict ActionKey NodeId} {rc : Int} {t : Rat}
    (hn : g.node n = { f.node n with children := cs, refCount := rc, lastAccess := t })
    (hh : ∀ b, (f.node n).blob = some b → g.handle b = f.handle b) : nodeView g n = nodeView f n := by
  have hblob : publishedBlob g n = publishedBlob f n := publishedBlob_congr (by rw [hn]) hh
  simp only [nodeView, hblob]
  simp only [hn]

theorem view_some (hn : f.nodeAt r p = some n) : view f r p = some (nodeView f n) := by
  rw [view, hn, Option.map_some]

theorem view_none_iff : view f r p = none ↔ f.nodeAt r p = none := Option.map_eq_none_iff

theorem view_isSome : (view f r p).isSome = (f.nodeAt r p).isSome := Option.isSome_map

/-- What a lookup goes by is in view. -/
theorem published_view (f : NamespaceForest) (r : Bytes) (p : List ActionKey) :
    f.published r p = (view f r p).any fun v => v.blob.isSome := by
  unfold published view
  cases f.nodeAt r p with
  | none => rfl
  | some n => exact (publishedBlob_isSome f n).symm

/-- A change to what one node holds is seen on its path. -/
theorem view_update (h : Shape f) (hs : SameTrie f g) (hn : f.nodeAt r p = some n)
    (hne : ∀ k < f.nodes.size, k ≠ n → nodeView g k = nodeView f k) (r' : Bytes) (q : List ActionKey) :
    view g r' q = if r' = r ∧ q = p then some (nodeView g n) else view f r' q := by
  unfold view
  rw [hs.nodeAt r' q]
  by_cases hq : r' = r ∧ q = p
  · rw [if_pos hq, hq.1, hq.2, hn, Option.map_some]
  · rw [if_neg hq]
    cases hk : f.nodeAt r' q with
    | none => rfl
    | some k =>
      have hkn : k ≠ n := by
        rintro rfl
        exact hq (h.nodeAt_inj hk hn)
      rw [Option.map_some, Option.map_some, hne k (h.nodeAt_lt hk) hkn]

theorem view_untouched (hu : Untouched f g) (r : Bytes) (p : List ActionKey) : view g r p = view f r p := by
  unfold view
  rw [hu.sameTrie.nodeAt r p]
  apply Option.map_congr
  intro n _
  obtain ⟨t, ht⟩ := hu.node n
  exact nodeView_congr ht fun b _ => by rw [handle, hu.handles, handle]

def rootView (r : Bytes) : NodeView := ⟨r, .int (-1), -1, true, none, none⟩

/-- A world that is there is left alone. -/
theorem view_create (h : Sturdy digest f) (r c r' : Bytes) (q : List ActionKey) :
    view (f.getOrCreateNamespace r c).1 r' q =
      if r' = r ∧ q = [] ∧ view f r [] = none then some (rootView r) else view f r' q := by
  have hroot : view f r [] = none ↔ f.resolve r = none := by
    rw [view_none_iff, nodeAt_nil, Option.map_eq_none_iff]
  simp only [hroot]
  cases hr : f.resolve r with
  | some ns =>
    rw [getOrCreate_old hr, if_neg]
    rintro ⟨-, -, hnone⟩
    cases hnone
  | none =>
    rw [getOrCreate_new hr]
    simp only [and_true]
    unfold view
    rw [h.shape.nodeAt_addWorld hr]
    by_cases hq : r' = r ∧ q = []
    · rw [if_pos hq, if_pos hq, Option.map_some]
      simp only [nodeView, publishedBlob, hasKv, addWorld_new, virtualRoot, rootView, Bool.false_eq_true,
        ↓reduceIte]
    · rw [if_neg hq, if_neg hq]
      apply Option.map_congr
      intro k hk
      exact nodeView_congr (addWorld_old f r c (h.shape.nodeAt_lt hk)) fun b _ => rfl

def newView (k : Bytes) (a : ActionKey) (d : Int) : NodeView := ⟨k, a, d, false, none, none⟩

/-- A path that is there is left alone. -/
theorem view_commit (h : Sturdy digest f) (hn : f.nodeAt r p = some n) (a : ActionKey) (k : Bytes) (d : Int)
    (r' : Bytes) (q : List ActionKey) :
    view (f.commit n a k d).1 r' q =
      if r' = r ∧ q = p ++ [a] ∧ view f r (p ++ [a]) = none then some (newView k a d) else view f r' q := by
  have hlt := h.shape.nodeAt_lt hn
  have hchild : view f r (p ++ [a]) = none ↔ f.child n a = none := by
    rw [view_none_iff, nodeAt_snoc, hn, Option.bind_some]
  simp only [hchild]
  cases hc : f.child n a with
  | some c =>
    rw [commit_old hc, if_neg]
    rintro ⟨-, -, hnone⟩
    cases hnone
  | none =>
    rw [commit_new hc]
    simp only [and_true]
    unfold view
    rw [h.shape.nodeAt_addChild rfl hc hn]
    dsimp only
    by_cases hq : r' = r ∧ q = p ++ [a]
    · rw [if_pos hq, if_pos hq, Option.map_some]
      simp only [nodeView, publishedBlob, hasKv, f.addChild_new hlt, newView, Bool.false_eq_true, ↓reduceIte]
    · rw [if_neg hq, if_neg hq]
      apply Option.map_congr
      intro x hx
      obtain ⟨cs, hcs⟩ := f.addChild_old hlt { nodeKey := k, action := a, depth := d, parent := some n }
        (h.shape.nodeAt_lt hx)
      exact nodeView_congr hcs fun b _ => rfl

/-- What a path leads to, in both forests. -/
def Same (f g : NamespaceForest) : Prop := ∀ r p, view g r p = view f r p

theorem Same.refl (f : NamespaceForest) : Same f f := fun _ _ => rfl

theorem Same.trans {k : NamespaceForest} (hg : Same f g) (hk : Same g k) : Same f k :=
  fun r p => (hk r p).trans (hg r p)

theorem Same.node (h : Same f g) (hn : f.nodeAt r p = some n) :
    ∃ m, g.nodeAt r p = some m ∧ nodeView g m = nodeView f n := by
  have hv := (h r p).trans (view_some hn)
  exact Option.map_eq_some_iff.mp hv

theorem Same.missing (h : Same f g) (hn : f.nodeAt r p = none) : g.nodeAt r p = none :=
  view_none_iff.mp ((h r p).trans (view_none_iff.mpr hn))

/-- A view says what is published. -/
theorem Same.published (h : Same f g) : g.published = f.published := by
  funext r p
  rw [published_view, published_view, h r p]

theorem Same.resolve (h : Same f g) (r : Bytes) : (g.resolve r).isSome = (f.resolve r).isSome := by
  have hv := congrArg Option.isSome (h r [])
  simpa only [view_isSome, nodeAt_nil, Option.isSome_map] using hv

/-- What touches neither forest's views keeps them the same. -/
theorem Same.untouched (h : Same f g) (hf : Untouched f f') (hg : Untouched g g') : Same f' g' :=
  fun r p => by rw [view_untouched hg, view_untouched hf, h r p]

theorem Same.create (h : Same f g) (hf : Sturdy digest f) (hg : Sturdy digest g) (r c : Bytes) :
    Same (f.getOrCreateNamespace r c).1 (g.getOrCreateNamespace r c).1 :=
  fun r' q => by rw [view_create hf, view_create hg, h r' q, h r []]

/-- The same change to the same node in both. -/
theorem Same.update (h : Same f g) (hf : Shape f) (hg : Shape g) (hn : f.nodeAt r p = some n)
    (hm : g.nodeAt r p = some m) (hsf : SameTrie f f') (hsg : SameTrie g g')
    (hfne : ∀ k < f.nodes.size, k ≠ n → nodeView f' k = nodeView f k)
    (hgne : ∀ k < g.nodes.size, k ≠ m → nodeView g' k = nodeView g k)
    (he : nodeView g' m = nodeView f' n) : Same f' g' :=
  fun r' q => by rw [view_update hg hsg hm hgne, view_update hf hsf hn hfne, he, h r' q]

theorem Same.commit (h : Same f g) (hf : Sturdy digest f) (hg : Sturdy digest g) (hn : f.nodeAt r p = some n)
    (hm : g.nodeAt r p = some m) (a : ActionKey) (k : Bytes) (d : Int) :
    Same (f.commit n a k d).1 (g.commit m a k d).1 :=
  fun r' q => by rw [view_commit hf hn, view_commit hg hm, h r' q, h r (p ++ [a])]

end CacheSeek.Proofs.ForestView
