import CacheSeek.Proofs.SnapshotLoad
import Mathlib.Algebra.GroupWithZero.Nat

namespace CacheSeek.Proofs.SnapshotMerged
open CacheSeek.Lib CacheSeek.Prefix CacheSeek.Prefix.NamespaceForest CacheSeek.Proofs.KeyIdentity
open CacheSeek.Proofs.Worlds CacheSeek.Proofs.SnapshotNodes CacheSeek.Proofs.SnapshotLoad

variable {digest : Bytes → Bytes} {f t g : NamespaceForest} {r : Bytes} {ns nt : Namespace}

/-- Entries in the order of their depths all find their parents. -/
theorem loaded_steps (hd : Hash digest) (hf : Sturdy digest f) (hr : f.resolve r = some ns)
    (ht : t.resolve r = some nt) {count : Nat} (todo : List NodeId) {done : List NodeId} {l : Loading}
    (h : Loaded digest f t r nt.root count done l) (hnd : (done ++ todo).Nodup)
    (hreal : ∀ n, n ∈ done ++ todo ↔ ∃ p, p ≠ [] ∧ f.nodeAt r p = some n)
    (hsort : todo.Pairwise fun m n => (f.node m).depth ≤ (f.node n).depth) :
    ∃ l', Loading.steps nt.root l (todo.map f.nodeData) = (.ok (), l') ∧
      Loaded digest f t r nt.root count (done ++ todo) l' := by
  induction todo generalizing done l with
  | nil => exact ⟨l, rfl, by rwa [List.append_nil]⟩
  | cons n todo ih =>
    obtain ⟨q, hq, hn⟩ := (hreal n).mp (by simp)
    rcases List.eq_nil_or_concat q with hnil | ⟨p, a, hpa⟩
    · exact absurd hnil hq
    rw [hpa, List.concat_eq_append] at hn
    have hfresh : n ∉ done := fun hdone =>
      (List.nodup_append.mp hnd).2.2 n hdone n (by simp) rfl
    have hp : p ≠ [] → ∃ m, f.nodeAt r p = some m ∧ m ∈ done := by
      intro hne
      obtain ⟨m, hm, hc, _⟩ := hf.shape.nodeAt_snoc_iff.mp hn
      have hdepth := (hf.edges (hf.shape.nodeAt_lt hm) hc).2
      refine ⟨m, hm, ?_⟩
      rcases List.mem_append.mp ((hreal m).mpr ⟨p, hne, hm⟩) with hdone | htodo
      · exact hdone
      · rcases List.mem_cons.mp htodo with he | htodo
        · rw [he] at hdepth
          omega
        · have := (List.pairwise_cons.mp hsort).1 m htodo
          omega
    obtain ⟨l1, hstep, h1⟩ := h.next hd hf hr ht hn hfresh hp
    have happ : done ++ n :: todo = done ++ [n] ++ todo := by simp
    rw [happ] at hnd hreal ⊢
    obtain ⟨l2, hsteps, h2⟩ := ih h1 hnd hreal (List.pairwise_cons.mp hsort).2
    exact ⟨l2, by rw [List.map_cons, Loading.steps, hstep]; exact hsteps, h2⟩

/-- `g` is `t` with the worlds `R` of `f` put over it: below a root, the subtrees of
`f` are there and replace those of `t` that start with the same action. -/
structure Merged (digest : Bytes → Bytes) (f t g : NamespaceForest) (R : Bytes → Prop) : Prop where
  sturdy : Sturdy digest g
  frame : Frame t g
  other : ∀ {r}, ¬ R r → g.resolve r = t.resolve r
  world : ∀ {r ns}, R r → f.resolve r = some ns → ∃ nt, g.resolve r = some nt ∧
    nt.pinned = ns.pinned ∧
    (∀ n0, t.resolve r = some n0 → nt.root = n0.root ∧ nt.configBlobHash = n0.configBlobHash) ∧
    (t.resolve r = none → nt.configBlobHash = ns.configBlobHash)
  kept : ∀ {r a}, (R r → f.nodeAt r [a] = none) → ∀ q, g.nodeAt r (a :: q) = t.nodeAt r (a :: q)
  copied : ∀ {r a q n}, R r → f.nodeAt r (a :: q) = some n →
    ∃ m, g.nodeAt r (a :: q) = some m ∧ t.nodes.size ≤ m ∧ Copy f n g m
  gone : ∀ {r a q}, R r → f.nodeAt r [a] ≠ none → f.nodeAt r (a :: q) = none →
    g.nodeAt r (a :: q) = none

theorem Merged.refl (h : Sturdy digest t) : Merged digest f t t fun _ => False := by
  refine ⟨h, Frame.refl t, fun _ => rfl, ?_, fun _ _ => rfl, ?_, ?_⟩
  all_goals
    intros
    contradiction

/-- Worlds are merged independently of each other. -/
theorem Merged.trans {g' : NamespaceForest} {R R' : Bytes → Prop} (h : Merged digest f t g R)
    (h' : Merged digest f g g' R') (hR : ∀ r, R r → ¬ R' r) :
    Merged digest f t g' fun r => R r ∨ R' r := by
  refine ⟨h'.sturdy, h.frame.trans h'.frame, ?_, ?_, ?_, ?_, ?_⟩
  · intro r hr
    rw [h'.other fun hr' => hr (Or.inr hr'), h.other fun hr' => hr (Or.inl hr')]
  · intro r ns hr hns
    rcases hr with hr | hr
    · rw [h'.other (hR r hr)]
      exact h.world hr hns
    · obtain ⟨nt, hnt, hpin, hold, hnew⟩ := h'.world hr hns
      rw [h.other fun hr' => hR r hr' hr] at hold hnew
      exact ⟨nt, hnt, hpin, hold, hnew⟩
  · intro r a hr q
    rw [h'.kept (fun hr' => hr (Or.inr hr')) q, h.kept (fun hr' => hr (Or.inl hr')) q]
  · intro r a q n hr hn
    rcases hr with hr | hr
    · obtain ⟨m, hm, hle, hc⟩ := h.copied hr hn
      refine ⟨m, ?_, hle, hc.frame h.sturdy h'.frame (h.sturdy.shape.nodeAt_lt hm)⟩
      rw [h'.kept (fun hr' => absurd hr' (hR r hr)) q, hm]
    · obtain ⟨m, hm, hle, hc⟩ := h'.copied hr hn
      exact ⟨m, hm, Nat.le_trans h.frame.size hle, hc⟩
  · intro r a q hr hne hn
    rcases hr with hr | hr
    · rw [h'.kept (fun hr' => absurd hr' (hR r hr)) q, h.gone hr hne hn]
    · exact h'.gone hr hne hn

/-- A copied node has a blob exactly when its original is published, and then a published one. -/
theorem copy_hasKv {n m : NodeId} (h : Copy f n g m) : g.hasKv m = f.hasKv n := by
  rw [← publishedBlob_isSome, ← publishedBlob_isSome,
    publishedBlob_eq (congrArg NodeData.blob h.data)]

theorem setPinned_resolve (f : NamespaceForest) (ns : Namespace) (b : Bool) (r : Bytes) :
    (f.setPinned ns b).resolve r =
      if r = ns.rootHash then some { ns with pinned := b } else f.resolve r :=
  Dict.get?_set _ _ _ _

theorem setPinned_root (hr : f.resolve r = some ns) (hs : ns.rootHash = r) (b : Bool) (r' : Bytes) :
    ((f.setPinned ns b).resolve r').map Namespace.root = (f.resolve r').map Namespace.root := by
  rw [setPinned_resolve]
  split
  · rename_i he
    rw [he, hs, hr]
    rfl
  · rfl

theorem setPinned_nodeAt (hr : f.resolve r = some ns) (hs : ns.rootHash = r) (b : Bool) (r' : Bytes)
    (q : List ActionKey) : (f.setPinned ns b).nodeAt r' q = f.nodeAt r' q := by
  induction q using List.reverseRecOn with
  | nil =>
    rw [nodeAt_nil, nodeAt_nil]
    exact setPinned_root hr hs b r'
  | append_singleton q a ih =>
    rw [nodeAt_snoc, nodeAt_snoc, ih]
    rfl

/-- Any namespace of the changed forest was there, up to its flag. -/
theorem setPinned_old (hr : f.resolve r = some ns) (hs : ns.rootHash = r) {b : Bool} {r' : Bytes}
    {nt : Namespace} (h : (f.setPinned ns b).resolve r' = some nt) :
    ∃ n0, f.resolve r' = some n0 ∧ nt.root = n0.root ∧ nt.rootHash = n0.rootHash := by
  rw [setPinned_resolve] at h
  split at h
  · rename_i he
    cases h
    exact ⟨ns, by rw [he, hs, hr], rfl, rfl⟩
  · exact ⟨nt, h, rfl, rfl⟩

theorem sturdy_setPinned (h : Sturdy digest f) (hr : f.resolve r = some ns) (b : Bool) :
    Sturdy digest (f.setPinned ns b) := by
  have hs := h.shape.root_hash hr
  refine ⟨?_, h.edges, ?_, h.roots, h.skeleton, h.blob_lt⟩
  · obtain ⟨_, _, _, _, _, h6, h7, h8, h9, _⟩ := h.shape
    refine ⟨?_, ?_, ?_, ?_, ?_, h6, h7, h8, h9, ?_⟩
    · intro r' nt hnt
      obtain ⟨n0, hn0, _, he⟩ := setPinned_old hr hs hnt
      rw [he, h.shape.root_hash hn0]
    · intro r' nt hnt
      obtain ⟨n0, hn0, he, _⟩ := setPinned_old hr hs hnt
      rw [he]
      exact h.shape.root_lt hn0
    · intro r' nt hnt
      obtain ⟨n0, hn0, he, _⟩ := setPinned_old hr hs hnt
      rw [he]
      exact h.shape.root_key hn0
    · intro r' nt hnt
      obtain ⟨n0, hn0, he, _⟩ := setPinned_old hr hs hnt
      rw [he]
      exact h.shape.root_depth hn0
    · intro r' nt hnt
      obtain ⟨n0, hn0, he, _⟩ := setPinned_old hr hs hnt
      rw [he]
      exact h.shape.root_parent hn0
    · intro n hn hp
      obtain ⟨n0, hn0, he⟩ := h.shape.rooted hn hp
      have hroot := setPinned_root hr hs b (f.node n).nodeKey
      rw [hn0] at hroot
      obtain ⟨nt, hnt, hntr⟩ := Option.map_eq_some_iff.mp hroot
      exact ⟨nt, hnt, hntr.trans he⟩
  · intro r' nt hnt
    obtain ⟨n0, hn0, _⟩ := setPinned_old hr hs hnt
    exact h.apart hn0

theorem sturdy_addWorld (h : Sturdy digest f) (hr : f.resolve r = none) (ha : Apart digest r)
    (c : Bytes) : Sturdy digest (f.addWorld r c) := by
  refine ⟨h.shape.addWorld hr c, h.edges.addWorld h.shape r c, ?_, ?_, ?_, ?_⟩
  · intro r' ns hns
    rw [addWorld_resolve] at hns
    split at hns
    · rename_i he
      exact he ▸ ha
    · exact h.apart hns
  · intro n hn hp
    rcases Nat.lt_succ_iff_lt_or_eq.mp hn with hn | hn
    · rw [addWorld_old f r c hn] at hp ⊢
      exact h.roots hn hp
    · rw [hn, addWorld_new]
      exact ⟨rfl, rfl, rfl, rfl⟩
  · intro n s hn hs
    rcases Nat.lt_succ_iff_lt_or_eq.mp hn with hn | hn
    · rw [addWorld_old f r c hn] at hs
      exact h.skeleton hn hs
    · rw [hn, addWorld_new] at hs
      cases hs
  · intro n b hn hb
    rcases Nat.lt_succ_iff_lt_or_eq.mp hn with hn | hn
    · rw [addWorld_old f r c hn] at hb
      exact h.blob_lt hn hb
    · rw [hn, addWorld_new] at hb
      cases hb

theorem addWorld_frame (f : NamespaceForest) (r c : Bytes) : Frame f (f.addWorld r c) :=
  ⟨Nat.le_succ _, Nat.le_refl _, fun hn => ⟨_, by rw [addWorld_old f r c hn]⟩, fun _ => rfl⟩

/-- What the loader does before a world's entries: find or make it, and set its flag. -/
structure Entered (digest : Bytes → Bytes) (t g : NamespaceForest) (r c : Bytes) (pinned : Bool)
    (nt : Namespace) : Prop where
  sturdy : Sturdy digest g
  frame : Frame t g
  resolve : g.resolve r = some nt
  other : ∀ {r'}, r' ≠ r → g.resolve r' = t.resolve r'
  path : ∀ r' a q, g.nodeAt r' (a :: q) = t.nodeAt r' (a :: q)
  pinned : nt.pinned = pinned
  old : ∀ n0, t.resolve r = some n0 → nt.root = n0.root ∧ nt.configBlobHash = n0.configBlobHash
  new : t.resolve r = none → nt.configBlobHash = c

theorem enter (h : Sturdy digest t) (ha : Apart digest r) (c : Bytes) (pinned : Bool) :
    ∃ nt, (t.getOrCreateNamespace r c).2.root = nt.root ∧
      Entered digest t ((t.getOrCreateNamespace r c).1.setPinned (t.getOrCreateNamespace r c).2 pinned)
        r c pinned nt := by
  cases hr : t.resolve r with
  | some n0 =>
    have hs := h.shape.root_hash hr
    rw [getOrCreate_old hr]
    refine ⟨{ n0 with pinned }, rfl, sturdy_setPinned h hr pinned, ?_, ?_, ?_, ?_, rfl, ?_, ?_⟩
    · exact ⟨Nat.le_refl _, Nat.le_refl _, fun _ => ⟨_, rfl⟩, fun _ => rfl⟩
    · rw [setPinned_resolve, if_pos hs.symm]
    · intro r' hne
      rw [setPinned_resolve, if_neg fun he => hne (he.trans hs)]
    · intro r' a q
      exact setPinned_nodeAt hr hs pinned r' _
    · intro n1 hn1
      rw [hr] at hn1
      cases hn1
      exact ⟨rfl, rfl⟩
    · intro hn
      rw [hr] at hn
      cases hn
  | none =>
    rw [getOrCreate_new hr]
    have hnew : (t.addWorld r c).resolve r = some ⟨r, c, t.nodes.size, false⟩ := by
      rw [addWorld_resolve, if_pos rfl]
    refine ⟨⟨r, c, t.nodes.size, pinned⟩, rfl, sturdy_setPinned (sturdy_addWorld h hr ha c) hnew pinned, ?_, ?_, ?_,
      ?_, rfl, ?_, ?_⟩
    · have hw := addWorld_frame t r c
      exact ⟨hw.size, hw.handles, hw.node, hw.handle⟩
    · rw [setPinned_resolve, if_pos rfl]
    · intro r' hne
      rw [setPinned_resolve, if_neg hne, addWorld_resolve, if_neg hne]
    · intro r' a q
      rw [setPinned_nodeAt hnew rfl pinned, h.shape.nodeAt_addWorld hr, if_neg]
      intro he
      exact List.cons_ne_nil a q he.2
    · intro n0 hn0
      rw [hr] at hn0
      cases hn0
    · intro _
      rfl

theorem parseHex_hex (b : Bytes) : parseHex (hex b) = .ok b := by
  simp only [parseHex, fromHex_hex]

/-- One world of a snapshot. -/
theorem loadNamespace_merged (hd : Hash digest) (hf : Sturdy digest f) (hr : f.resolve r = some ns)
    (ht : Sturdy digest t) (count : Nat) :
    ∃ g, t.loadNamespace count (f.namespaceData ns) =
        (.ok (), g, count + (f.realNodes ns).length) ∧ Merged digest f t g fun r' => r' = r := by
  have hroot := hf.shape.root_hash hr
  obtain ⟨nt, hntr, he⟩ := enter ht (hf.apart hr) ns.configBlobHash ns.pinned
  obtain ⟨sorted, hperm, hsorted, hpair⟩ := byDepth_nodeData f (f.realNodes ns)
  obtain ⟨hnd, hreal⟩ := realNodes_spec hf.shape hr
  have hparse := parseHex_hex ns.rootHash
  rw [hroot] at hparse
  simp only [loadNamespace, namespaceData, hroot, hparse, parseHex_hex, Option.getD_some, hsorted, hntr]
  generalize (t.getOrCreateNamespace r ns.configBlobHash).1.setPinned
    (t.getOrCreateNamespace r ns.configBlobHash).2 ns.pinned = g at *
  have hstart : Loaded digest f g r nt.root count [] ⟨g, (∅ : Dict String NodeId).set
      (hex (g.node nt.root).nodeKey) nt.root, count⟩ := by
    refine ⟨he.sturdy, Frame.refl g, rfl, fun _ _ => rfl, fun _ _ => rfl, ?_, ?_, ?_, ?_, rfl⟩
    · intro a n q _ hn
      cases hn
    · intro q n _ hn
      cases hn
    · intro p q n _ _ hn
      cases hn
    · rw [he.sturdy.shape.root_key he.resolve]
      exact Dict.get?_set_self _ _ _
  obtain ⟨l, hsteps, hl⟩ := loaded_steps hd hf hr he.resolve sorted hstart
    (hperm.nodup_iff.mpr hnd) (fun n => hperm.mem_iff.trans (hreal n)) hpair
  rw [List.nil_append] at hl
  have hmem : ∀ {a q n}, f.nodeAt r (a :: q) = some n → n ∈ sorted := fun {a q n} hn =>
    hperm.mem_iff.mpr ((hreal n).mpr ⟨a :: q, List.cons_ne_nil a q, hn⟩)
  refine ⟨l.forest, ?_, hl.sturdy, he.frame.trans hl.frame, ?_, ?_, ?_, ?_, ?_⟩
  · rw [hsteps, hl.loaded, hperm.length_eq]
  · intro r' hne
    rw [← he.other hne]
    simp only [resolve, hl.namespaces]
  · intro r' ns' hr' hns'
    subst r'
    rw [hr] at hns'
    cases hns'
    refine ⟨nt, ?_, he.pinned, he.old, he.new⟩
    rw [← he.resolve]
    simp only [resolve, hl.namespaces]
  · intro r' a hnone q
    rw [← he.path r' a q]
    by_cases hr' : r' = r
    · subst r'
      refine hl.kept (fun n hn => ?_) q
      rw [hnone rfl] at hn
      cases hn
    · exact hl.other hr' _
  · intro r' a q n hr' hn
    subst r'
    obtain ⟨m, hm, hle, _, hc⟩ := hl.new hn (hmem hn)
    exact ⟨m, hm, Nat.le_trans he.frame.size hle, hc⟩
  · intro r' a q hr' hne hn
    subst r'
    obtain ⟨n, hn'⟩ := Option.ne_none_iff_exists'.mp hne
    refine hl.gone hn' (hmem hn') fun m hm => ?_
    rw [hn] at hm
    cases hm

theorem loadNamespaces_merged (hd : Hash digest) (hf : Sturdy digest f) (nss : List Namespace)
    (hnd : (nss.map Namespace.rootHash).Nodup) (hns : ∀ ns ∈ nss, f.resolve ns.rootHash = some ns)
    (ht : Sturdy digest t) (count : Nat) :
    ∃ g, t.loadNamespaces count (nss.map f.namespaceData) =
        (.ok (count + (nss.map fun ns => (f.realNodes ns).length).sum), g) ∧
      Merged digest f t g fun r => r ∈ nss.map Namespace.rootHash := by
  induction nss generalizing t count with
  | nil => exact ⟨t, rfl, by simpa using Merged.refl ht⟩
  | cons ns nss ih =>
    obtain ⟨hnew, hnd⟩ := List.nodup_cons.mp hnd
    obtain ⟨g1, hg1, h1⟩ := loadNamespace_merged hd hf (hns ns (by simp)) ht count
    obtain ⟨g, hg, h⟩ := ih hnd (fun ns' hm => hns ns' (by simp [hm])) h1.sturdy
      (count + (f.realNodes ns).length)
    refine ⟨g, ?_, ?_⟩
    · simp only [List.map_cons, loadNamespaces, hg1, hg, List.sum_cons, Nat.add_assoc]
    · have := h1.trans h fun r hr hr' => hnew (hr ▸ hr')
      simpa only [List.map_cons, List.mem_cons] using this

theorem roots_nodup (h : Shape f) : (f.namespaces.values.map Namespace.rootHash).Nodup ∧
    (∀ ns ∈ f.namespaces.values, f.resolve ns.rootHash = some ns) ∧
    ∀ r, r ∈ f.namespaces.values.map Namespace.rootHash ↔ f.resolve r ≠ none := by
  have hres : ∀ ns ∈ f.namespaces.values, f.resolve ns.rootHash = some ns := by
    intro ns hns
    obtain ⟨r, hr⟩ := Dict.mem_values.mp hns
    rwa [h.root_hash hr]
  refine ⟨?_, hres, fun r => ?_⟩
  · have hkeys : f.namespaces.values.map Namespace.rootHash = f.namespaces.keys := by
      simp only [Dict.values, Dict.keys, List.map_map]
      apply List.map_congr_left
      intro e he
      exact h.root_hash ((Dict.get?_eq_some_iff _).mpr he)
    rw [hkeys]
    exact f.namespaces.nodup
  · rw [List.mem_map]
    constructor
    · intro hr
      obtain ⟨ns, hns, he⟩ := hr
      rw [← he, hres ns hns]
      exact Option.some_ne_none ns
    · intro hr
      obtain ⟨ns, hns⟩ := Option.ne_none_iff_exists'.mp hr
      exact ⟨ns, Dict.mem_values.mpr ⟨r, hns⟩, h.root_hash hns⟩

def entryCount (f : NamespaceForest) : Nat :=
  (f.namespaces.values.map fun ns => (f.realNodes ns).length).sum

/-- What loading a snapshot of `f` makes of `t`. -/
theorem loadSnapshot_merged (hd : Hash digest) (hf : Sturdy digest f) (ht : Sturdy digest t) :
    ∃ g, t.loadSnapshot f.snapshot = (.ok (entryCount f), g) ∧
      Merged digest f t g fun r => f.resolve r ≠ none := by
  obtain ⟨hnd, hns, hmem⟩ := roots_nodup hf.shape
  obtain ⟨g, hg, h⟩ := loadNamespaces_merged hd hf _ hnd hns ht 0
  refine ⟨g, ?_, ?_⟩
  · rw [Nat.zero_add] at hg
    exact hg
  · simpa only [hmem] using h

end CacheSeek.Proofs.SnapshotMerged
