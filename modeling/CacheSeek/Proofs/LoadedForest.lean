import CacheSeek.Proofs.SharedForest
import CacheSeek.Proofs.SnapshotRoundTrip

namespace CacheSeek.Proofs.LoadedForest
open CacheSeek.Lib CacheSeek.Prefix CacheSeek.Prefix.NamespaceForest CacheSeek.Stores
open CacheSeek.Proofs.SharedForest CacheSeek.Proofs.SnapshotLoad CacheSeek.Proofs.SnapshotMerged
open CacheSeek.Proofs.SnapshotNodes CacheSeek.Proofs.SnapshotRoundTrip CacheSeek.Proofs.SnapshotRuns

variable {digest : Bytes → Bytes} {f t g : NamespaceForest} {r : Bytes} {ns nt : Namespace}

section
variable {count : Nat} {done : List NodeId} {l : Loading}

/-- In a world that was empty, nothing is at the path of an entry that is still to come. -/
theorem fresh_place (h : Loaded digest f t r nt.root count done l) (hbare : ∀ a, t.nodeAt r [a] = none)
    {p : List ActionKey} {a : ActionKey} {n : NodeId} (hn : f.nodeAt r (p ++ [a]) = some n) (hfresh : n ∉ done)
    (hp : p ≠ [] → ∃ m, f.nodeAt r p = some m ∧ m ∈ done) : l.forest.nodeAt r (p ++ [a]) = none := by
  have hno : ∀ m, f.nodeAt r (p ++ [a]) = some m → m ∉ done := by
    intro m hm
    rw [hn, Option.some.injEq] at hm
    exact hm ▸ hfresh
  cases p with
  | nil => exact (h.kept hno []).trans (hbare a)
  | cons b p =>
    obtain ⟨m, hm, hdone⟩ := hp (List.cons_ne_nil b p)
    obtain ⟨n0, hn0, hdone0⟩ := h.closed (p := [b]) (List.cons_ne_nil b []) hm hdone
    exact h.gone hn0 hdone0 hno

/-- An entry goes to a new place under its parent. -/
theorem add_attached (ha : Attached l.forest) (hs : Shape l.forest) {μ : NodeId} (hμ : μ < l.forest.nodes.size)
    {key : Bytes} {nd : NodeData} (hnew : l.forest.child μ nd.action = none) (blob : Option BlobHandle) :
    Attached (l.add μ key nd blob).forest := by
  have hst := storeBlob_sameTrie l.forest blob
  simp only [Loading.add]
  generalize l.forest.storeBlob blob = Fb at hst
  obtain ⟨F, b⟩ := Fb
  dsimp only at hst ⊢
  apply (hst.attached ha).addChild (hst.shape hs) (hst.size ▸ hμ)
  · rfl
  · rfl
  · rw [hst.child]
    exact hnew

theorem steps_attached (hd : Hash digest) (hf : Sturdy digest f) (hr : f.resolve r = some ns)
    (ht : t.resolve r = some nt) (hbare : ∀ a, t.nodeAt r [a] = none) {count : Nat} (todo : List NodeId)
    (h : Loaded digest f t r nt.root count done l) (ha : Attached l.forest) (hnd : (done ++ todo).Nodup)
    (hreal : ∀ n, n ∈ done ++ todo ↔ ∃ p, p ≠ [] ∧ f.nodeAt r p = some n)
    (hsort : todo.Pairwise fun m n => (f.node m).depth ≤ (f.node n).depth) :
    Attached (Loading.steps nt.root l (todo.map f.nodeData)).2.forest := by
  induction todo generalizing done l with
  | nil => exact ha
  | cons n todo ih =>
    obtain ⟨q, hq, hn⟩ := (hreal n).mp (by simp)
    obtain hnil | ⟨p, a, hpa⟩ := List.eq_nil_or_concat q
    · exact absurd hnil hq
    rw [hpa, List.concat_eq_append] at hn
    have hfresh : n ∉ done := by
      intro hdone
      exact (List.nodup_append.mp hnd).2.2 n hdone n (by simp) rfl
    have hp : p ≠ [] → ∃ m, f.nodeAt r p = some m ∧ m ∈ done := by
      intro hne
      obtain ⟨m, hm, hc, _⟩ := hf.shape.nodeAt_snoc_iff.mp hn
      have hdepth := (hf.edges (hf.shape.nodeAt_lt hm) hc).2
      refine ⟨m, hm, ?_⟩
      -- the parent is an entry of less depth, so it came before
      rcases List.mem_append.mp ((hreal m).mpr ⟨p, hne, hm⟩) with hdone | htodo
      · exact hdone
      · rcases List.mem_cons.mp htodo with he | htodo
        · rw [he] at hdepth
          omega
        · have := (List.pairwise_cons.mp hsort).1 m htodo
          omega
    obtain ⟨l1, hstep, h1⟩ := h.next hd hf hr ht hn hfresh hp
    obtain ⟨μ, hμ, hμp, _⟩ := h.parent hd hf ht hn hp
    have ha1 : Attached l1.forest := by
      have hadd := (step_nodeData f l hμ).symm.trans hstep
      rw [Prod.mk.injEq] at hadd
      rw [← hadd.2]
      apply add_attached ha h.sturdy.shape (h.sturdy.shape.nodeAt_lt hμp)
      have hnone := fresh_place h hbare hn hfresh hp
      have haction : (f.node n).action = a := (hf.shape.nodeAt_snoc_iff.mp hn).choose_spec.2.2.2
      rw [nodeAt_snoc, hμp, Option.bind_some] at hnone
      change l.forest.child μ (f.node n).action = none
      rw [haction]
      exact hnone
    have happ : done ++ n :: todo = done ++ [n] ++ todo := by simp
    rw [happ] at hnd hreal
    rw [List.map_cons, Loading.steps, hstep]
    exact ih h1 ha1 hnd hreal (List.pairwise_cons.mp hsort).2

end

/-- A world that was not known is loaded whole. -/
theorem loadNamespace_attached (hd : Hash digest) (hf : Sturdy digest f) (hr : f.resolve r = some ns)
    (ht : Sturdy digest t) (ha : Attached t) (hnew : t.resolve r = none) (count : Nat) :
    Attached (t.loadNamespace count (f.namespaceData ns)).2.1 := by
  have hroot := hf.shape.root_hash hr
  obtain ⟨nt, hntr, he⟩ := enter ht (hf.apart hr) ns.configBlobHash ns.pinned
  obtain ⟨sorted, hperm, hsorted, hpair⟩ := byDepth_nodeData f (f.realNodes ns)
  obtain ⟨hnd, hreal⟩ := realNodes_spec hf.shape hr
  have hparse := parseHex_hex ns.rootHash
  rw [hroot] at hparse
  have hworld : Attached ((t.getOrCreateNamespace r ns.configBlobHash).1.setPinned
      (t.getOrCreateNamespace r ns.configBlobHash).2 ns.pinned) := by
    rw [getOrCreate_new hnew]
    exact ha.addWorld ht.shape ns.configBlobHash
  have hbare : ∀ a, t.nodeAt r [a] = none := by
    intro a
    simp [nodeAt, hnew]
  simp only [loadNamespace, namespaceData, hroot, hparse, parseHex_hex, Option.getD_some, hsorted, hntr]
  generalize (t.getOrCreateNamespace r ns.configBlobHash).1.setPinned
    (t.getOrCreateNamespace r ns.configBlobHash).2 ns.pinned = g at *
  have hstart : Loaded digest f g r nt.root count [] ⟨g, (∅ : Dict String NodeId).set
      (hex (g.node nt.root).nodeKey) nt.root, count⟩ := by
    refine ⟨he.sturdy, Frame.refl g, rfl, fun _ _ => rfl, fun _ _ => rfl, ?_, ?_, ?_, ?_, rfl⟩
    · intro a n q _ hn
      cases hn
    · intro q n _ hn
      cases hn
    · intro p q n _ _ hn
      cases hn
    · rw [he.sturdy.shape.root_key he.resolve]
      exact Dict.get?_set_self _ _ _
  apply steps_attached hd hf hr he.resolve _ sorted hstart hworld
  · exact hperm.nodup_iff.mpr hnd
  · exact fun n => hperm.mem_iff.trans (hreal n)
  · exact hpair
  · exact fun a => (he.path r a []).trans (hbare a)

theorem loadNamespaces_attached (hd : Hash digest) (hf : Sturdy digest f) (nss : List Namespace)
    (hnd : (nss.map Namespace.rootHash).Nodup) (hns : ∀ ns ∈ nss, f.resolve ns.rootHash = some ns)
    (ht : Sturdy digest t) (ha : Attached t) (hnew : ∀ ns ∈ nss, t.resolve ns.rootHash = none) (count : Nat) :
    Attached (t.loadNamespaces count (nss.map f.namespaceData)).2 := by
  induction nss generalizing t count with
  | nil => exact ha
  | cons ns nss ih =>
    obtain ⟨hno, hnd⟩ := List.nodup_cons.mp hnd
    have hr := hns ns (by simp)
    obtain ⟨g1, hg1, h1⟩ := loadNamespace_merged hd hf hr ht count
    have ha1 := loadNamespace_attached hd hf hr ht ha (hnew ns (by simp)) count
    rw [hg1] at ha1
    simp only [List.map_cons, loadNamespaces, hg1]
    apply ih hnd (fun ns' hm => hns ns' (by simp [hm])) h1.sturdy ha1
    intro ns' hm
    rw [h1.other fun he => hno (he ▸ List.mem_map_of_mem hm)]
    exact hnew ns' (by simp [hm])

/-- A forest loaded from a snapshot into one that knew no world is whole. -/
theorem load_attached (hd : Hash digest) (hf : Sturdy digest f) (ht : Sturdy digest t) (ha : Attached t)
    (hnone : ∀ r, t.resolve r = none) : Attached (t.loadSnapshot f.snapshot).2 := by
  obtain ⟨hnd, hns, _⟩ := roots_nodup hf.shape
  exact loadNamespaces_attached hd hf _ hnd hns ht ha (fun ns _ => hnone ns.rootHash) 0

/-- As far as worlds go, such a forest was empty. -/
theorem merged_empty {R : Bytes → Prop} (h : Merged digest f t g R) (hnone : ∀ r, t.resolve r = none) :
    Merged digest f .empty g R := by
  have hat : ∀ r p, t.nodeAt r p = NamespaceForest.empty.nodeAt r p := by
    intro r p
    simp only [nodeAt, hnone]
    rfl
  refine ⟨h.sturdy, ⟨Nat.zero_le _, Nat.zero_le _, ?_, ?_⟩, ?_, ?_, ?_, ?_, h.gone⟩
  · exact fun hn => absurd hn (Nat.not_lt_zero _)
  · exact fun hb => absurd hb (Nat.not_lt_zero _)
  · exact fun hr => (h.other hr).trans (hnone _)
  · intro r ns hr hns
    obtain ⟨nt, hnt, hpin, -, hnew⟩ := h.world hr hns
    refine ⟨nt, hnt, hpin, ?_, fun _ => hnew (hnone r)⟩
    intro n0 hn0
    cases hn0
  · exact fun hr q => (h.kept hr q).trans (hat _ _)
  · intro r a q n hr hn
    obtain ⟨m, hm, -, hc⟩ := h.copied hr hn
    exact ⟨m, hm, Nat.zero_le _, hc⟩

section
variable {σ N C T L ρ β : Type} {S : KVTierStore σ (LayerValue T) L} {torch : Torch N C ρ} {dim : TensorDim T β}
  {E : Engine N C L ρ β} {s : σ}

theorem publishedBlob_iff {n : NodeId} {b : HandleId} (hb : (f.node n).blob = some b) {x : BlobHandle} :
    publishedBlob f n = some x ↔ f.hasKv n = true ∧ f.handle b = x := by
  unfold publishedBlob
  rw [hb]
  cases f.hasKv n with
  | false => simp
  | true => simp

/-- A blob of a loaded forest is one that was saved. -/
theorem loaded_handle {n m : NodeId} (h : SameNode f g n m) {b : HandleId} (hb : (g.node m).blob = some b) :
    ∃ b', (f.node n).blob = some b' ∧ g.handle b = f.handle b' := by
  have hkv : f.hasKv n = true := by
    cases hkv : f.hasKv n with
    | true => rfl
    | false =>
      rw [h.bare hkv] at hb
      cases hb
  obtain ⟨b', hb', hready⟩ := hasKv_iff.mp hkv
  refine ⟨b', hb', ?_⟩
  have hpub := (publishedBlob_iff hb').mpr ⟨hkv, rfl⟩
  rw [← h.blob] at hpub
  exact ((publishedBlob_iff hb).mp hpub).2

theorem load_truthful (hd : Hash digest) (h : Truthful digest S torch dim E f s) (ht : Sturdy digest t)
    (ha : Attached t) (hnone : ∀ r, t.resolve r = none) :
    Truthful digest S torch dim E (t.loadSnapshot f.snapshot).2 s := by
  have hat := load_attached hd h.sturdy ht ha hnone
  obtain ⟨g, hg, hm⟩ := loadSnapshot_merged hd h.sturdy ht
  have hm := merged_empty hm hnone
  rw [hg] at hat ⊢
  refine ⟨hm.sturdy, hat, ?_⟩
  intro r p m b hn hb
  have hnode := loaded_node h.sturdy hm r p
  rw [hn] at hnode
  obtain ⟨n, hn, hs⟩ := hnode.to_some
  obtain ⟨b', hb', hh⟩ := loaded_handle hs hb
  obtain ⟨plan, i, hl, hc⟩ := h.chunk hn hb'
  refine ⟨plan, i, hl, ?_, ?_, ?_, ?_, ?_⟩
  · rw [hh, hs.nodeKey, hc.locator]
  · rw [hh, hc.layers]
  · rw [hs.nodeKey]
    exact hc.blob
  · rw [hs.skeleton, hs.nodeKey, hc.skeleton]
  · rw [hs.nodeKey]
    exact hc.latent

end

end CacheSeek.Proofs.LoadedForest
