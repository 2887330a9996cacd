import CacheSeek.Proofs.ColdRun
import CacheSeek.Proofs.SnapshotRuns
import CacheSeek.Proofs.StoreLaws

namespace CacheSeek.Proofs.SharedForest
open CacheSeek.Lib CacheSeek.Prefix CacheSeek.Prefix.NamespaceForest CacheSeek.Stores
open CacheSeek.Proofs.ColdRun CacheSeek.Proofs.KeyIdentity CacheSeek.Proofs.SnapshotLoad
open CacheSeek.Proofs.SnapshotRuns CacheSeek.Proofs.StoreLaws CacheSeek.Proofs.Worlds

variable {σ N C T L ρ β : Type} (digest : Bytes → Bytes) (S : KVTierStore σ (LayerValue T) L)
  (torch : Torch N C ρ) (dim : TensorDim T β) (E : Engine N C L ρ β)

/-- A session of the world `r` whose chunks up to `i` have the actions `p`. -/
structure Leads (r : Bytes) (p : List ActionKey) (plan : SessionPlan C) (i : Nat) : Prop where
  root : sessionRootHash digest plan.session plan.modelFingerprint = some r
  lt : i < (E.noiseChunks plan.keys).length
  path : p = (actionsOf E torch digest plan).take (i + 1)

/-- The KV of chunk `i` in a run without the cache. -/
def coldPayload (plan : SessionPlan C) (i : Nat) : List (LayerValue T) :=
  (List.range (E.layers plan.keys)).map fun l =>
    .pair (some (dim.ofColumns (coldWrite E torch plan l i).1))
      (some (dim.ofColumns (coldWrite E torch plan l i).2))

/-- The node's blob `b` and its latent are those of chunk `i` in a run without the cache. -/
structure Cold (f : NamespaceForest) (s : σ) (n : NodeId) (b : HandleId) (plan : SessionPlan C)
    (i : Nat) : Prop where
  locator : (f.handle b).locator = kvLocator (f.node n).nodeKey
  layers : (f.handle b).nLayers = E.layers plan.keys
  blob : HasBlob S s (f.node n).nodeKey (coldPayload torch dim E plan i)
  skeleton : (f.node n).skeleton = some ⟨latentLocator (f.node n).nodeKey⟩
  latent : ∃ l, coldLatent E torch plan i = some l ∧ HasLatent S s (f.node n).nodeKey l

/-- Every blob is the one its root and action prefix stand for. -/
structure Truthful (f : NamespaceForest) (s : σ) : Prop where
  sturdy : Sturdy digest f
  attached : Attached f
  chunk : ∀ {r p n b}, f.nodeAt r p = some n → (f.node n).blob = some b →
    ∃ plan i, Leads digest torch E r p plan i ∧ Cold S torch dim E f s n b plan i

section
variable {digest S torch dim E} {f g : NamespaceForest} {s s' : σ} {r : Bytes} {p : List ActionKey}
  {n : NodeId} {b : HandleId} {plan plan' : SessionPlan C} {i i' : Nat}

theorem Leads.length (h : Leads digest torch E r p plan i) : p.length = i + 1 := by
  rw [h.path, List.length_take, actionsOf_length]
  have := h.lt
  omega

theorem Leads.keys (hd : Hash digest) (h : Leads digest torch E r p plan i)
    (hroot : sessionRootHash digest plan'.session plan'.modelFingerprint = some r) :
    plan.keys = plan'.keys := by
  obtain ⟨⟨h1, h2, h3, h4, h5⟩, h6⟩ := sessionRootHash_inj hd.injective h.root hroot
  simp only [SessionPlan.keys, keyFields, KeyFields.mk.injEq]
  exact ⟨h1, h2, h3, h4, List.map_congr_left h5, h6⟩

/-- Sessions that lead to one chunk have the same cold run there. -/
theorem Leads.agree (hd : Hash digest) (hq : Quantized E torch digest)
    (h : Leads digest torch E r p plan i) (h' : Leads digest torch E r p plan' i') :
    i = i' ∧ plan.keys = plan'.keys ∧ coldStep E torch plan i = coldStep E torch plan' i := by
  have hi : i = i' := Nat.succ_inj.mp (h.length.symm.trans h'.length)
  have hkeys := h.keys hd h'.root
  refine ⟨hi, hkeys, coldStep_take hq hkeys h.lt ?_⟩
  rw [← h.path, h'.path, hi]

/-- Two nodes with one key are one node. -/
theorem nodeKey_unique (hd : Hash digest) (h : Sturdy digest f) (hn : f.nodeAt r p = some n) {r' : Bytes}
    {q : List ActionKey} {m : NodeId} (hm : f.nodeAt r' q = some m)
    (hk : (f.node n).nodeKey = (f.node m).nodeKey) : n = m := by
  have hroot : ∀ {r p n}, f.nodeAt r p = some n → Apart digest r := by
    intro r p n hn
    rw [nodeAt, Option.bind_eq_some_iff] at hn
    obtain ⟨ns, hns, _⟩ := hn
    exact h.apart hns
  have h1 := nodeAt_key h.shape h.edges hn
  rw [hk] at h1
  obtain ⟨hr, hp⟩ := pathKey_inj hd.injective (hroot hn) (hroot hm) h1 (nodeAt_key h.shape h.edges hm)
  rw [hr, hp, hm] at hn
  exact (Option.some.inj hn).symm

theorem Cold.congr (h : Cold S torch dim E f s n b plan i)
    (hkey : (g.node n).nodeKey = (f.node n).nodeKey)
    (hsk : (g.node n).skeleton = (f.node n).skeleton) (hh : g.handle b = f.handle b)
    (hb : ∀ {q}, HasBlob S s (f.node n).nodeKey q → HasBlob S s' (f.node n).nodeKey q)
    (hl : ∀ {l}, HasLatent S s (f.node n).nodeKey l → HasLatent S s' (f.node n).nodeKey l) :
    Cold S torch dim E g s' n b plan i := by
  obtain ⟨h1, h2, h3, h4, l, h5, h6⟩ := h
  refine ⟨?_, ?_, ?_, ?_, l, h5, ?_⟩
  · rw [hh, hkey, h1]
  · rw [hh, h2]
  · rw [hkey]
    exact hb h3
  · rw [hsk, hkey, h4]
  · rw [hkey]
    exact hl h6

theorem empty_truthful (s : σ) : Truthful digest S torch dim E .empty s := by
  refine ⟨empty_sturdy, Attached.empty, ?_⟩
  intro r p n b hn
  exact absurd (Shape.empty.nodeAt_lt hn) (Nat.not_lt_zero n)

theorem Truthful.retains (h : Truthful digest S torch dim E f s) (hs : Retains S s s') :
    Truthful digest S torch dim E f s' := by
  refine ⟨h.sturdy, h.attached, ?_⟩
  intro r p n b hn hb
  obtain ⟨plan, i, hl, hc⟩ := h.chunk hn hb
  exact ⟨plan, i, hl, hc.congr rfl rfl rfl hs.blob hs.latent⟩

theorem Truthful.untouched (h : Truthful digest S torch dim E f s) (hu : Untouched f g) :
    Truthful digest S torch dim E g s := by
  refine ⟨untouched_sturdy h.sturdy hu, hu.sameTrie.attached h.attached, ?_⟩
  intro r p n b hn hb
  obtain ⟨t, ht⟩ := hu.node n
  rw [hu.sameTrie.nodeAt] at hn
  rw [ht] at hb
  obtain ⟨plan, i, hl, hc⟩ := h.chunk hn hb
  refine ⟨plan, i, hl, hc.congr ?_ ?_ ?_ id id⟩
  · rw [ht]
  · rw [ht]
  · rw [handle, hu.handles, handle]

theorem Truthful.create (h : Truthful digest S torch dim E f s) (ha : Apart digest r) (c : Bytes) :
    Truthful digest S torch dim E (f.getOrCreateNamespace r c).1 s := by
  refine ⟨create_sturdy h.sturdy ha c, ?_, ?_⟩
  · cases hr : f.resolve r with
    | some ns =>
      rw [getOrCreate_old hr]
      exact h.attached
    | none =>
      rw [getOrCreate_new hr]
      exact h.attached.addWorld h.sturdy.shape c
  · intro r' q m b hm hb
    cases hr : f.resolve r with
    | some ns =>
      rw [getOrCreate_old hr] at hm hb ⊢
      exact h.chunk hm hb
    | none =>
      rw [getOrCreate_new hr] at hm hb ⊢
      rw [h.sturdy.shape.nodeAt_addWorld hr] at hm
      split at hm
      · cases hm
        rw [addWorld_new] at hb
        cases hb
      · have hold := addWorld_old f r c (h.sturdy.shape.nodeAt_lt hm)
        rw [hold] at hb
        obtain ⟨plan, i, hl, hc⟩ := h.chunk hm hb
        exact ⟨plan, i, hl, hc.congr (by rw [hold]) (by rw [hold]) rfl id id⟩

/-- An eviction frees one chunk's blob and no other's. -/
theorem Truthful.evict (hd : Hash digest) (hS : KeepsPuts S) (h : Truthful digest S torch dim E f s)
    (hn : n < f.nodes.size) :
    Truthful digest S torch dim E (evictBlob S f s n).2.1 (evictBlob S f s n).2.2 := by
  have hsturdy := evict_sturdy (S := S) h.sturdy s n
  rcases evictBlob_cases S f s n with ⟨b, hb, _, _, he⟩ | ⟨_, he⟩
  · rw [he] at hsturdy ⊢
    obtain ⟨r, p, hp⟩ := h.sturdy.shape.exists_path h.attached hn
    obtain ⟨_, _, _, hcold⟩ := h.chunk hp hb
    have hs := SameTrie.modifyNode f n (fun p => { p with blob := none })
      fun _ => ⟨rfl, rfl, rfl, rfl, rfl⟩
    refine ⟨hsturdy, hs.attached h.attached, ?_⟩
    intro r' q m x hm hx
    rw [hs.nodeAt] at hm
    by_cases hmn : m = n
    · rw [hmn, modifyNode_self] at hx
      cases hx
    · have hnode : (f.modifyNode n fun p => { p with blob := none }).node m = f.node m :=
        modifyNode_ne _ _ hmn
      rw [hnode] at hx
      obtain ⟨plan, i, hl, hc⟩ := h.chunk hm hx
      refine ⟨plan, i, hl, hc.congr ?_ ?_ rfl ?_ fun hl => hS.freeLatent s (f.handle b) hl⟩
      · rw [hnode]
      · rw [hnode]
      · intro payload hpay
        apply hS.freeBlob s (f.handle b) ?_ hpay
        rw [hcold.locator]
        exact fun hloc => hmn (nodeKey_unique hd h.sturdy hm hp (StoreKeys.kvLocator_inj hloc).symm)
  · rw [he]
    exact h

theorem coldPayload_paired (plan : SessionPlan C) (i : Nat) : Paired (coldPayload torch dim E plan i) := by
  intro p hp
  obtain ⟨l, _, rfl⟩ := List.mem_map.mp hp
  exact ⟨_, _, rfl⟩

/-- Ingesting what the cold run has keeps the forest truthful. -/
theorem Truthful.ingest (hd : Hash digest) (hS : KeepsPuts S) (h : Truthful digest S torch dim E f s)
    (cfg : WorldKVConfig) {a : IngestArgs (LayerValue T) L}
    (hleads : Leads digest torch E r (p ++ [a.action]) plan i) (hmount : f.nodeAt r p = some a.parent)
    (hchained : Chained digest f a) (hpay : a.kvPayload = coldPayload torch dim E plan i)
    (hlat : coldLatent E torch plan i = some a.latent) (hlayers : a.nLayers = none) :
    ∃ m f' s', ingest S cfg f s a = (.ok m, f', s') ∧ Truthful digest S torch dim E f' s' ∧
      f'.nodeAt r (p ++ [a.action]) = some m ∧ Extends f f' := by
  obtain ⟨s', hing, hblob, hlatent, hkeepb, hkeepl⟩ :=
    hS.ingest cfg f s a (hpay ▸ coldPayload_paired plan i)
  have hsturdy : Sturdy digest (Prefix.ingest S cfg f s a).2.1 := ingest_sturdy h.sturdy hchained s
  rw [hing] at hsturdy
  have hn := h.sturdy.shape.nodeAt_lt hmount
  have hshape := h.sturdy.shape.commit (a := a.action) hn a.nodeKey a.depth
  have hatt := h.attached.commit (a := a.action) h.sturdy.shape hn a.nodeKey a.depth
  have hnode := h.sturdy.shape.nodeAt_commit (a := a.action) a.nodeKey a.depth hmount
  have hext := commit_extends h.sturdy.shape hmount a.action a.nodeKey a.depth
  have hhand := commit_handles f a.parent a.action a.nodeKey a.depth
  have hcases := fun {m} => commit_node_cases (a := a.action) hn a.nodeKey a.depth (m := m)
  dsimp only at hsturdy
  generalize f.commit a.parent a.action a.nodeKey a.depth = c at *
  obtain ⟨f1, m⟩ := c
  dsimp only at *
  have hfill : SameTrie f1 (fill cfg f1 m a) := fill_sameTrie f1 m a
  have hm : (fill cfg f1 m a).nodeAt r (p ++ [a.action]) = some m := by
    rw [hfill.nodeAt, hnode, if_pos ⟨rfl, rfl⟩]
  have hkey : ((fill cfg f1 m a).node m).nodeKey = a.nodeKey := by
    have h1 := nodeAt_key hsturdy.shape hsturdy.edges hm
    rw [pathKey_snoc, nodeAt_key h.sturdy.shape h.sturdy.edges hmount, Option.bind_some,
      hchained.nodeKey] at h1
    exact (Option.some.inj h1).symm
  refine ⟨m, _, s', hing, ⟨hsturdy, hfill.attached hatt, ?_⟩, hm, hext.trans (.sameTrie hfill)⟩
  intro r' q k b hk hb
  by_cases hkm : k = m
  · subst k
    obtain ⟨hr, hq⟩ := hsturdy.shape.nodeAt_inj hk hm
    subst hr hq
    rw [fill_self] at hb
    cases hb
    refine ⟨plan, i, hleads, ?_, ?_, ?_, ?_, a.latent, hlat, ?_⟩
    · rw [fill_handle_new, hkey]
      rfl
    · rw [fill_handle_new]
      simp only [IngestArgs.newHandle, hlayers, Option.getD_none, hpay, coldPayload, List.length_map,
        List.length_range]
    · rw [hkey, ← hpay]
      exact hblob
    · rw [hkey, fill_self]
    · rw [hkey]
      exact hlatent
  · have hkne : ((fill cfg f1 m a).node k).nodeKey ≠ a.nodeKey := fun he =>
      hkm (nodeKey_unique hd hsturdy hk hm (he.trans hkey.symm))
    have hklt : k < f1.nodes.size := hfill.size ▸ hsturdy.shape.nodeAt_lt hk
    rw [hfill.nodeAt] at hk
    have hsame : (fill cfg f1 m a).node k = f1.node k := fill_ne f1 m a hkm
    rcases hcases hklt with ⟨hlt, cs, hcs⟩ | ⟨_, he, _⟩
    · rw [hcs] at hsame
      rw [hsame] at hb hkne
      have hold : f.nodeAt r' q = some k := by
        rw [hnode] at hk
        split at hk
        · exact absurd (Option.some.inj hk).symm hkm
        · exact hk
      obtain ⟨plan', i', hl, hc⟩ := h.chunk hold hb
      have hblt : b < f1.handles.size := by
        rw [hhand]
        exact h.sturdy.blob_lt hlt hb
      refine ⟨plan', i', hl, hc.congr ?_ ?_ ?_ (hkeepb hkne) (hkeepl hkne)⟩
      · rw [hsame]
      · rw [hsame]
      · rw [fill_handle_old f1 m a hblt, handle, hhand, handle]
    · exact absurd he hkm

end

end CacheSeek.Proofs.SharedForest
