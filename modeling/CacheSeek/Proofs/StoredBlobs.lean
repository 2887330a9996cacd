import CacheSeek.Prefix.InFlight
import CacheSeek.Proofs.ForestMap
import CacheSeek.Proofs.StoreKeys

namespace CacheSeek.Proofs.StoredBlobs
open CacheSeek.Lib CacheSeek.Prefix CacheSeek.Prefix.NamespaceForest CacheSeek.Stores
open CacheSeek.Proofs.StoreKeys (kvLocator_inj)
open CacheSeek.Proofs.ForestMap (inMemory_synchronous)

variable {P L : Type} {cfg : WorldKVConfig} {f g : NamespaceForest} {s : InMemoryTier P L} {count : Nat}

/-- The walk goes to parents, whose numbers are smaller. -/
theorem collectRecent_sorted (cfg : WorldKVConfig) (h : Shape f) (fuel : Nat) (n : Option NodeId)
    (recent : List NodeId)
    (hsort : recent.Pairwise (· > ·)) (hlt : ∀ x ∈ recent, x < f.nodes.size)
    (hn : ∀ m, n = some m → m < f.nodes.size ∧ ∀ x ∈ recent, m < x) :
    (collectRecent cfg f fuel n recent).1.Pairwise (· > ·) ∧
      (∀ x ∈ (collectRecent cfg f fuel n recent).1, x < f.nodes.size) ∧
      ∀ m, (collectRecent cfg f fuel n recent).2 = some m → m < f.nodes.size ∧
        ∀ x ∈ (collectRecent cfg f fuel n recent).1, m < x := by
  induction fuel generalizing n recent with
  | zero => exact ⟨hsort, hlt, hn⟩
  | succ fuel ih =>
    cases n with
    | none => exact ⟨hsort, hlt, fun m hm => nomatch hm⟩
    | some k =>
      obtain ⟨hk, hbelow⟩ := hn k rfl
      unfold collectRecent
      dsimp only
      split
      · refine ih _ _ ?_ ?_ ?_
        · refine List.pairwise_append.mpr ⟨hsort, List.pairwise_singleton _ _, ?_⟩
          intro x hx y hy
          rw [List.mem_singleton.mp hy]
          exact hbelow x hx
        · intro x hx
          rcases List.mem_append.mp hx with hx | hx
          · exact hlt x hx
          · rw [List.mem_singleton.mp hx]
            exact hk
        · intro m hm
          have hmk := h.parent_lt hk hm
          refine ⟨Nat.lt_trans hmk hk, fun x hx => ?_⟩
          rcases List.mem_append.mp hx with hx | hx
          · exact Nat.lt_trans hmk (hbelow x hx)
          · rw [List.mem_singleton.mp hx]
            exact hmk
      · exact ⟨hsort, hlt, hn⟩

/-- The sinks above the recent chunks are met in the same order. -/
theorem collectSinks_sorted (cfg : WorldKVConfig) (h : Shape f) (fuel : Nat) (n : Option NodeId)
    (above sinks : List NodeId)
    (hsort : (above ++ sinks).Pairwise (· > ·)) (hlt : ∀ x ∈ sinks, x < f.nodes.size)
    (hn : ∀ m, n = some m → m < f.nodes.size ∧ ∀ x ∈ above ++ sinks, m < x) :
    (above ++ collectSinks cfg f fuel n sinks).Pairwise (· > ·) ∧
      ∀ x ∈ collectSinks cfg f fuel n sinks, x < f.nodes.size := by
  induction fuel generalizing n sinks with
  | zero => exact ⟨hsort, hlt⟩
  | succ fuel ih =>
    cases n with
    | none => exact ⟨hsort, hlt⟩
    | some k =>
      obtain ⟨hk, hbelow⟩ := hn k rfl
      have hup : ∀ m, (f.node k).parent = some m → m < f.nodes.size ∧ m < k := fun m hm =>
        ⟨Nat.lt_trans (h.parent_lt hk hm) hk, h.parent_lt hk hm⟩
      unfold collectSinks
      dsimp only
      split
      · split
        · refine ih _ _ ?_ ?_ ?_
          · rw [← List.append_assoc]
            refine List.pairwise_append.mpr ⟨hsort, List.pairwise_singleton _ _, ?_⟩
            intro x hx y hy
            rw [List.mem_singleton.mp hy]
            exact hbelow x hx
          · intro x hx
            rcases List.mem_append.mp hx with hx | hx
            · exact hlt x hx
            · rw [List.mem_singleton.mp hx]
              exact hk
          · intro m hm
            refine ⟨(hup m hm).1, fun x hx => ?_⟩
            rw [← List.append_assoc] at hx
            rcases List.mem_append.mp hx with hx | hx
            · exact Nat.lt_trans (hup m hm).2 (hbelow x hx)
            · rw [List.mem_singleton.mp hx]
              exact (hup m hm).2
        · exact ih _ _ hsort hlt fun m hm =>
            ⟨(hup m hm).1, fun x hx => Nat.lt_trans (hup m hm).2 (hbelow x hx)⟩
      · exact ⟨hsort, hlt⟩

/-- A window path goes down the trie, through each of its nodes once. -/
theorem windowPath_sorted (cfg : WorldKVConfig) (h : Shape f) {n : NodeId} (hn : n < f.nodes.size) :
    (windowPath cfg f n).Pairwise (· < ·) ∧ ∀ x ∈ windowPath cfg f n, x < f.nodes.size := by
  obtain ⟨hsort, hlt, htop⟩ := collectRecent_sorted cfg h f.nodes.size (some n) []
    List.Pairwise.nil (fun _ hx => nomatch hx) fun m hm => by
      cases hm
      exact ⟨hn, fun _ hx => nomatch hx⟩
  unfold windowPath
  generalize collectRecent cfg f f.nodes.size (some n) [] = c at hsort hlt htop
  obtain ⟨recent, top⟩ := c
  dsimp only at hsort hlt htop ⊢
  obtain ⟨hall, hlt'⟩ := collectSinks_sorted cfg h f.nodes.size top recent []
    (by rwa [List.append_nil]) (fun _ hx => nomatch hx) (by rwa [List.append_nil])
  refine ⟨?_, fun x hx => ?_⟩
  · rw [← List.reverse_append, List.pairwise_reverse]
    exact hall
  · rcases List.mem_append.mp hx with hx | hx
    · exact hlt' x (List.mem_reverse.mp hx)
    · exact hlt x (List.mem_reverse.mp hx)

/-- The blob of a node is published, and stored under the node's key. -/
structure Stored (count : Nat) (f : NamespaceForest) (s : InMemoryTier P L) (n : NodeId) (h : HandleId) : Prop where
  lt : h < f.handles.size
  ready : (f.handle h).ready = true
  locator : (f.handle h).locator = kvLocator (f.node n).nodeKey
  layers : (f.handle h).nLayers = count
  payload : ∃ payload, s.blobs.get? (kvLocator (f.node n).nodeKey) = some payload ∧ payload.length = count

structure Sound (count : Nat) (f : NamespaceForest) (s : InMemoryTier P L) : Prop where
  shape : Shape f
  keys : ∀ {n n'}, n < f.nodes.size → n' < f.nodes.size → (f.node n).nodeKey = (f.node n').nodeKey → n = n'
  stored : ∀ {n h}, n < f.nodes.size → (f.node n).blob = some h → Stored count f s n h

/-- What a change of the forest keeps for the calls under way. -/
structure Keeps (f g : NamespaceForest) : Prop where
  size : f.nodes.size ≤ g.nodes.size
  refs : ∀ {n}, n < f.nodes.size → (g.node n).refCount = (f.node n).refCount
  access : ∀ {n}, n < f.nodes.size → (g.node n).lastAccess = (f.node n).lastAccess
  fresh : ∀ {n}, f.nodes.size ≤ n → n < g.nodes.size → (g.node n).refCount = 0
  blob : ∀ {n}, n < f.nodes.size → 0 < (f.node n).refCount → (f.node n).blob ≠ none → (g.node n).blob ≠ none

theorem Keeps.refl (f : NamespaceForest) : Keeps f f :=
  ⟨Nat.le_refl _, fun _ => rfl, fun _ => rfl, fun h h' => absurd h' (Nat.not_lt_of_le h), fun _ _ => id⟩

/-- References and access times make no difference to what is stored. -/
theorem Sound.congr (h : Sound count f s) (hs : SameTrie f g) (hh : g.handles = f.handles)
    (hb : ∀ n, (g.node n).blob = (f.node n).blob) : Sound count g s := by
  refine ⟨hs.shape h.shape, fun hn hn' hk => ?_, fun {n x} hn hx => ?_⟩
  · rw [hs.size] at hn hn'
    rw [hs.nodeKey, hs.nodeKey] at hk
    exact h.keys hn hn' hk
  · rw [hs.size] at hn
    rw [hb] at hx
    obtain ⟨hlt, hready, hloc, hlayers, hpay⟩ := h.stored hn hx
    exact ⟨hh ▸ hlt, by rw [handle, hh]; exact hready, by rw [handle, hh, hs.nodeKey]; exact hloc,
      by rw [handle, hh]; exact hlayers, by rw [hs.nodeKey]; exact hpay⟩

theorem create_sound (h : Sound count f s) {r : Bytes} (c : Bytes)
    (hfree : (f.resolve r).isSome ∨ ∀ n < f.nodes.size, (f.node n).nodeKey ≠ r) :
    Sound count (f.getOrCreateNamespace r c).1 s ∧ Keeps f (f.getOrCreateNamespace r c).1 := by
  cases hr : f.resolve r with
  | some ns =>
    rw [getOrCreate_old hr]
    exact ⟨h, Keeps.refl f⟩
  | none =>
    rw [getOrCreate_new hr]
    have hfree : ∀ n < f.nodes.size, (f.node n).nodeKey ≠ r := hfree.resolve_left (by rw [hr]; exact Bool.false_ne_true)
    have hcases : ∀ {n}, n < f.nodes.size + 1 → n < f.nodes.size ∧ (f.addWorld r c).node n = f.node n ∨
        n = f.nodes.size ∧ (f.addWorld r c).node n = virtualRoot r := by
      intro n hn
      rcases Nat.lt_succ_iff_lt_or_eq.mp hn with hn | rfl
      · exact Or.inl ⟨hn, addWorld_old f r c hn⟩
      · exact Or.inr ⟨rfl, addWorld_new f r c⟩
    refine ⟨⟨h.shape.addWorld hr c, fun hn hn' hk => ?_, fun {n x} hn hx => ?_⟩, ⟨Nat.le_succ _, ?_, ?_, ?_, ?_⟩⟩
    · rcases hcases hn with ⟨hn, he⟩ | ⟨hn, he⟩
      · rcases hcases hn' with ⟨hn', he'⟩ | ⟨hn', he'⟩
        · rw [he, he'] at hk
          exact h.keys hn hn' hk
        · rw [he, he'] at hk
          exact absurd hk (hfree _ hn)
      · rcases hcases hn' with ⟨hn', he'⟩ | ⟨hn', he'⟩
        · rw [he, he'] at hk
          exact absurd hk.symm (hfree _ hn')
        · rw [hn, hn']
    · rcases hcases hn with ⟨hn, he⟩ | ⟨hn, he⟩
      · rw [he] at hx
        obtain ⟨hlt, hready, hloc, hlayers, hpay⟩ := h.stored hn hx
        exact ⟨hlt, hready, he ▸ hloc, hlayers, he ▸ hpay⟩
      · rw [he] at hx
        cases hx
    · intro n hn
      rw [addWorld_old f r c hn]
    · intro n hn
      rw [addWorld_old f r c hn]
    · intro n hn hn'
      obtain rfl : n = f.nodes.size := Nat.le_antisymm (Nat.lt_succ_iff.mp hn') hn
      rw [addWorld_new]
      rfl
    · intro n hn _ hb
      rw [addWorld_old f r c hn]
      exact hb

/-- Chunks have keys of their own, so no other chunk loses its entries. -/
theorem evict_sound (h : Sound count f s) {n : NodeId} (hn : n < f.nodes.size) :
    Sound count (evictBlob (inMemoryTierStore P L) f s n).2.1 (evictBlob (inMemoryTierStore P L) f s n).2.2 ∧
      Keeps f (evictBlob (inMemoryTierStore P L) f s n).2.1 := by
  rcases evictBlob_cases (inMemoryTierStore P L) f s n with ⟨x, hx, _, hfree, he⟩ | ⟨_, he⟩
  · rw [he]
    dsimp only
    have hs := SameTrie.modifyNode f n (fun p => { p with blob := none }) fun _ => ⟨rfl, rfl, rfl, rfl, rfl⟩
    have hne : ∀ {m}, m ≠ n → (f.modifyNode n fun p => { p with blob := none }).node m = f.node m :=
      fun hm => f.modifyNode_ne _ hm
    have hother : ∀ {m}, ((f.modifyNode n fun p => { p with blob := none }).node m).refCount = (f.node m).refCount ∧
        ((f.modifyNode n fun p => { p with blob := none }).node m).lastAccess = (f.node m).lastAccess := by
      intro m
      by_cases hm : m = n
      · rw [hm, modifyNode_self]
        exact ⟨rfl, rfl⟩
      · rw [hne hm]
        exact ⟨rfl, rfl⟩
    refine ⟨⟨hs.shape h.shape, fun hk hk' he => ?_, fun {m y} hm hy => ?_⟩, ⟨Nat.le_refl _, fun _ => hother.1,
      fun _ => hother.2, fun hm hm' => absurd hm' (Nat.not_lt_of_le hm), fun {m} hm hpos hb => ?_⟩⟩
    · rw [hs.nodeKey, hs.nodeKey] at he
      exact h.keys hk hk' he
    · by_cases hmn : m = n
      · rw [hmn, modifyNode_self] at hy
        cases hy
      · rw [hne hmn] at hy
        obtain ⟨hlt, hready, hloc, hlayers, payload, hpay, hlen⟩ := h.stored hm hy
        refine ⟨hlt, hready, ?_, hlayers, payload, ?_, hlen⟩
        · rw [hs.nodeKey]
          exact hloc
        · rw [hs.nodeKey]
          have hkey : kvLocator (f.node m).nodeKey ≠ (f.handle x).locator := by
            rw [(h.stored hn hx).locator]
            exact fun hk => hmn (h.keys hm hn (kvLocator_inj hk))
          exact (Dict.get?_erase _ _ _).trans ((if_neg hkey).trans hpay)
    · have hmn : m ≠ n := by
        rintro rfl
        exact absurd hfree (Int.not_le.mpr hpos)
      rw [hne hmn]
      exact hb
  · rw [he]
    exact ⟨h, Keeps.refl f⟩

theorem ingest_inMemory (cfg : WorldKVConfig) (f : NamespaceForest) (s : InMemoryTier P L) (a : IngestArgs P L) :
    ingest (inMemoryTierStore P L) cfg f s a =
      (.ok (f.commit a.parent a.action a.nodeKey a.depth).2,
        fill cfg (f.commit a.parent a.action a.nodeKey a.depth).1
          (f.commit a.parent a.action a.nodeKey a.depth).2 a,
        { blobs := s.blobs.set (kvLocator a.nodeKey) a.kvPayload
          skeletons := s.skeletons.set (latentLocator a.nodeKey) a.latent }) := by
  obtain ⟨s', he⟩ := ingest_synchronous cfg (inMemory_synchronous P L) f s a
  have hs : (ingest (inMemoryTierStore P L) cfg f s a).2.2 =
      { blobs := s.blobs.set (kvLocator a.nodeKey) a.kvPayload
        skeletons := s.skeletons.set (latentLocator a.nodeKey) a.latent } := rfl
  rw [he] at hs ⊢
  dsimp only at hs
  rw [hs]

/-- The committed node has its key, and keys stay distinct. -/
theorem commit_keys (h : Sound count f s) {n : NodeId} {a : ActionKey} {k : Bytes} (d : Int)
    (hn : n < f.nodes.size) (hfree : f.KeyFree n a k) :
    ((f.commit n a k d).1.node (f.commit n a k d).2).nodeKey = k ∧
      ∀ {m m'}, m < (f.commit n a k d).1.nodes.size → m' < (f.commit n a k d).1.nodes.size →
        ((f.commit n a k d).1.node m).nodeKey = ((f.commit n a k d).1.node m').nodeKey → m = m' := by
  unfold KeyFree at hfree
  cases hc : f.child n a with
  | some c =>
    rw [hc] at hfree
    rw [commit_old hc]
    exact ⟨hfree, h.keys⟩
  | none =>
    rw [hc] at hfree
    have hnew : ((f.commit n a k d).1.node (f.commit n a k d).2).nodeKey = k := by
      rw [commit_new hc]
      exact congrArg TrieNode.nodeKey (f.addChild_new hn _)
    refine ⟨hnew, fun {m m'} hm hm' he => ?_⟩
    rcases commit_node_cases hn k d hm with ⟨hlt, cs, hm⟩ | ⟨_, hm, hrec⟩
    · rcases commit_node_cases hn k d hm' with ⟨hlt', cs', hm'⟩ | ⟨_, hm', hrec'⟩
      · rw [hm, hm'] at he
        exact h.keys hlt hlt' he
      · rw [hm, hrec'] at he
        exact absurd he (hfree m hlt)
    · rcases commit_node_cases hn k d hm' with ⟨hlt', cs', hm'⟩ | ⟨_, hm', _⟩
      · rw [hrec, hm'] at he
        exact absurd he.symm (hfree m' hlt')
      · rw [hm, hm']

/-- A commit changes no old node but its list of children. -/
theorem commit_oldNode {n m : NodeId} (hn : n < f.nodes.size) (a : ActionKey) (k : Bytes) (d : Int)
    (hm : m < f.nodes.size) : ∃ cs, (f.commit n a k d).1.node m = { f.node m with children := cs } := by
  cases hc : f.child n a with
  | some c =>
    rw [commit_old hc]
    exact ⟨_, rfl⟩
  | none =>
    rw [commit_new hc]
    exact f.addChild_old hn _ hm

theorem ingest_sound (cfg : WorldKVConfig) (h : Sound count f s) {a : IngestArgs P L}
    (hn : a.parent < f.nodes.size) (hfree : f.KeyFree a.parent a.action a.nodeKey)
    (hlen : a.kvPayload.length = count) (hlayers : (a.newHandle cfg).nLayers = count) :
    Sound count (ingest (inMemoryTierStore P L) cfg f s a).2.1 (ingest (inMemoryTierStore P L) cfg f s a).2.2 ∧
      Keeps f (ingest (inMemoryTierStore P L) cfg f s a).2.1 := by
  rw [ingest_inMemory]
  have hshape := h.shape.commit (a := a.action) hn a.nodeKey a.depth
  obtain ⟨hkey, hkeys⟩ := commit_keys h a.depth hn hfree
  have hcases := fun {m} => commit_node_cases (a := a.action) hn a.nodeKey a.depth (m := m)
  have hhand := commit_handles f a.parent a.action a.nodeKey a.depth
  have hle := commit_le f a.parent a.action a.nodeKey a.depth
  have hlt1 := commit_lt (a := a.action) h.shape hn a.nodeKey a.depth
  have hcommit := fun {m} => commit_oldNode (m := m) hn a.action a.nodeKey a.depth
  generalize f.commit a.parent a.action a.nodeKey a.depth = c at *
  obtain ⟨f1, n⟩ := c
  dsimp only at *
  have hs : SameTrie f1 (fill cfg f1 n a) := fill_sameTrie f1 n a
  have hself : (fill cfg f1 n a).node n = _ := fill_self f1 n a
  have hne : ∀ {m}, m ≠ n → (fill cfg f1 n a).node m = f1.node m := fun hm => fill_ne f1 n a hm
  have hrec : ∀ m, ((fill cfg f1 n a).node m).refCount = (f1.node m).refCount ∧
      ((fill cfg f1 n a).node m).lastAccess = (f1.node m).lastAccess := by
    intro m
    by_cases hm : m = n
    · rw [hm, hself]
      exact ⟨rfl, rfl⟩
    · rw [hne hm]
      exact ⟨rfl, rfl⟩
  refine ⟨⟨hs.shape hshape, fun hm hm' he => ?_, fun {m x} hm hx => ?_⟩, ⟨hs.size ▸ hle, ?_, ?_, ?_, ?_⟩⟩
  · rw [hs.size] at hm hm'
    rw [hs.nodeKey, hs.nodeKey] at he
    exact hkeys hm hm' he
  · rw [hs.size] at hm
    by_cases hmn : m = n
    · subst m
      rw [hself] at hx
      cases hx
      have hnew : (fill cfg f1 n a).handle f1.handles.size = _ := fill_handle_new f1 n a
      refine ⟨?_, by rw [hnew], by rw [hnew, hs.nodeKey, hkey]; rfl, by rw [hnew]; exact hlayers, a.kvPayload, ?_, hlen⟩
      · rw [fill_handles]
        exact Nat.lt_succ_self _
      · rw [hs.nodeKey, hkey, Dict.get?_set_self]
    · rw [hne hmn] at hx
      rcases hcases hm with ⟨hlt, cs, hcs⟩ | ⟨_, he, _⟩
      · rw [hcs] at hx
        obtain ⟨hxlt, hready, hloc, hlay, payload, hpay, hplen⟩ := h.stored hlt hx
        have hxlt1 : x < f1.handles.size := hhand ▸ hxlt
        have hold : (fill cfg f1 n a).handle x = f.handle x := by
          rw [fill_handle_old f1 n a hxlt1, handle, hhand, handle]
        have hkeym : ((fill cfg f1 n a).node m).nodeKey = (f.node m).nodeKey := by
          rw [hne hmn, hcs]
        refine ⟨?_, by rw [hold]; exact hready, by rw [hold, hkeym]; exact hloc, by rw [hold]; exact hlay,
          payload, ?_, hplen⟩
        · rw [fill_handles]
          exact Nat.lt_succ_of_lt hxlt1
        · have hother : kvLocator (f.node m).nodeKey ≠ kvLocator a.nodeKey := by
            intro hk
            rw [← hkeym, hne hmn, ← hkey] at hk
            exact hmn (hkeys hm hlt1 (kvLocator_inj hk))
          rw [hkeym, Dict.get?_set_ne _ _ hother]
          exact hpay
      · exact absurd he hmn
  · intro m hm
    obtain ⟨cs, hcs⟩ := hcommit hm
    rw [(hrec m).1, hcs]
  · intro m hm
    obtain ⟨cs, hcs⟩ := hcommit hm
    rw [(hrec m).2, hcs]
  · intro m hm hm'
    rw [hs.size] at hm'
    rcases hcases hm' with ⟨hlt, _⟩ | ⟨_, _, hnew⟩
    · exact absurd hlt (Nat.not_lt_of_le hm)
    · rw [(hrec m).1, hnew]
  · intro m hm _ hb
    by_cases hmn : m = n
    · rw [hmn, hself]
      exact Option.some_ne_none _
    · obtain ⟨cs, hcs⟩ := hcommit hm
      rw [hne hmn, hcs]
      exact hb

theorem Sound.refs (h : Sound count f s) (d : Int) (path : List NodeId) :
    Sound count (path.foldl (addRef d) f) s :=
  h.congr (foldl_sameTrie (addRef_sameTrie d) path f) (foldl_modify_handles (u := addRef d) (fun _ _ => rfl) path f)
    fun n => by rw [foldl_addRef_node]

theorem Sound.touched (h : Sound count f s) (now : Rat) (path : List NodeId) :
    Sound count (path.foldl (touch now) f) s :=
  h.congr (foldl_sameTrie (touch_sameTrie now) path f) (foldl_modify_handles (u := touch now) (fun _ _ => rfl) path f)
    fun n => by
      obtain ⟨t, ht⟩ := foldl_touch_node now path f n
      rw [ht]

/-- No node of `f` outside the path was touched. -/
structure Untouched (path : List NodeId) (f g : NamespaceForest) : Prop where
  size : f.nodes.size ≤ g.nodes.size
  access : ∀ {n}, n < f.nodes.size → n ∉ path → (g.node n).lastAccess = (f.node n).lastAccess

theorem Keeps.untouched (h : Keeps f g) : Untouched [] f g := ⟨h.size, fun hn _ => h.access hn⟩

theorem refs_untouched (d : Int) (path : List NodeId) (f : NamespaceForest) :
    Untouched [] f (path.foldl (addRef d) f) := by
  refine ⟨Nat.le_of_eq (foldl_sameTrie (addRef_sameTrie d) path f).size.symm, fun _ _ => ?_⟩
  rw [foldl_addRef_node]

theorem touch_untouched (now : Rat) (path : List NodeId) (f : NamespaceForest) :
    Untouched path f (path.foldl (touch now) f) := by
  refine ⟨Nat.le_of_eq (foldl_sameTrie (touch_sameTrie now) path f).size.symm, fun {n} _ hn => ?_⟩
  induction path generalizing f with
  | nil => rfl
  | cons x path ih =>
    rw [List.foldl_cons, ih (touch now f x) (by simpa [touch] using ‹_›) fun hmem => hn (List.mem_cons_of_mem x hmem)]
    unfold touch
    rw [modifyNode_ne _ _ (List.ne_of_not_mem_cons hn)]

end CacheSeek.Proofs.StoredBlobs
