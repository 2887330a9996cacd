import CacheSeek.Proofs.SnapshotLoad
import CacheSeek.Proofs.StoreKeys

namespace CacheSeek.Proofs.WorldIdentity
open CacheSeek.Lib CacheSeek.Prefix CacheSeek.Prefix.NamespaceForest CacheSeek.Stores.TensorTier
open CacheSeek.Proofs.KeyIdentity CacheSeek.Proofs.SnapshotLoad CacheSeek.Proofs.StoreKeys

variable {digest : Bytes → Bytes}

/-- The root hash reads nothing but the world and the fingerprint. -/
theorem sessionRootHash_congr {s t : SessionConfig} (h : SameWorld s t) (digest : Bytes → Bytes) (fp : Bytes) :
    sessionRootHash digest s fp = sessionRootHash digest t fp := by
  have hblob : (SESSION_KEY_FIELDS.map fun f => (f, (s.attr f).toJson)) =
      SESSION_KEY_FIELDS.map fun f => (f, (t.attr f).toJson) :=
    List.map_congr_left fun f hf => by rw [h.fields f hf]
  unfold sessionRootHash
  rw [h.imageMode, h.imageSize, h.imageBytes, h.prompt, hblob]

/-- Two sessions have one root hash exactly when they share the world and the fingerprint. -/
theorem sessionRootHash_eq_iff (hd : Function.Injective digest) {s t : SessionConfig} {fp fp' r r' : Bytes}
    (hs : sessionRootHash digest s fp = some r) (ht : sessionRootHash digest t fp' = some r') :
    r = r' ↔ SameWorld s t ∧ fp = fp' := by
  constructor
  · rintro rfl
    exact sessionRootHash_inj hd hs ht
  · rintro ⟨hw, rfl⟩
    rw [sessionRootHash_congr hw, ht] at hs
    exact (Option.some.inj hs).symm

theorem take_eq_iff {α : Type} {l l' : List α} {n : Nat} :
    l.take n = l'.take n ↔ ∀ m < n, l[m]? = l'[m]? := by
  constructor
  · intro he m hm
    have := congrArg (fun x => x[m]?) he
    simpa only [List.getElem?_take, if_pos hm] using this
  · intro he
    apply List.ext_getElem?
    intro m
    simp only [List.getElem?_take]
    split
    · rename_i hm
      exact he m hm
    · rfl

/-- Keys of two chains are equal exactly when they are of one path of one root. -/
theorem chainKey_eq_iff (hd : Function.Injective digest) {r r' : Bytes} (hr : Apart digest r)
    (hr' : Apart digest r') {acts acts' : List ActionKey} {chain chain' : List Bytes}
    (hc : buildActionChain digest r (acts.map ActionKey.bytes) = some chain)
    (hc' : buildActionChain digest r' (acts'.map ActionKey.bytes) = some chain') {i j : Nat} {k k' : Bytes}
    (hk : chain[i]? = some k) (hk' : chain'[j]? = some k') :
    k = k' ↔ i = j ∧ (∀ n ≤ i, acts[n]? = acts'[n]?) ∧ r = r' := by
  obtain ⟨hlen, hget⟩ := buildActionChain_get hc
  obtain ⟨hlen', hget'⟩ := buildActionChain_get hc'
  have hi : i < acts.length := hlen ▸ (List.getElem?_eq_some_iff.mp hk).1
  have hj : j < acts'.length := hlen' ▸ (List.getElem?_eq_some_iff.mp hk').1
  rw [hget i hi] at hk
  rw [hget' j hj] at hk'
  constructor
  · rintro rfl
    obtain ⟨hroot, hpath⟩ := pathKey_inj hd hr hr' hk hk'
    have hij : i = j := by
      have := congrArg List.length hpath
      simp only [List.length_take] at this
      omega
    subst hij
    refine ⟨rfl, fun n hn => ?_, hroot⟩
    exact take_eq_iff.mp hpath n (by omega)
  · rintro ⟨rfl, hacts, rfl⟩
    have hpath : acts.take (i + 1) = acts'.take (i + 1) :=
      take_eq_iff.mpr fun n hn => hacts n (by omega)
    rw [hpath, hk'] at hk
    exact (Option.some.inj hk).symm

/-- A key of a chain is a node key. -/
theorem chainKey_nodeKey {r : Bytes} {acts : List ActionKey} {chain : List Bytes}
    (hc : buildActionChain digest r (acts.map ActionKey.bytes) = some chain) {k : Bytes} (hk : k ∈ chain) :
    ∃ parent action, nodeKey digest parent action = some k := by
  obtain ⟨hlen, hget⟩ := buildActionChain_get hc
  obtain ⟨i, hi, rfl⟩ := List.mem_iff_getElem.mp hk
  have hpath := hget i (hlen ▸ hi)
  rw [List.getElem?_eq_getElem hi, List.take_add_one, List.getElem?_eq_getElem (hlen ▸ hi), Option.toList_some,
    pathKey_snoc] at hpath
  obtain ⟨parent, _, hnode⟩ := Option.bind_eq_some_iff.mp hpath.symm
  exact ⟨parent, _, hnode⟩

/-- What a node stores, under which key: its blob, its skeleton, and the tensors of a layer. -/
inductive Locator (k : Bytes) : String → Prop
  | kv : Locator k (kvLocator k)
  | latent : Locator k (latentLocator k)
  | layer (layer : Nat) : Locator k (layerKey (kvLocator k) layer)
  | part (layer : Nat) (part : Char) : Locator k (partKey k layer part)

/-- A locator starts with the hexadecimal of its node's key. -/
theorem Locator.eq_append {k : Bytes} {s : String} (h : Locator k s) : ∃ t, s = hex k ++ (":" ++ t) := by
  cases h with
  | kv => exact ⟨"kv", rfl⟩
  | latent => exact ⟨"lat", rfl⟩
  | layer layer =>
    refine ⟨"kv:L" ++ Nat.repr layer, String.toList_inj.mp ?_⟩
    simp [layerKey, kvLocator, String.toList_append]
  | part layer part => exact ⟨_, partKey_eq k layer part⟩

theorem Locator.unique {k k' : Bytes} {s : String} (h : Locator k s) (h' : Locator k' s) : k = k' := by
  obtain ⟨t, ht⟩ := h.eq_append
  obtain ⟨t', ht'⟩ := h'.eq_append
  exact (hex_append_inj (ht.symm.trans ht')).1

/-- What the node keys of two sessions' chains say about them. -/
structure Identified (digest : Bytes → Bytes) (s t : SessionConfig) (fp fp' : Bytes)
    (acts acts' : List ActionKey) (chain chain' : List Bytes) : Prop where
  keys : ∀ (i j : Nat) (k k' : Bytes), chain[i]? = some k → chain'[j]? = some k' →
    (k = k' ↔ i = j ∧ (∀ n ≤ i, acts[n]? = acts'[n]?) ∧ SameWorld s t ∧ fp = fp')
  notRoot : ∀ k ∈ chain, ∀ imageFp promptFp cfgHash, rootHash digest imageFp promptFp cfgHash ≠ some k
  locators : ∀ k ∈ chain, ∀ k' ∈ chain', ∀ l, Locator k l → Locator k' l → SameWorld s t ∧ fp = fp'

/-- The encoding under the hash loses nothing, and a node key identifies the world, the fingerprint
and the actions that lead to it. -/
theorem node_keys_identify (hd : Function.Injective digest) :
    (∀ ps qs b, lengthPrefixed ps = some b → lengthPrefixed qs = some b → ps = qs) ∧
    ∀ (s t : SessionConfig) (fp fp' r r' : Bytes) (acts acts' : List ActionKey) (chain chain' : List Bytes),
      sessionRootHash digest s fp = some r → sessionRootHash digest t fp' = some r' →
      buildActionChain digest r (acts.map ActionKey.bytes) = some chain →
      buildActionChain digest r' (acts'.map ActionKey.bytes) = some chain' →
      Identified digest s t fp fp' acts acts' chain chain' := by
  refine ⟨fun ps qs b => lengthPrefixed_inj, ?_⟩
  intro s t fp fp' r r' acts acts' chain chain' hs ht hc hc'
  have hkeys : ∀ (i j : Nat) (k k' : Bytes), chain[i]? = some k → chain'[j]? = some k' →
      (k = k' ↔ i = j ∧ (∀ n ≤ i, acts[n]? = acts'[n]?) ∧ SameWorld s t ∧ fp = fp') := by
    intro i j k k' hk hk'
    rw [chainKey_eq_iff hd (sessionRoot_apart hd hs) (sessionRoot_apart hd ht) hc hc' hk hk',
      sessionRootHash_eq_iff hd hs ht]
  refine ⟨hkeys, ?_, ?_⟩
  · intro k hk imageFp promptFp cfgHash hroot
    obtain ⟨parent, action, hnode⟩ := chainKey_nodeKey hc hk
    exact nodeKey_ne_rootHash hd hnode hroot
  · intro k hk k' hk' l hl hl'
    obtain rfl := hl.unique hl'
    obtain ⟨i, hi, rfl⟩ := List.mem_iff_getElem.mp hk
    obtain ⟨j, hj, he⟩ := List.mem_iff_getElem.mp hk'
    have hj' : chain'[j]? = some chain[i] := by rw [List.getElem?_eq_getElem hj, he]
    exact ((hkeys i j _ _ (List.getElem?_eq_getElem hi) hj').mp rfl).2.2

def demoSession (pixel : UInt8) : SessionConfig := ⟨"RGB", (1, 1), [pixel], "walk", fun _ => .none⟩

theorem node_keys_identify_two_images :
    ∃ r r' chain chain', sessionRootHash id (demoSession 0) [] = some r ∧
      sessionRootHash id (demoSession 1) [] = some r' ∧
      buildActionChain id r ([.str "u", .int 1].map ActionKey.bytes) = some chain ∧
      buildActionChain id r' ([.str "u", .str "1"].map ActionKey.bytes) = some chain' ∧
      Identified id (demoSession 0) (demoSession 1) [] [] [.str "u", .int 1] [.str "u", .str "1"] chain chain' := by
  have h : ((sessionRootHash id (demoSession 0) []).bind fun r =>
      buildActionChain id r ([.str "u", .int 1].map ActionKey.bytes)).isSome = true := by decide +kernel
  have h' : ((sessionRootHash id (demoSession 1) []).bind fun r =>
      buildActionChain id r ([.str "u", .str "1"].map ActionKey.bytes)).isSome = true := by decide +kernel
  obtain ⟨chain, hchain⟩ := Option.isSome_iff_exists.mp h
  obtain ⟨chain', hchain'⟩ := Option.isSome_iff_exists.mp h'
  obtain ⟨r, hr, hc⟩ := Option.bind_eq_some_iff.mp hchain
  obtain ⟨r', hr', hc'⟩ := Option.bind_eq_some_iff.mp hchain'
  exact ⟨r, r', chain, chain', hr, hr', hc, hc',
    (node_keys_identify Function.injective_id).2 _ _ _ _ _ _ _ _ _ _ hr hr' hc hc'⟩

end CacheSeek.Proofs.WorldIdentity
