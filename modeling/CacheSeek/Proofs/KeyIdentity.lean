import CacheSeek.Prefix.Keys
import CacheSeek.Lib.JsonText

namespace CacheSeek.Proofs.KeyIdentity
open CacheSeek.Lib CacheSeek.Prefix

theorem utf8_injective : Function.Injective utf8 := by
  intro s t h
  apply String.toByteArray_inj.mp
  exact ByteArray.ext (Array.toList_inj.mp h)

/-- Reading a key back skips none of its digits. -/
theorem hexDigit_not_space : ∀ k : Fin 16, isSpaceByte (Nat.digitChar k) = false := by decide

theorem hexDigit_space (n : Nat) : isSpaceByte (Json.hexDigit n) = false :=
  hexDigit_not_space ⟨n % 16, Nat.mod_lt n (by omega)⟩

theorem fromHexChars_hex (b : Bytes) : fromHexChars (b.flatMap hexByte) = some b := by
  induction b with
  | nil => rfl
  | cons x b ih =>
    have hx := x.toNat_lt
    have e : 16 * (x.toNat / 16 % 16) + x.toNat % 16 = x.toNat := by omega
    simp only [List.flatMap_cons, hexByte, List.cons_append, List.nil_append, fromHexChars,
      hexDigit_space, Bool.false_eq_true, ↓reduceIte, Json.hexVal_hexDigit, ih,
      Option.bind_eq_bind, Option.bind_some, e, UInt8.ofNat_toNat]

/-- `bytes.fromhex(b.hex())` is `b`. -/
theorem fromHex_hex (b : Bytes) : fromHex (hex b) = some b := by
  simp only [fromHex, hex, String.toList_ofList, fromHexChars_hex]

theorem hex_injective : Function.Injective hex := by
  intro a b h
  have := congrArg fromHex h
  simpa only [fromHex_hex, Option.some.injEq] using this

theorem littleEndian_length (k n : Nat) : (littleEndian k n).length = k := by
  induction k generalizing n with
  | zero => rfl
  | succ k ih => simp [littleEndian, ih]

/-- Lengths are written in eight bytes, so two of them differ there if at all. -/
theorem littleEndian_inj {k n m : Nat} (hn : n < 256 ^ k) (hm : m < 256 ^ k)
    (h : littleEndian k n = littleEndian k m) : n = m := by
  induction k generalizing n m with
  | zero =>
    simp only [Nat.pow_zero] at hn hm
    omega
  | succ k ih =>
    simp only [littleEndian, List.cons.injEq] at h
    have hd : n / 256 = m / 256 := by
      apply ih _ _ h.2
      · rw [Nat.pow_succ] at hn
        exact Nat.div_lt_of_lt_mul (by rw [Nat.mul_comm]; exact hn)
      · rw [Nat.pow_succ] at hm
        exact Nat.div_lt_of_lt_mul (by rw [Nat.mul_comm]; exact hm)
    have hmod : n % 256 = m % 256 := by
      have := congrArg UInt8.toNat h.1
      simpa using this
    omega

theorem toBytes8_length {n : Nat} {b : Bytes} (h : toBytes8 n = some b) : b.length = 8 := by
  unfold toBytes8 at h
  split at h
  · cases h
    exact littleEndian_length 8 n
  · cases h

theorem toBytes8_inj {n m : Nat} {b : Bytes} (hn : toBytes8 n = some b)
    (hm : toBytes8 m = some b) : n = m := by
  unfold toBytes8 at hn hm
  split at hn
  · split at hm
    · rename_i h1 h2
      apply littleEndian_inj (k := 8) (by simpa using h1) (by simpa using h2)
      rw [Option.some.inj hn, Option.some.inj hm]
    · cases hm
  · cases hn

/-- Each part is preceded by its length, which tells where it ends. -/
theorem lengthPrefixed_cons {p : Bytes} {ps : List Bytes} {b : Bytes} :
    lengthPrefixed (p :: ps) = some b ↔ ∃ len rest, toBytes8 p.length = some len ∧
      lengthPrefixed ps = some rest ∧ b = len ++ (p ++ rest) := by
  simp only [lengthPrefixed, Option.bind_eq_bind, Option.bind_eq_some_iff, Option.some.injEq,
    List.append_assoc]
  constructor
  · rintro ⟨len, hl, rest, hr, rfl⟩
    exact ⟨len, rest, hl, hr, rfl⟩
  · rintro ⟨len, rest, hl, hr, rfl⟩
    exact ⟨len, hl, rest, hr, rfl⟩

/-- The encoding loses nothing: each length says where its part ends. -/
theorem lengthPrefixed_inj {ps qs : List Bytes} {b : Bytes} (hp : lengthPrefixed ps = some b)
    (hq : lengthPrefixed qs = some b) : ps = qs := by
  induction ps generalizing qs b with
  | nil =>
    cases hp
    cases qs with
    | nil => rfl
    | cons q qs =>
      obtain ⟨len, rest, hl, _, he⟩ := lengthPrefixed_cons.mp hq
      have := toBytes8_length hl
      have := congrArg List.length he
      simp only [List.length_append, List.length_nil] at this
      omega
  | cons p ps ih =>
    obtain ⟨len, rest, hl, hr, rfl⟩ := lengthPrefixed_cons.mp hp
    cases qs with
    | nil =>
      simp only [lengthPrefixed, Option.some.injEq] at hq
      have := toBytes8_length hl
      have := congrArg List.length hq
      simp only [List.length_append, List.length_nil] at this
      omega
    | cons q qs =>
      obtain ⟨len', rest', hl', hr', he⟩ := lengthPrefixed_cons.mp hq
      obtain ⟨hlen, htail⟩ := List.append_inj he
        ((toBytes8_length hl).trans (toBytes8_length hl').symm)
      obtain ⟨hpq, hrest⟩ := List.append_inj htail (toBytes8_inj hl (hlen ▸ hl'))
      rw [hpq, ih hr (hrest ▸ hr')]

section
variable {digest : Bytes → Bytes} (hd : Function.Injective digest)
include hd

/-- Equal hashes come from equal lists of parts. -/
theorem sha256_inj {ps qs : List Bytes} {b : Bytes} (hp : sha256 digest ps = some b)
    (hq : sha256 digest qs = some b) : ps = qs := by
  obtain ⟨x, hx, ex⟩ := Option.map_eq_some_iff.mp hp
  obtain ⟨y, hy, ey⟩ := Option.map_eq_some_iff.mp hq
  have := hd (ex.trans ey.symm)
  subst y
  exact lengthPrefixed_inj hx hy

/-- The digest of a chunk gives back its parent's key and its action. -/
theorem nodeKey_inj {p q a b k : Bytes} (h1 : nodeKey digest p a = some k)
    (h2 : nodeKey digest q b = some k) : p = q ∧ a = b := by
  have := sha256_inj hd h1 h2
  simp only [List.cons.injEq, and_true, true_and] at this
  exact this

/-- The digest of a world gives back all three of its parts. -/
theorem rootHash_inj {i p c i' p' c' r : Bytes} (h1 : rootHash digest i p c = some r)
    (h2 : rootHash digest i' p' c' = some r) : i = i' ∧ p = p' ∧ c = c' := by
  have := sha256_inj hd h1 h2
  simp only [List.cons.injEq, and_true, true_and] at this
  exact this

/-- No chunk key is a namespace root. -/
theorem nodeKey_ne_rootHash {p a i q c k : Bytes} (h1 : nodeKey digest p a = some k)
    (h2 : rootHash digest i q c = some k) : False := by
  have := sha256_inj hd h2 h1
  simp at this

end

section
variable {digest : Bytes → Bytes}

/-- The key a path of actions leads to from the key `k`. -/
def pathKey (digest : Bytes → Bytes) (k : Bytes) : List ActionKey → Option Bytes
  | [] => some k
  | a :: path => (nodeKey digest k a.bytes).bind fun k => pathKey digest k path

theorem pathKey_append (k : Bytes) (p q : List ActionKey) :
    pathKey digest k (p ++ q) = (pathKey digest k p).bind fun k => pathKey digest k q := by
  induction p generalizing k with
  | nil => rfl
  | cons a p ih =>
    simp only [List.cons_append, pathKey]
    cases nodeKey digest k a.bytes with
    | none => rfl
    | some k => exact ih k

theorem pathKey_snoc (k : Bytes) (p : List ActionKey) (a : ActionKey) :
    pathKey digest k (p ++ [a]) = (pathKey digest k p).bind fun k => nodeKey digest k a.bytes := by
  rw [pathKey_append]
  congr 1
  funext k
  simp only [pathKey]
  cases nodeKey digest k a.bytes <;> rfl

/-- A chain lists the keys of all nonempty prefixes of its path. -/
theorem buildActionChain_get {k : Bytes} {path : List ActionKey} {chain : List Bytes}
    (h : buildActionChain digest k (path.map ActionKey.bytes) = some chain) :
    chain.length = path.length ∧
      ∀ i, i < path.length → chain[i]? = pathKey digest k (path.take (i + 1)) := by
  induction path generalizing k chain with
  | nil =>
    cases h
    exact ⟨rfl, fun i hi => absurd hi (Nat.not_lt_zero i)⟩
  | cons a path ih =>
    simp only [List.map_cons, buildActionChain, Option.bind_eq_bind, Option.bind_eq_some_iff,
      Option.some.injEq] at h
    obtain ⟨k', hk, keys, hkeys, rfl⟩ := h
    obtain ⟨hlen, hget⟩ := ih hkeys
    refine ⟨by simp [hlen], ?_⟩
    intro i hi
    cases i with
    | zero => simp [pathKey, hk]
    | succ i => simpa [pathKey, hk] using hget i (by simpa using hi)

/-- A path with a key has a chain, which ends in that key. -/
theorem buildActionChain_of_pathKey {r k : Bytes} {path : List ActionKey}
    (h : pathKey digest r path = some k) :
    ∃ chain, buildActionChain digest r (path.map ActionKey.bytes) = some chain ∧
      chain.getLastD r = k := by
  induction path generalizing r with
  | nil => exact ⟨[], rfl, by simpa [pathKey] using h⟩
  | cons a path ih =>
    obtain ⟨k', hk, hp⟩ := Option.bind_eq_some_iff.mp h
    obtain ⟨chain, hc, hl⟩ := ih hp
    refine ⟨k' :: chain, ?_, ?_⟩
    · simp [buildActionChain, hk, hc]
    · rw [List.getLastD_cons]
      exact hl

end

/-- Equal canonical bytes come from the same members in any order. -/
theorem canonicalJsonBytes_inj {i j : Json} (h : canonicalJsonBytes i = canonicalJsonBytes j) :
    sortKeys i = sortKeys j :=
  Json.dumps_injective _ (utf8_injective h)

theorem ActionKey.toJson_inj : Function.Injective ActionKey.toJson := by
  intro a b h
  cases a <;> cases b <;> simp_all [ActionKey.toJson]

theorem sortKeys_action (a : ActionKey) : sortKeys a.toJson = a.toJson := by
  cases a <;> simp [ActionKey.toJson, sortKeys]

/-- Distinct actions have distinct bytes. -/
theorem ActionKey.bytes_inj : Function.Injective ActionKey.bytes := by
  intro a b h
  have := canonicalJsonBytes_inj h
  rw [sortKeys_action, sortKeys_action] at this
  exact ActionKey.toJson_inj this

theorem Scalar.toJson_inj : Function.Injective Scalar.toJson := by
  intro a b h
  cases a <;> cases b <;> simp_all [Scalar.toJson]

theorem sortKeys_scalar (a : Scalar) : sortKeys a.toJson = a.toJson := by
  cases a <;> simp [Scalar.toJson, sortKeys]

/-- The fields of a session are listed in sorted order already. -/
theorem sortMembers_scalars (attr : String → Scalar) (fs : List String) :
    sortMembers (fs.map fun f => (f, (attr f).toJson)) = fs.map fun f => (f, (attr f).toJson) := by
  induction fs with
  | nil => simp [sortMembers]
  | cons f fs ih => simp only [List.map_cons, sortMembers, ih, sortKeys_scalar]

/-- Sorting an object's members does not change which value a field has. -/
theorem fields_inj {attr attr' : String → Scalar} {fs : List String}
    (h : sortKeys (.obj (fs.map fun f => (f, (attr f).toJson))) =
      sortKeys (.obj (fs.map fun f => (f, (attr' f).toJson)))) : ∀ f ∈ fs, attr f = attr' f := by
  simp only [sortKeys, Json.obj.injEq, sortMembers_scalars] at h
  have hp : (fs.map fun f => (f, (attr f).toJson)).Perm (fs.map fun f => (f, (attr' f).toJson)) :=
    (List.perm_insertionSort _ _).symm.trans
      ((List.Perm.of_eq h).trans (List.perm_insertionSort _ _))
  intro f hf
  obtain ⟨g, _, he⟩ := List.mem_map.mp (hp.mem_iff.mp (List.mem_map.mpr ⟨f, hf, rfl⟩))
  simp only [Prod.mk.injEq] at he
  obtain ⟨rfl, he⟩ := he
  exact (Scalar.toJson_inj he).symm

/-- What a session's results may depend on, as far as its root hash can tell. -/
structure SameWorld (s t : SessionConfig) : Prop where
  imageMode : s.imageMode = t.imageMode
  imageSize : s.imageSize = t.imageSize
  imageBytes : s.imageBytes = t.imageBytes
  prompt : strip s.prompt = strip t.prompt
  fields : ∀ f ∈ SESSION_KEY_FIELDS, s.attr f = t.attr f

/-- Sessions that share a root hash agree on everything the hash reads. -/
theorem sessionRootHash_inj {digest : Bytes → Bytes} (hd : Function.Injective digest)
    {s t : SessionConfig} {fp fp' r : Bytes} (hs : sessionRootHash digest s fp = some r)
    (ht : sessionRootHash digest t fp' = some r) : SameWorld s t ∧ fp = fp' := by
  simp only [sessionRootHash, Option.bind_eq_bind, Option.bind_eq_some_iff] at hs ht
  obtain ⟨img, himg, pr, hpr, cfg, hcfg, hr⟩ := hs
  obtain ⟨img', himg', pr', hpr', cfg', hcfg', hr'⟩ := ht
  obtain ⟨rfl, rfl, rfl⟩ := rootHash_inj hd hr hr'
  have h1 := sha256_inj hd himg himg'
  have h2 := sha256_inj hd hpr hpr'
  have h3 := sha256_inj hd hcfg hcfg'
  simp only [List.cons.injEq, and_true, true_and] at h1 h2 h3
  obtain ⟨hmode, hsize, hbytes⟩ := h1
  have hsize := canonicalJsonBytes_inj hsize
  simp only [sortKeys, sortItems, Json.arr.injEq, List.cons.injEq, Json.int.injEq, and_true] at hsize
  exact ⟨⟨utf8_injective hmode, Prod.ext hsize.1 hsize.2, hd hbytes, utf8_injective h2,
    fields_inj (canonicalJsonBytes_inj h3.1)⟩, h3.2⟩

end CacheSeek.Proofs.KeyIdentity
