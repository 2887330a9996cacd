import CacheSeek.Stores.Tier
import CacheSeek.Proofs.KeyIdentity
import Std.Data.String.ToNat

namespace CacheSeek.Proofs.StoreKeys
open CacheSeek.Lib CacheSeek.Prefix CacheSeek.Prefix.NamespaceForest CacheSeek.Stores
open CacheSeek.Stores.TensorTier CacheSeek.Proofs.KeyIdentity

theorem hexDigit_not_colon : ∀ k : Fin 16, Nat.digitChar k ≠ ':' := by decide

theorem hex_no_colon {k : Bytes} {c : Char} (hc : c ∈ (hex k).toList) : c ≠ ':' := by
  simp only [hex, String.toList_ofList, List.mem_flatMap, hexByte, List.mem_cons,
    List.not_mem_nil, or_false] at hc
  obtain ⟨b, _, rfl | rfl⟩ := hc
  · exact hexDigit_not_colon ⟨b.toNat / 16 % 16, Nat.mod_lt _ (by omega)⟩
  · exact hexDigit_not_colon ⟨b.toNat % 16, Nat.mod_lt _ (by omega)⟩

theorem split_colon {p q s t : List Char} (hp : ∀ c ∈ p, c ≠ ':') (hq : ∀ c ∈ q, c ≠ ':')
    (h : p ++ ':' :: s = q ++ ':' :: t) : p = q ∧ s = t := by
  induction p generalizing q with
  | nil =>
    cases q with
    | nil => exact ⟨rfl, (List.cons.inj h).2⟩
    | cons c q => exact absurd (List.cons.inj h).1.symm (hq c (by simp))
  | cons c p ih =>
    cases q with
    | nil => exact absurd (List.cons.inj h).1 (hp c (by simp))
    | cons d q =>
      simp only [List.cons_append, List.cons.injEq] at h
      obtain ⟨rfl, h⟩ := h
      obtain ⟨rfl, rfl⟩ := ih (fun d hd => hp d (by simp [hd])) (fun d hd => hq d (by simp [hd])) h
      exact ⟨rfl, rfl⟩

/-- A locator names the node key it was made from. -/
theorem hex_append_inj {k k' : Bytes} {s t : String}
    (h : hex k ++ (":" ++ s) = hex k' ++ (":" ++ t)) : k = k' ∧ s = t := by
  have h := congrArg String.toList h
  simp only [String.toList_append] at h
  obtain ⟨h1, h2⟩ := split_colon (fun _ => hex_no_colon) (fun _ => hex_no_colon) h
  exact ⟨hex_injective (String.toList_inj.mp h1), String.toList_inj.mp h2⟩

theorem kvLocator_inj {k k' : Bytes} (h : kvLocator k = kvLocator k') : k = k' :=
  (hex_append_inj (s := "kv") (t := "kv") h).1

theorem latentLocator_inj {k k' : Bytes} (h : latentLocator k = latentLocator k') : k = k' :=
  (hex_append_inj (s := "lat") (t := "lat") h).1

def partKey (k : Bytes) (layer : Nat) (part : Char) : String :=
  layerKey (kvLocator k) layer ++ String.ofList [':', part]

theorem partKey_eq (k : Bytes) (layer : Nat) (part : Char) :
    partKey k layer part =
      hex k ++ (":" ++ ("kv:L" ++ Nat.repr layer ++ String.ofList [':', part])) := by
  apply String.toList_inj.mp
  simp [partKey, layerKey, kvLocator, String.toList_append]

theorem partKey_inj {k k' : Bytes} {i j : Nat} {c d : Char} (h : partKey k i c = partKey k' j d) :
    k = k' ∧ i = j ∧ c = d := by
  rw [partKey_eq, partKey_eq] at h
  obtain ⟨rfl, hs⟩ := hex_append_inj h
  have hs := congrArg String.toList hs
  rw [String.toList_append, String.toList_append, String.toList_append, String.toList_append] at hs
  simp only [String.toList_ofList] at hs
  obtain ⟨h1, h2⟩ := List.append_inj' hs rfl
  simp only [List.cons.injEq, and_true, true_and] at h2
  exact ⟨rfl, Nat.repr_injective (String.toList_inj.mp (List.append_cancel_left h1)), h2⟩

/-- No tensor of a blob is stored under a skeleton's key. -/
theorem partKey_ne_latentLocator {k k' : Bytes} {i : Nat} {c : Char} :
    partKey k i c ≠ latentLocator k' := by
  intro h
  rw [partKey_eq] at h
  obtain ⟨_, hs⟩ := hex_append_inj (t := "lat") h
  have hs := congrArg (fun s => s.toList.head?) hs
  simp [String.toList_append] at hs

section
variable {τ : Type}

def pairs (payload : List (τ × τ)) : List (LayerValue τ) :=
  payload.map fun p => .pair (some p.1) (some p.2)

theorem mem_payloadWrites {k : Bytes} {n : Nat} {payload : List (τ × τ)} {w : String × Option τ} :
    w ∈ payloadWrites (kvLocator k) n (pairs payload) ↔
      ∃ i p, payload[i]? = some p ∧
        (w = (partKey k (n + i) 'k', some p.1) ∨ w = (partKey k (n + i) 'v', some p.2)) := by
  induction payload generalizing n with
  | nil => simp [pairs, payloadWrites]
  | cons p payload ih =>
    have ih := ih (n := n + 1)
    simp only [pairs] at ih
    simp only [pairs, List.map_cons, payloadWrites, List.mem_cons, ih]
    constructor
    · rintro (rfl | rfl | ⟨i, q, hq, hw⟩)
      · exact ⟨0, p, rfl, Or.inl rfl⟩
      · exact ⟨0, p, rfl, Or.inr rfl⟩
      · refine ⟨i + 1, q, by simpa using hq, ?_⟩
        rwa [show n + (i + 1) = n + 1 + i by omega]
    · rintro ⟨i, q, hq, hw⟩
      cases i with
      | zero =>
        simp only [List.getElem?_cons_zero, Option.some.injEq] at hq
        subst q
        rcases hw with rfl | rfl
        · exact Or.inl rfl
        · exact Or.inr (Or.inl rfl)
      | succ i =>
        rw [show n + (i + 1) = n + 1 + i by omega] at hw
        exact Or.inr (Or.inr ⟨i, q, by simpa using hq, hw⟩)

def Content (payloadOf : Bytes → List (τ × τ)) (latentOf : Bytes → τ) (w : String × Option τ) : Prop :=
  ∃ k, w = (latentLocator k, some (latentOf k)) ∨
    w ∈ payloadWrites (kvLocator k) 0 (pairs (payloadOf k))

/-- One key never has two contents. -/
theorem Content.unique {payloadOf : Bytes → List (τ × τ)} {latentOf : Bytes → τ} {key : String}
    {t t' : Option τ} (h : Content payloadOf latentOf (key, t))
    (h' : Content payloadOf latentOf (key, t')) : t = t' := by
  obtain ⟨k, h⟩ := h
  obtain ⟨k', h'⟩ := h'
  simp only [mem_payloadWrites, Prod.mk.injEq, Nat.zero_add] at h h'
  rcases h with ⟨rfl, rfl⟩ | ⟨i, p, hp, ⟨rfl, rfl⟩ | ⟨rfl, rfl⟩⟩ <;>
    rcases h' with ⟨he, rfl⟩ | ⟨j, q, hq, ⟨he, rfl⟩ | ⟨he, rfl⟩⟩
  · rw [latentLocator_inj he]
  · exact absurd he.symm partKey_ne_latentLocator
  · exact absurd he.symm partKey_ne_latentLocator
  · exact absurd he partKey_ne_latentLocator
  · obtain ⟨rfl, rfl, _⟩ := partKey_inj he
    rw [hp] at hq
    cases hq
    rfl
  · exact absurd (partKey_inj he).2.2 (by decide)
  · exact absurd he partKey_ne_latentLocator
  · exact absurd (partKey_inj he).2.2 (by decide)
  · obtain ⟨rfl, rfl, _⟩ := partKey_inj he
    rw [hp] at hq
    cases hq
    rfl

end

end CacheSeek.Proofs.StoreKeys
