import CacheSeek.Proofs.StoreKeys
import CacheSeek.Stores.TensorStore
import Mathlib.Logic.Function.Basic

namespace CacheSeek.Proofs.StoreSlots
open CacheSeek.Lib CacheSeek.Prefix CacheSeek.Prefix.NamespaceForest CacheSeek.Stores
open CacheSeek.Stores.TensorTier CacheSeek.Proofs.StoreKeys

/-- The forms a layer can be stored in: the two halves of a pair, or one tensor. -/
inductive Part where
  | k
  | v
  | whole
  deriving DecidableEq

def Part.suffix : Part → List Char
  | .k => [':', 'k']
  | .v => [':', 'v']
  | .whole => []

inductive Slot where
  | layer (node : Bytes) (layer : Nat) (part : Part)
  | latent (node : Bytes)
  deriving DecidableEq

def Slot.key : Slot → String
  | .layer node i part => layerKey (kvLocator node) i ++ String.ofList part.suffix
  | .latent node => latentLocator node

theorem Slot.key_whole (node : Bytes) (i : Nat) :
    (Slot.layer node i .whole).key = layerKey (kvLocator node) i := by
  apply String.toList_inj.mp
  simp [Slot.key, Part.suffix]

theorem repr_no_colon (i : Nat) {c : Char} (hc : c ∈ (Nat.repr i).toList) : c ≠ ':' := by
  intro h
  subst c
  rw [Nat.toList_repr] at hc
  have := Json.toDigits_digit hc
  simp at this

theorem layer_key_eq (node : Bytes) (i : Nat) (part : Part) :
    (Slot.layer node i part).key =
      hex node ++ (":" ++ ("kv:L" ++ Nat.repr i ++ String.ofList part.suffix)) := by
  apply String.toList_inj.mp
  simp [Slot.key, layerKey, kvLocator, String.toList_append]

theorem Part.suffix_inj {p q : Part} {i j : Nat}
    (h : (Nat.repr i).toList ++ p.suffix = (Nat.repr j).toList ++ q.suffix) : i = j ∧ p = q := by
  have hi : ∀ c ∈ (Nat.repr i).toList, c ≠ ':' := fun _ => repr_no_colon i
  have hj : ∀ c ∈ (Nat.repr j).toList, c ≠ ':' := fun _ => repr_no_colon j
  have hcolon : ∀ {n : Nat} {l l' : List Char}, (Nat.repr n).toList = l ++ ':' :: l' → False := fun {n l l'} he =>
    repr_no_colon n (by rw [he]; simp) rfl
  have hrepr : ∀ {a b : Nat}, (Nat.repr a).toList = (Nat.repr b).toList → a = b := fun he =>
    Nat.repr_injective (String.toList_inj.mp he)
  cases p <;> cases q <;> simp only [Part.suffix, List.append_nil] at h
  case whole.whole => exact ⟨hrepr h, rfl⟩
  case whole.k => exact (hcolon h).elim
  case whole.v => exact (hcolon h).elim
  case k.whole => exact (hcolon h.symm).elim
  case v.whole => exact (hcolon h.symm).elim
  all_goals
    obtain ⟨h1, h2⟩ := split_colon hi hj h
    first
      | exact ⟨hrepr h1, rfl⟩
      | exact absurd h2 (by decide)

theorem Slot.key_injective : Function.Injective Slot.key := by
  intro a b h
  cases a with
  | latent node =>
    cases b with
    | latent node' => rw [latentLocator_inj h]
    | layer node' j q =>
      rw [layer_key_eq] at h
      obtain ⟨_, hs⟩ := hex_append_inj (s := "lat") h
      have hs := congrArg (fun s => s.toList.head?) hs
      simp [String.toList_append] at hs
  | layer node i p =>
    cases b with
    | latent node' =>
      rw [layer_key_eq] at h
      obtain ⟨_, hs⟩ := hex_append_inj (t := "lat") h
      have hs := congrArg (fun s => s.toList.head?) hs
      simp [String.toList_append] at hs
    | layer node' j q =>
      rw [layer_key_eq, layer_key_eq] at h
      obtain ⟨rfl, hs⟩ := hex_append_inj h
      have hs := congrArg String.toList hs
      simp only [String.toList_append, String.toList_ofList, List.append_assoc] at hs
      obtain ⟨rfl, rfl⟩ := Part.suffix_inj (List.append_cancel_left hs)
      rfl

theorem Slot.key_getLast (a : Slot) : a.key.toList.getLast? ≠ some 'c' := by
  intro h
  cases a with
  | latent node => simp [Slot.key, latentLocator, String.toList_append] at h
  | layer node i part =>
    rw [layer_key_eq] at h
    cases part with
    | k =>
      simp only [Part.suffix, String.toList_append, String.toList_ofList, List.getLast?_append,
        List.getLast?_cons_cons, List.getLast?_singleton, Option.some_or, Option.some.injEq] at h
      exact absurd h (by decide)
    | v =>
      simp only [Part.suffix, String.toList_append, String.toList_ofList, List.getLast?_append,
        List.getLast?_cons_cons, List.getLast?_singleton, Option.some_or, Option.some.injEq] at h
      exact absurd h (by decide)
    | whole =>
      have hne : (Nat.repr i).toList ≠ [] := by
        rw [Nat.toList_repr]
        exact List.ne_nil_of_length_pos Nat.length_toDigits_pos
      have hlast := List.getLast?_eq_some_getLast hne
      simp only [Part.suffix, String.toList_append, String.toList_ofList, List.append_nil,
        List.getLast?_append, hlast, Option.some_or, Option.some.injEq] at h
      have hdigit := List.getLast_mem hne
      rw [h, Nat.toList_repr] at hdigit
      have := Json.toDigits_digit hdigit
      simp at this

/-- No tensor is stored under the key of a sidecar. -/
theorem Slot.key_ne_spec (a b : Slot) : a.key ≠ b.key ++ ":spec" := by
  intro h
  apply a.key_getLast
  rw [h, String.toList_append]
  simp

section
variable {τ : Type}

abbrev Contents (τ : Type) := Slot → Option τ

def written : Option (LayerValue τ) → Part → Option τ
  | some (.pair k _), .k => k
  | some (.pair _ v), .v => v
  | some (.single t), .whole => some t
  | _, _ => none

/-- An element put at layer `n`. -/
def putElement (node : Bytes) (n : Nat) : LayerValue τ → Contents τ → Contents τ
  | .pair (some k) (some v), m =>
    Function.update (Function.update m (.layer node n .k) (some k)) (.layer node n .v) (some v)
  | .single t, m => Function.update m (.layer node n .whole) (some t)
  | _, m => m

/-- A payload put from layer `n` on. -/
def putFrom (node : Bytes) : Nat → List (LayerValue τ) → Contents τ → Contents τ
  | _, [], m => m
  | n, p :: payload, m => putFrom node (n + 1) payload (putElement node n p m)

def Formed (p : LayerValue τ) : Prop := (∃ t, p = .single t) ∨ ∃ k v, p = .pair (some k) (some v)

theorem putElement_layer {p : LayerValue τ} (hp : Formed p) (node node' : Bytes) (n i : Nat) (part : Part)
    (m : Contents τ) : putElement node n p m (.layer node' i part) =
      if node' = node ∧ i = n then (written (some p) part).or (m (.layer node' i part))
      else m (.layer node' i part) := by
  by_cases h : node' = node ∧ i = n
  · obtain ⟨rfl, rfl⟩ := h
    obtain ⟨t, rfl⟩ | ⟨k, v, rfl⟩ := hp <;> cases part <;> simp [putElement, written]
  · rw [if_neg h]
    have hne : ∀ q, Slot.layer node' i part ≠ .layer node n q := by
      intro q hq
      cases hq
      exact h ⟨rfl, rfl⟩
    obtain ⟨t, rfl⟩ | ⟨k, v, rfl⟩ := hp
    · rw [putElement, Function.update_of_ne (hne _)]
    · rw [putElement, Function.update_of_ne (hne _), Function.update_of_ne (hne _)]

theorem putElement_latent (p : LayerValue τ) (node node' : Bytes) (n : Nat) (m : Contents τ) :
    putElement node n p m (.latent node') = m (.latent node') := by
  unfold putElement
  split <;> simp

theorem putFrom_layer {payload : List (LayerValue τ)} (hp : ∀ p ∈ payload, Formed p) (node node' : Bytes)
    (n i : Nat) (part : Part) (m : Contents τ) : putFrom node n payload m (.layer node' i part) =
      if node' = node ∧ n ≤ i then (written payload[i - n]? part).or (m (.layer node' i part))
      else m (.layer node' i part) := by
  induction payload generalizing n m with
  | nil => simp [putFrom, written]
  | cons p payload ih =>
    have hrest := ih (fun q hq => hp q (List.mem_cons_of_mem _ hq))
    rw [putFrom, hrest, putElement_layer (hp p List.mem_cons_self)]
    by_cases hnode : node' = node
    · rcases Nat.lt_trichotomy i n with hi | rfl | hi
      · have h1 : ¬ n + 1 ≤ i := by omega
        have h2 : ¬ i = n := by omega
        have h3 : ¬ n ≤ i := by omega
        simp only [hnode, h1, h2, h3, and_false, if_false]
      · simp [hnode]
      · have h1 : n + 1 ≤ i := hi
        have h2 : ¬ i = n := by omega
        have h3 : n ≤ i := by omega
        have h4 : i - n = i - (n + 1) + 1 := by omega
        simp only [hnode, h1, h2, h3, h4, and_true, and_false, if_true, if_false, List.getElem?_cons_succ]
    · simp only [hnode, false_and, if_false]

theorem putFrom_latent (payload : List (LayerValue τ)) (node node' : Bytes) (n : Nat) (m : Contents τ) :
    putFrom node n payload m (.latent node') = m (.latent node') := by
  induction payload generalizing n m with
  | nil => rfl
  | cons p payload ih => rw [putFrom, ih, putElement_latent]

end

end CacheSeek.Proofs.StoreSlots
