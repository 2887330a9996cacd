import CacheSeek.Proofs.StoreSlots
import CacheSeek.Lib.JsonText
import Mathlib.Data.List.Induction

namespace CacheSeek.Proofs.LastPayload
open CacheSeek.Lib CacheSeek.Prefix CacheSeek.Prefix.NamespaceForest CacheSeek.Stores
open CacheSeek.Stores.TensorStoreTier CacheSeek.Proofs.StoreKeys
open CacheSeek.Proofs.StoreSlots

variable {β τ σ : Type} {B : TensorStore β τ} {spec : τ → TensorSpec}

theorem shapeOf_ints (shape : List Nat) :
    TensorSpec.shapeOf (List.map (fun n : Int => Json.int n) (do let a ← shape; pure (a : Int))) = .ok shape := by
  induction shape with
  | nil => rfl
  | cons n shape ih =>
    have hcons : (do let a ← n :: shape; pure (a : Int)) = (n : Int) :: (do let a ← shape; pure (a : Int)) := rfl
    rw [hcons, List.map_cons, TensorSpec.shapeOf, ih]
    rfl

/-- A sidecar reads back. -/
theorem ofText_toText (sp : TensorSpec) : TensorSpec.ofText sp.toText = .ok sp := by
  simp only [TensorSpec.ofText, TensorSpec.toText, Json.loads_dumps, shapeOf_ints]
  rfl

/-- What the slots hold, as an instance over the backing store sees it. -/
structure Holds (B : TensorStore β τ) (spec : τ → TensorSpec) (s : TensorStoreTier β) (m : Contents τ) :
    Prop where
  absent : ∀ a : Slot, m a = none → s.specs.get? a.key = none ∧ B.get s.ts (a.key ++ ":spec") = none
  cached : ∀ (a : Slot) t, m a = some t → s.specs.get? a.key = none ∨ s.specs.get? a.key = some (spec t)
  sidecar : ∀ (a : Slot) t, m a = some t → B.get s.ts (a.key ++ ":spec") = some (spec t).toText
  tensor : ∀ (a : Slot) t, m a = some t → B.getTensor s.ts a.key (spec t) = .ok (some t)

variable {s : TensorStoreTier β} {m : Contents τ}

/-- A new instance has the sidecars. -/
theorem Holds.renew (h : Holds B spec s m) : Holds B spec s.renew m :=
  ⟨fun a ha => ⟨rfl, (h.absent a ha).2⟩, fun _ _ _ => Or.inl rfl, h.sidecar, h.tensor⟩

/-- The sidecars of two slots have two keys. -/
theorem spec_key_ne {a b : Slot} (h : b ≠ a) : b.key ++ ":spec" ≠ a.key ++ ":spec" := by
  intro he
  have hlist := congrArg String.toList he
  rw [String.toList_append, String.toList_append] at hlist
  exact h (Slot.key_injective (String.toList_inj.mp (List.append_cancel_right hlist)))

theorem putOne_holds (hB : B.Correct spec) (h : Holds B spec s m) (a : Slot) (t : τ) :
    Holds B spec (s.putOne B spec a.key (some t)).2 (Function.update m a (some t)) := by
  have hkey : ∀ {b : Slot}, b ≠ a → b.key ≠ a.key := fun hb he => hb (Slot.key_injective he)
  have hget : ∀ {b : Slot}, b ≠ a → B.get (B.put (B.putTensor s.ts a.key t) (a.key ++ ":spec") (spec t).toText)
      (b.key ++ ":spec") = B.get s.ts (b.key ++ ":spec") := fun hb => by
    rw [hB.get_other _ _ _ _ (spec_key_ne hb), hB.get_putTensor _ _ _ _ (Slot.key_ne_spec a _).symm]
  have hspec : ∀ {b : Slot}, b ≠ a → (s.specs.set a.key (spec t)).get? b.key = s.specs.get? b.key :=
    fun hb => Dict.get?_set_ne _ _ (hkey hb)
  refine ⟨?_, ?_, ?_, ?_⟩
  · intro b hb
    have hne : b ≠ a := by
      intro he
      rw [he, Function.update_self] at hb
      cases hb
    rw [Function.update_of_ne hne] at hb
    exact ⟨(hspec hne).trans (h.absent b hb).1, (hget hne).trans (h.absent b hb).2⟩
  · intro b u hb
    by_cases he : b = a
    · rw [he, Function.update_self, Option.some.injEq] at hb
      rw [he, ← hb]
      exact Or.inr (Dict.get?_set_self _ _ _)
    · rw [Function.update_of_ne he] at hb
      simp only [putOne, hspec he]
      exact h.cached b u hb
  · intro b u hb
    by_cases he : b = a
    · rw [he, Function.update_self, Option.some.injEq] at hb
      rw [he, ← hb]
      exact hB.get_self _ _ _
    · rw [Function.update_of_ne he] at hb
      exact (hget he).trans (h.sidecar b u hb)
  · intro b u hb
    have hput := hB.getTensor_put (B.putTensor s.ts a.key t) (a.key ++ ":spec") b.key (spec t).toText (spec u)
      (Slot.key_ne_spec b a)
    by_cases he : b = a
    · rw [he, Function.update_self, Option.some.injEq] at hb
      subst he hb
      exact hput.trans (hB.getTensor_self _ _ _)
    · rw [Function.update_of_ne he] at hb
      exact hput.trans ((hB.getTensor_other _ _ _ _ _ (hkey he)).trans (h.tensor b u hb))

/-- A read answers what its slot holds. -/
theorem getOne_holds (h : Holds B spec s m) (a : Slot) :
    (s.getOne B a.key).1 = .ok (m a) ∧ Holds B spec (s.getOne B a.key).2 m := by
  cases hm : m a with
  | none =>
    obtain ⟨hspecs, hget⟩ := h.absent a hm
    simp only [getOne, hspecs, hget]
    exact ⟨trivial, h⟩
  | some t =>
    have htensor := h.tensor a t hm
    obtain hspecs | hspecs := h.cached a t hm
    · simp only [getOne, hspecs, h.sidecar a t hm, ofText_toText, htensor]
      refine ⟨trivial, fun b hb => ⟨?_, (h.absent b hb).2⟩, fun b u hb => ?_, h.sidecar, h.tensor⟩
      · rw [Dict.get?_set_ne, (h.absent b hb).1]
        intro he
        rw [Slot.key_injective he, hm] at hb
        cases hb
      · by_cases he : b = a
        · rw [he, hm, Option.some.injEq] at hb
          rw [he, Dict.get?_set_self, hb]
          exact Or.inr rfl
        · rw [Dict.get?_set_ne _ _ fun hk => he (Slot.key_injective hk)]
          exact h.cached b u hb
    · simp only [getOne, hspecs, htensor]
      exact ⟨trivial, h⟩

/-- A payload is put element by element. -/
theorem putAll_holds (hB : B.Correct spec) {payload : List (LayerValue τ)} (hp : ∀ p ∈ payload, Formed p)
    (node : Bytes) (n : Nat) (h : Holds B spec s m) :
    ∃ s', s.putAll B spec (TensorTier.payloadWrites (kvLocator node) n payload) = (.ok (), s') ∧
      Holds B spec s' (putFrom node n payload m) := by
  induction payload generalizing n s m with
  | nil => exact ⟨s, rfl, h⟩
  | cons p payload ih =>
    have hrest := fun q hq => hp q (List.mem_cons_of_mem _ hq)
    obtain ⟨t, rfl⟩ | ⟨k, v, rfl⟩ := hp p List.mem_cons_self
    · have h1 := putOne_holds hB h (.layer node n .whole) t
      rw [Slot.key_whole] at h1
      exact ih hrest (n + 1) h1
    · have h1 := putOne_holds hB h (.layer node n .k) k
      have h2 := putOne_holds hB h1 (.layer node n .v) v
      exact ih hrest (n + 1) h2

/-- What `get_layer` makes of the slots: the pair first, if there is one. -/
def layerOf (m : Contents τ) (node : Bytes) (i : Nat) : LayerValue τ :=
  match m (.layer node i .k) with
  | some k => .pair (some k) (m (.layer node i .v))
  | none =>
    match m (.layer node i .whole) with
    | some t => .single t
    | none => .miss

theorem getLayer_holds (h : Holds B spec s m) {node : Bytes} {handle : BlobHandle}
    (hl : handle.locator = kvLocator node) (i : Nat) :
    (s.getLayer B handle i).1 = .ok (layerOf m node i) ∧ Holds B spec (s.getLayer B handle i).2 m := by
  obtain ⟨hk, h1⟩ := getOne_holds h (.layer node i .k)
  obtain ⟨hv, h2⟩ := getOne_holds h1 (.layer node i .v)
  obtain ⟨hw, h3⟩ := getOne_holds h1 (.layer node i .whole)
  rw [Slot.key_whole] at hw h3
  simp only [Slot.key, Part.suffix, show String.ofList [':', 'k'] = ":k" from rfl,
    show String.ofList [':', 'v'] = ":v" from rfl] at hk h1 hv h2 hw h3
  simp only [getLayer, hl]
  cases hget : s.getOne B (TensorTier.layerKey (kvLocator node) i ++ ":k") with
  | mk res s1 =>
    rw [hget] at hk h1 hv h2 hw h3
    simp only at hk h1 hv h2 hw h3
    subst hk
    cases hm : m (.layer node i .k) with
    | some k =>
      cases hget' : s1.getOne B (TensorTier.layerKey (kvLocator node) i ++ ":v") with
      | mk res s2 =>
        rw [hget'] at hv h2
        simp only at hv h2
        subst hv
        simp only [hget', layerOf, hm]
        exact ⟨trivial, h2⟩
    | none =>
      cases hget' : s1.getOne B (TensorTier.layerKey (kvLocator node) i) with
      | mk res s2 =>
        rw [hget'] at hw h3
        simp only at hw h3
        subst hw
        simp only [hget', layerOf, hm]
        cases m (.layer node i .whole) with
        | none => exact ⟨rfl, h3⟩
        | some t => exact ⟨rfl, h3⟩

/-- A call on a store at one of the manager's locators, or a new instance over the same backing store. -/
inductive StoreCall (τ : Type) where
  | putAsync (node : Bytes) (payload : List (LayerValue τ))
  | putSkeleton (node : Bytes) (latent : τ)
  | getLayer (node : Bytes) (layer : Nat)
  | getSkeleton (node : Bytes)
  | renew

namespace StoreCall

def Formed : StoreCall τ → Prop
  | .putAsync _ payload => ∀ p ∈ payload, StoreSlots.Formed p
  | _ => True

def handleAt (node : Bytes) : BlobHandle := ⟨.fluxonDram, kvLocator node, 0, 0, true⟩

def apply (S : KVTierStore σ (LayerValue τ) τ) (renewed : σ → σ) (s : σ) : StoreCall τ → σ
  | .putAsync node payload => (S.putAsync s (kvLocator node) payload 0).2
  | .putSkeleton node latent => (S.putSkeleton s (latentLocator node) latent).2
  | .getLayer node layer => (S.getLayer s (handleAt node) layer).2
  | .getSkeleton node => (S.getSkeleton s (latentLocator node)).2
  | .renew => renewed s

def payload? (node : Bytes) : StoreCall τ → Option (List (LayerValue τ))
  | .putAsync node' payload => if node' = node then some payload else none
  | _ => none

def latent? (node : Bytes) : StoreCall τ → Option τ
  | .putSkeleton node' latent => if node' = node then some latent else none
  | _ => none

def effect : StoreCall τ → Contents τ → Contents τ
  | .putAsync node payload, m => putFrom node 0 payload m
  | .putSkeleton node latent, m => Function.update m (.latent node) (some latent)
  | _, m => m

end StoreCall

def payloadsAt (calls : List (StoreCall τ)) (node : Bytes) : List (List (LayerValue τ)) :=
  calls.filterMap (StoreCall.payload? node)

def latentsAt (calls : List (StoreCall τ)) (node : Bytes) : List τ :=
  calls.filterMap (StoreCall.latent? node)

/-- What a run leaves in each slot: what was put there last. -/
def contentsOf (calls : List (StoreCall τ)) : Contents τ
  | .layer node i part => ((payloadsAt calls node).filterMap fun payload => written payload[i]? part).getLast?
  | .latent node => (latentsAt calls node).getLast?

theorem getLast?_filterMap_concat {α γ : Type} (f : α → Option γ) (l : List α) (x : α) :
    ((l ++ [x]).filterMap f).getLast? = (f x).or (l.filterMap f).getLast? := by
  rw [List.filterMap_append, List.getLast?_append]
  cases hx : f x with
  | none => simp [hx]
  | some y => simp [hx]

theorem payloadsAt_concat (calls : List (StoreCall τ)) (c : StoreCall τ) (node : Bytes) :
    payloadsAt (calls ++ [c]) node = payloadsAt calls node ++ (c.payload? node).toList := by
  rw [payloadsAt, List.filterMap_append]
  cases hc : c.payload? node with
  | none => simp [payloadsAt, hc]
  | some payload => simp [payloadsAt, hc]

theorem contentsOf_concat (calls : List (StoreCall τ)) (c : StoreCall τ) (hc : c.Formed) :
    contentsOf (calls ++ [c]) = c.effect (contentsOf calls) := by
  funext a
  cases a with
  | layer node i part =>
    have hlayer : contentsOf (calls ++ [c]) (.layer node i part) =
        ((c.payload? node).bind fun payload => written payload[i]? part).or
          (contentsOf calls (.layer node i part)) := by
      simp only [contentsOf, payloadsAt_concat]
      cases hp : c.payload? node with
      | none => simp
      | some payload => exact getLast?_filterMap_concat _ _ _
    rw [hlayer]
    cases c with
    | putAsync node' payload =>
      rw [StoreCall.effect, putFrom_layer hc]
      by_cases hn : node' = node
      · simp [StoreCall.payload?, hn]
      · have hn' : ¬ node = node' := fun he => hn he.symm
        simp [StoreCall.payload?, hn, hn']
    | putSkeleton node' latent => simp [StoreCall.payload?, StoreCall.effect]
    | getLayer node' layer => rfl
    | getSkeleton node' => rfl
    | renew => rfl
  | latent node =>
    have hlatent : contentsOf (calls ++ [c]) (.latent node) =
        (c.latent? node).or (contentsOf calls (.latent node)) := getLast?_filterMap_concat _ _ _
    rw [hlatent]
    cases c with
    | putAsync node' payload =>
      rw [StoreCall.effect, putFrom_latent]
      rfl
    | putSkeleton node' latent =>
      by_cases hn : node' = node
      · simp [StoreCall.latent?, StoreCall.effect, hn]
      · have hn' : ¬ node = node' := fun he => hn he.symm
        simp [StoreCall.latent?, StoreCall.effect, hn, hn']
    | getLayer node' layer => rfl
    | getSkeleton node' => rfl
    | renew => rfl

/-- What an instance and its successors hold after a run from an empty backing store. -/
theorem run_holds (hB : B.Correct spec) {ts : β} (hts : ∀ key, B.get ts key = none) {calls : List (StoreCall τ)}
    (hf : ∀ c ∈ calls, c.Formed) :
    Holds B spec (calls.foldl (StoreCall.apply (tensorStoreOver B spec) renew) { ts := ts }) (contentsOf calls) := by
  induction calls using List.reverseRecOn with
  | nil =>
    refine ⟨fun a _ => ⟨rfl, hts _⟩, fun a t ha => ?_, fun a t ha => ?_, fun a t ha => ?_⟩
    all_goals cases a <;> cases ha
  | append_singleton calls c ih =>
    have h := ih fun c hc => hf c (List.mem_append_left _ hc)
    have hc : c.Formed := hf c (by simp)
    rw [List.foldl_concat, contentsOf_concat calls c hc]
    generalize calls.foldl (StoreCall.apply (tensorStoreOver B spec) renew) { ts := ts } = s at h ⊢
    cases c with
    | putAsync node payload =>
      obtain ⟨s', hput, h'⟩ := putAll_holds hB hc node 0 h
      simp only [StoreCall.apply, tensorStoreOver, hput]
      exact h'
    | putSkeleton node latent => exact putOne_holds hB h (.latent node) latent
    | getLayer node layer => exact (getLayer_holds h rfl layer).2
    | getSkeleton node => exact (getOne_holds h (.latent node)).2
    | renew => exact h.renew

theorem latentsAt_concat (calls : List (StoreCall τ)) (c : StoreCall τ) (node : Bytes) :
    (latentsAt (calls ++ [c]) node).getLast? = (c.latent? node).or (latentsAt calls node).getLast? :=
  getLast?_filterMap_concat _ _ _

/-- The reference store has the last payload and the last latent. -/
theorem inMemory_run (calls : List (StoreCall τ)) (node : Bytes) :
    (calls.foldl (StoreCall.apply (inMemoryTierStore (LayerValue τ) τ) id) {}).blobs.get? (kvLocator node) =
      (payloadsAt calls node).getLast? ∧
    (calls.foldl (StoreCall.apply (inMemoryTierStore (LayerValue τ) τ) id) {}).skeletons.get?
      (latentLocator node) = (latentsAt calls node).getLast? := by
  induction calls using List.reverseRecOn with
  | nil => exact ⟨rfl, rfl⟩
  | append_singleton calls c ih =>
    obtain ⟨hblob, hskeleton⟩ := ih
    have hpayloads : (payloadsAt (calls ++ [c]) node).getLast? =
        (c.payload? node).or (payloadsAt calls node).getLast? := getLast?_filterMap_concat _ _ _
    rw [List.foldl_concat, hpayloads, latentsAt_concat]
    generalize calls.foldl (StoreCall.apply (inMemoryTierStore (LayerValue τ) τ) id) {} = mem at hblob hskeleton ⊢
    cases c with
    | putAsync node' payload =>
      refine ⟨?_, hskeleton⟩
      by_cases hn : node' = node
      · simp [StoreCall.apply, inMemoryTierStore, StoreCall.payload?, hn]
      · have hne : kvLocator node ≠ kvLocator node' := fun he => hn (kvLocator_inj he).symm
        simp only [StoreCall.apply, inMemoryTierStore, StoreCall.payload?, hn, if_false, Option.none_or,
          Dict.get?_set_ne _ _ hne, hblob]
    | putSkeleton node' latent =>
      refine ⟨hblob, ?_⟩
      by_cases hn : node' = node
      · simp [StoreCall.apply, inMemoryTierStore, StoreCall.latent?, hn]
      · have hne : latentLocator node ≠ latentLocator node' := fun he => hn (latentLocator_inj he).symm
        simp only [StoreCall.apply, inMemoryTierStore, StoreCall.latent?, hn, if_false, Option.none_or,
          Dict.get?_set_ne _ _ hne, hskeleton]
    | getLayer node' layer =>
      have hsame : (StoreCall.apply (inMemoryTierStore (LayerValue τ) τ) id mem (.getLayer node' layer)) = mem := by
        simp only [StoreCall.apply, inMemoryTierStore]
        split
        · rfl
        · split <;> rfl
      rw [hsame]
      exact ⟨hblob, hskeleton⟩
    | getSkeleton node' => exact ⟨hblob, hskeleton⟩
    | renew => exact ⟨hblob, hskeleton⟩

/-- No layer that the last payload of a node has as one tensor was ever put there as a pair. -/
def Unshadowed (calls : List (StoreCall τ)) : Prop :=
  ∀ node payload, (payloadsAt calls node).getLast? = some payload → ∀ (i : Nat) t, payload[i]? = some (.single t) →
    ∀ earlier ∈ payloadsAt calls node, ∀ k v, earlier[i]? ≠ some (.pair k v)

/-- Reads through an instance answer, as those of the reference store do, what was put last. -/
structure ReturnsLast (S : KVTierStore σ (LayerValue τ) τ) (calls : List (StoreCall τ)) (s : σ)
    (mem : InMemoryTier (LayerValue τ) τ) : Prop where
  layer : ∀ node payload, (payloadsAt calls node).getLast? = some payload →
    ∀ (i : Nat) p, payload[i]? = some p → ∀ handle : BlobHandle, handle.locator = kvLocator node →
      (S.getLayer s handle i).1 = .ok p ∧
        ((inMemoryTierStore (LayerValue τ) τ).getLayer mem handle i).1 = .ok p
  skeleton : ∀ node, (S.getSkeleton s (latentLocator node)).1 = .ok (latentsAt calls node).getLast? ∧
    ((inMemoryTierStore (LayerValue τ) τ).getSkeleton mem (latentLocator node)).1 =
      .ok (latentsAt calls node).getLast?

variable {calls : List (StoreCall τ)}

theorem formed_of_mem (hf : ∀ c ∈ calls, c.Formed) {node : Bytes} {payload : List (LayerValue τ)}
    (hp : payload ∈ payloadsAt calls node) {i : Nat} {p : LayerValue τ} (hi : payload[i]? = some p) :
    StoreSlots.Formed p := by
  obtain ⟨c, hc, he⟩ := List.mem_filterMap.mp hp
  have hc := hf c hc
  cases c with
  | putAsync node' payload' =>
    simp only [StoreCall.payload?] at he
    split at he
    · cases he
      exact hc p (List.mem_of_getElem? hi)
    · cases he
  | putSkeleton node' latent => cases he
  | getLayer node' layer => cases he
  | getSkeleton node' => cases he
  | renew => cases he

/-- The first key that is probed has been written by every pair, and by nothing else. -/
theorem contentsOf_k_none (hf : ∀ c ∈ calls, c.Formed) {node : Bytes} {i : Nat} :
    contentsOf calls (.layer node i .k) = none ↔
      ∀ payload ∈ payloadsAt calls node, ∀ k v, payload[i]? ≠ some (.pair k v) := by
  rw [contentsOf, List.getLast?_eq_none_iff, List.filterMap_eq_nil_iff]
  apply forall₂_congr
  intro payload hp
  cases hi : payload[i]? with
  | none => simp [written]
  | some p =>
    obtain ⟨t, rfl⟩ | ⟨k, v, rfl⟩ := formed_of_mem hf hp hi
    · simp [written]
    · simp [written]

/-- No later payload writes over the slots of the last one. -/
theorem contentsOf_last {node : Bytes} {payload : List (LayerValue τ)}
    (hlast : (payloadsAt calls node).getLast? = some payload) {i : Nat} {part : Part} {t : τ}
    (ht : written payload[i]? part = some t) : contentsOf calls (.layer node i part) = some t := by
  obtain ⟨init, hinit⟩ := List.getLast?_eq_some_iff.mp hlast
  rw [contentsOf, hinit, getLast?_filterMap_concat, ht, Option.some_or]

/-- An element of the last payload reads back unless it is one tensor behind a pair. -/
theorem layerOf_last (hf : ∀ c ∈ calls, c.Formed) {node : Bytes} {payload : List (LayerValue τ)}
    (hlast : (payloadsAt calls node).getLast? = some payload) {i : Nat} {p : LayerValue τ}
    (hi : payload[i]? = some p) : layerOf (contentsOf calls) node i = p ↔
      ((∃ t, p = .single t) → ∀ earlier ∈ payloadsAt calls node, ∀ k v, earlier[i]? ≠ some (.pair k v)) := by
  obtain ⟨init, hinit⟩ := List.getLast?_eq_some_iff.mp hlast
  have hmem : payload ∈ payloadsAt calls node := by
    rw [hinit]
    simp
  obtain ⟨t, rfl⟩ | ⟨k, v, rfl⟩ := formed_of_mem hf hmem hi
  · have hwhole : contentsOf calls (.layer node i .whole) = some t :=
      contentsOf_last hlast (by rw [hi]; rfl)
    rw [← contentsOf_k_none hf]
    cases hk : contentsOf calls (.layer node i .k) with
    | none => simp [layerOf, hk, hwhole]
    | some k => simp [layerOf, hk]
  · have hk : contentsOf calls (.layer node i .k) = some k := contentsOf_last hlast (by rw [hi]; rfl)
    have hv : contentsOf calls (.layer node i .v) = some v := contentsOf_last hlast (by rw [hi]; rfl)
    simp [layerOf, hk, hv]

/-- An earlier, longer payload shows behind the last one. -/
theorem returnsLast_iff (hf : ∀ c ∈ calls, c.Formed) {s : TensorStoreTier β}
    (h : Holds B spec s (contentsOf calls)) :
    ReturnsLast (tensorStoreOver B spec) calls s
      (calls.foldl (StoreCall.apply (inMemoryTierStore (LayerValue τ) τ) id) {}) ↔ Unshadowed calls := by
  constructor
  · intro hr node payload hlast i t hi
    have hread := (hr.layer node payload hlast i _ hi (StoreCall.handleAt node) rfl).1
    have hat : (StoreCall.handleAt node).locator = kvLocator node := rfl
    have hslots := (getLayer_holds h hat i).1
    have hlayer := Except.ok.inj (hslots.symm.trans hread)
    exact (layerOf_last hf hlast hi).mp hlayer ⟨t, rfl⟩
  · intro hu
    refine ⟨?_, ?_⟩
    · intro node payload hlast i p hi handle hl
      have hlayer := (layerOf_last hf hlast hi).mpr fun ht => by
        obtain ⟨t, rfl⟩ := ht
        exact hu node payload hlast i t hi
      refine ⟨(getLayer_holds h hl i).1.trans (congrArg Except.ok hlayer), ?_⟩
      have hmem := (inMemory_run calls node).1
      simp only [inMemoryTierStore, hl] at hmem ⊢
      rw [hmem, hlast]
      simp only [hi]
    · intro node
      refine ⟨(getOne_holds h (.latent node)).1, ?_⟩
      exact congrArg Except.ok (inMemory_run calls node).2

/-- After any calls, through the instance or a new one: the last payload and latent of every node are what
is read exactly when no layer has become one tensor that was a pair. -/
theorem last_payload_iff (hB : B.Correct spec) {ts : β} (hts : ∀ key, B.get ts key = none)
    (hf : ∀ c ∈ calls, c.Formed) :
    let s := calls.foldl (StoreCall.apply (tensorStoreOver B spec) renew) { ts := ts }
    let mem := calls.foldl (StoreCall.apply (inMemoryTierStore (LayerValue τ) τ) id) {}
    (ReturnsLast (tensorStoreOver B spec) calls s mem ↔ Unshadowed calls) ∧
      (ReturnsLast (tensorStoreOver B spec) calls s.renew mem ↔ Unshadowed calls) := by
  have h := run_holds hB hts hf
  exact ⟨returnsLast_iff hf h, returnsLast_iff hf h.renew⟩

section
variable {ops : TensorOps τ} {st : TensorStoreTier (Dict String τ × Dict String String)}

theorem toTensorTier_run (calls : List (StoreCall τ)) (st : TensorStoreTier (Dict String τ × Dict String String)) :
    (calls.foldl (StoreCall.apply (tensorStoreOver (dictStore ops) ops.spec) renew) st).toTensorTier =
      calls.foldl (StoreCall.apply (tensorStoreTierStore ops) fun s => { s with specs := ∅ })
        st.toTensorTier := by
  induction calls generalizing st with
  | nil => rfl
  | cons c calls ih =>
    obtain ⟨hput, hlayer, hskeleton, hlatent⟩ := toTensorTier_simulates ops st
    rw [List.foldl_cons, ih, List.foldl_cons]
    congr 1
    cases c with
    | putAsync node payload => exact (congrArg Prod.snd (hput _ payload 0)).symm
    | putSkeleton node latent => exact (congrArg Prod.snd (hskeleton _ latent)).symm
    | getLayer node layer => exact (congrArg Prod.snd (hlayer _ layer)).symm
    | getSkeleton node => exact (congrArg Prod.snd (hlatent _)).symm
    | renew => rfl

theorem returnsLast_toTensorTier {mem : InMemoryTier (LayerValue τ) τ} :
    ReturnsLast (tensorStoreTierStore ops) calls st.toTensorTier mem ↔
      ReturnsLast (tensorStoreOver (dictStore ops) ops.spec) calls st mem := by
  obtain ⟨_, hlayer, _, hlatent⟩ := toTensorTier_simulates ops st
  constructor
  · intro h
    refine ⟨fun node payload hlast i p hi handle hl => ?_, fun node => ?_⟩
    · have hread := h.layer node payload hlast i p hi handle hl
      rwa [hlayer] at hread
    · have hread := h.skeleton node
      rwa [hlatent] at hread
  · intro h
    refine ⟨fun node payload hlast i p hi handle hl => ?_, fun node => ?_⟩
    · rw [hlayer]
      exact h.layer node payload hlast i p hi handle hl
    · rw [hlatent]
      exact h.skeleton node

/-- The same of runs of `TensorTier`. -/
theorem tensorTier_returnsLast_iff (hops : ops.Lawful) (hf : ∀ c ∈ calls, c.Formed) :
    ReturnsLast (tensorStoreTierStore ops) calls
      (calls.foldl (StoreCall.apply (tensorStoreTierStore ops) fun s => { s with specs := ∅ }) {})
      (calls.foldl (StoreCall.apply (inMemoryTierStore (LayerValue τ) τ) id) {}) ↔ Unshadowed calls := by
  have hholds : Holds (dictStore ops) ops.spec
      (calls.foldl (StoreCall.apply (tensorStoreOver (dictStore ops) ops.spec) renew) { ts := (∅, ∅) })
      (contentsOf calls) := run_holds (dictStore_correct ops hops) (fun _ => rfl) hf
  rw [← returnsLast_iff hf hholds, ← returnsLast_toTensorTier, toTensorTier_run]
  rfl

end

structure RawTensor where
  spec : TensorSpec
  data : Bytes
  deriving DecidableEq

/-- Buffers and sidecars as values of one dictionary; a buffer is viewed as it is asked for. -/
def fileStore : TensorStore (Dict String (RawTensor ⊕ String)) RawTensor where
  putTensor b key t := b.set key (.inl t)
  getTensor b key sp :=
    match b.get? key with
    | none => .ok none
    | some (.inl t) => .ok (some ⟨sp, t.data⟩)
    | some (.inr _) => .error .typeError
  put b key raw := b.set key (.inr raw)
  get b key :=
    match b.get? key with
    | some (.inr raw) => some raw
    | _ => none

theorem fileStore_correct : fileStore.Correct RawTensor.spec where
  getTensor_self b key t := by simp only [fileStore, Dict.get?_set_self]
  getTensor_other b key key' t sp h := by simp only [fileStore, Dict.get?_set_ne _ _ h]
  getTensor_put b key key' raw sp h := by simp only [fileStore, Dict.get?_set_ne _ _ h]
  get_self b key raw := by simp only [fileStore, Dict.get?_set_self]
  get_other b key key' raw h := by simp only [fileStore, Dict.get?_set_ne _ _ h]
  get_putTensor b key key' t h := by simp only [fileStore, Dict.get?_set_ne _ _ h]

def rowOf (n : Nat) : RawTensor := ⟨⟨[1, n], "float16"⟩, List.replicate n 7⟩

/-- A layer goes from one tensor to a pair, is read by a new instance, and is put again. -/
def regrown : List (StoreCall RawTensor) :=
  [.putAsync [1] [.single (rowOf 1), .single (rowOf 2)], .putSkeleton [1] (rowOf 3), .renew, .getLayer [1] 0,
    .putAsync [1] [.pair (some (rowOf 4)) (some (rowOf 5)), .single (rowOf 6)]]

theorem regrown_formed : ∀ c ∈ regrown, c.Formed := by
  intro c hc
  simp only [regrown, List.mem_cons, List.not_mem_nil, or_false] at hc
  obtain rfl | rfl | rfl | rfl | rfl := hc
  · intro p hp
    simp only [List.mem_cons, List.not_mem_nil, or_false] at hp
    obtain rfl | rfl := hp
    · exact Or.inl ⟨_, rfl⟩
    · exact Or.inl ⟨_, rfl⟩
  · trivial
  · trivial
  · trivial
  · intro p hp
    simp only [List.mem_cons, List.not_mem_nil, or_false] at hp
    obtain rfl | rfl := hp
    · exact Or.inr ⟨_, _, rfl⟩
    · exact Or.inl ⟨_, rfl⟩

theorem regrown_unshadowed : Unshadowed regrown := by
  intro node payload hlast i t hi earlier hearlier k v hpair
  by_cases hn : [1] = node
  · subst node
    have hputs : payloadsAt regrown [1] = [[.single (rowOf 1), .single (rowOf 2)],
        [.pair (some (rowOf 4)) (some (rowOf 5)), .single (rowOf 6)]] := by decide
    rw [hputs] at hlast hearlier
    cases hlast
    have h1 : i = 1 := by
      cases i with
      | zero => cases hi
      | succ i =>
        cases i with
        | zero => rfl
        | succ i => cases hi
    subst i
    simp only [List.mem_cons, List.not_mem_nil, or_false] at hearlier
    obtain rfl | rfl := hearlier
    · cases hpair
    · cases hpair
  · have hputs : payloadsAt regrown node = [] := by
      simp [payloadsAt, regrown, StoreCall.payload?, hn]
    rw [hputs] at hlast
    cases hlast

theorem last_payload_regrown :
    ReturnsLast (tensorStoreOver fileStore RawTensor.spec) regrown
      (regrown.foldl (StoreCall.apply (tensorStoreOver fileStore RawTensor.spec) renew) { ts := ∅ }).renew
      (regrown.foldl (StoreCall.apply (inMemoryTierStore (LayerValue RawTensor) RawTensor) id) {}) :=
  (last_payload_iff fileStore_correct (fun _ => rfl) regrown_formed).2.mpr regrown_unshadowed

/-- A layer stored as a pair and then as one tensor reads as the pair still. -/
def shrunk : List (StoreCall RawTensor) :=
  [.putAsync [1] [.pair (some (rowOf 1)) (some (rowOf 2))], .putAsync [1] [.single (rowOf 3)]]

/-- A payload of one layer after one of two. -/
theorem last_payload_shadowed :
    fileStore.Correct RawTensor.spec ∧ (∀ c ∈ shrunk, c.Formed) ∧
    ¬ ReturnsLast (tensorStoreOver fileStore RawTensor.spec) shrunk
      (shrunk.foldl (StoreCall.apply (tensorStoreOver fileStore RawTensor.spec) renew) { ts := ∅ })
      (shrunk.foldl (StoreCall.apply (inMemoryTierStore (LayerValue RawTensor) RawTensor) id) {}) := by
  refine ⟨fileStore_correct, ?_, ?_⟩
  · intro c hc
    simp only [shrunk, List.mem_cons, List.not_mem_nil, or_false] at hc
    obtain rfl | rfl := hc
    · intro p hp
      rw [List.mem_singleton.mp hp]
      exact Or.inr ⟨_, _, rfl⟩
    · intro p hp
      rw [List.mem_singleton.mp hp]
      exact Or.inl ⟨_, rfl⟩
  · intro h
    have hread := (h.layer [1] [.single (rowOf 3)] (by decide) 0 _ rfl (StoreCall.handleAt [1]) rfl).1
    have hstale : ((tensorStoreOver fileStore RawTensor.spec).getLayer
        (shrunk.foldl (StoreCall.apply (tensorStoreOver fileStore RawTensor.spec) renew) { ts := ∅ })
        (StoreCall.handleAt [1]) 0).1 = .ok (.pair (some (rowOf 1)) (some (rowOf 2))) := by decide
    rw [hstale] at hread
    cases hread

end CacheSeek.Proofs.LastPayload
