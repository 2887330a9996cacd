import CacheSeek.Proofs.FluxonResults
import CacheSeek.Proofs.LocalFileCrash
import CacheSeek.Stores.KeyValue

namespace CacheSeek.Stores
open CacheSeek.Lib CacheSeek.Prefix CacheSeek.Approximate CacheSeek.Proofs.LocalFileCrash

def noOwn {σ : Type} (i : Empty) (_ : σ) : Except Failure σ := nomatch i

theorem inMemory_represents :
    inMemoryStore.Represents noOwn fun s m => s.get? = m where
  answer := by
    rintro s m rfl c
    cases c <;> rfl
  next := by
    rintro s m rfl c
    funext k
    cases c with
    | put key value => simp [inMemoryStore, InMemoryKVStore.put, Table.call, Dict.get?_set, Function.update_apply]
    | get key => rfl
    | remove key => simp [inMemoryStore, InMemoryKVStore.remove, Table.call, Dict.get?_erase, Function.update_apply]
  own := fun _ i => nomatch i

variable {digest : Bytes → Bytes}

theorem update_eq (m : PlainMap) (key : String) (value : Option Bytes) :
    m.update key value = Function.update m key value := by
  funext k
  rw [Function.update_apply]
  rfl

structure Keeps (digest : Bytes → Bytes) (s : LocalFileKVStore) (m : PlainMap) : Prop where
  holds : Holds digest s.disk s.index m
  listed : ∀ key, key ∈ s.listKeys ↔ m key ≠ none

theorem keeps_empty : Keeps digest ⟨∅, ∅⟩ (fun _ => none) :=
  ⟨holds_empty, fun key => by simp [LocalFileKVStore.listKeys, Dict.keys]⟩

variable {s : LocalFileKVStore} {m : PlainMap}

theorem Keeps.put (hnames : Function.Injective (LocalFileKVStore.hashKey digest)) (h : Keeps digest s m)
    (key : String) (value : Bytes) : Keeps digest (s.put digest key value) (m.update key (some value)) := by
  refine ⟨h.holds.put hnames key value, fun k => ?_⟩
  have hold := h.listed k
  simp only [LocalFileKVStore.listKeys, Dict.mem_keys, LocalFileKVStore.put, PlainMap.update] at hold ⊢
  rw [h.holds.named.putIndex_get?]
  by_cases hk : k = key
  · simp [hk]
  · simpa [hk] using hold

theorem Keeps.remove (hnames : Function.Injective (LocalFileKVStore.hashKey digest)) (h : Keeps digest s m)
    (key : String) : Keeps digest (s.remove key) (m.update key none) := by
  refine ⟨h.holds.remove hnames key, fun k => ?_⟩
  have hold := h.listed k
  simp only [LocalFileKVStore.listKeys, Dict.mem_keys, LocalFileKVStore.remove, PlainMap.update] at hold ⊢
  rw [Dict.get?_erase]
  by_cases hk : k = key
  · simp [hk]
  · simpa [hk] using hold

/-- The index file says what the memory said. -/
theorem Keeps.reopen (h : Keeps digest s m) : reopen () s = .ok s := by
  simp only [CacheSeek.Stores.reopen, h.holds.init]
  rfl

/-- File names are assumed to be free of collisions. -/
theorem localFile_represents (hnames : Function.Injective (LocalFileKVStore.hashKey digest)) :
    (localFileStore digest).Represents reopen (Keeps digest) where
  answer := by
    intro s m h c
    cases c with
    | get key => exact congrArg Except.ok (h.holds.get key)
    | _ => rfl
  next := by
    intro s m h c
    cases c with
    | put key value =>
      have h := h.put hnames key value
      rwa [update_eq] at h
    | get key => exact h
    | remove key =>
      have h := h.remove hnames key
      rwa [update_eq] at h
  own := fun {s m} h _ => ⟨s, h.reopen, h⟩

/-- The documented behaviour of the native store: a future that resolves to a
holder of the value, an error for a missing key, and success else. -/
structure FluxonApi.Documented {σ T : Type} (api : FluxonApi σ T) (R : σ → Table String (FieldValue T) → Prop) :
    Prop where
  found : ∀ {s m}, R s m → ∀ key v, m key = some v →
    (api.get s key).1 = .returns (.ok (some (.returns (.ok (some (.holder (.returns (.ok (some (.dict v)))))))))) ∧
      R (api.get s key).2 m
  missing : ∀ {s m}, R s m → ∀ key, m key = none →
    FluxonKVStore.Missing (api.get s key).1 ∧ R (api.get s key).2 m
  put : ∀ {s m}, R s m → ∀ key v, FluxonKVStore.Done (api.put s key v).1 ∧
    R (api.put s key v).2 (Function.update m key (some v))
  remove : ∀ {s m}, R s m → ∀ key, FluxonKVStore.Removed (api.remove s key).1 ∧
    R (api.remove s key).2 (Function.update m key none)

/-- The native store holds just bytes. -/
def HoldsBytes {σ T : Type} (R : σ → Table String (FieldValue T) → Prop) (s : σ) (m : Table String Bytes) : Prop :=
  R s fun key => (m key).map .bytes

theorem map_update {T : Type} (m : Table String Bytes) (key : String) (value : Option Bytes) :
    (fun k => (Function.update m key value k).map (FieldValue.bytes (T := T))) =
      Function.update (fun k => (m k).map .bytes) key (value.map .bytes) := by
  funext k
  by_cases hk : k = key
  · subst k
    simp
  · simp [Function.update_of_ne hk]

variable {σ T : Type} {api : FluxonApi σ T} {R : σ → Table String (FieldValue T) → Prop}

/-- A missing key and a present one give the two answers of a table. -/
theorem fluxon_get (repr : String → String) (hapi : api.Documented R) {s : σ} {m : Table String Bytes}
    (h : HoldsBytes R s m) (key : String) :
    (FluxonKVStore.get repr key (api.get s key).1 {}).1 = .ok (m key) ∧ HoldsBytes R (api.get s key).2 m := by
  cases hm : m key with
  | none =>
    obtain ⟨hreply, hnext⟩ := hapi.missing h key (by rw [hm]; rfl)
    exact ⟨FluxonKVStore.get_ok.mpr (.inl ⟨rfl, hreply⟩), hnext⟩
  | some b =>
    obtain ⟨hreply, hnext⟩ := hapi.found h key (.bytes b) (by rw [hm]; rfl)
    exact ⟨FluxonKVStore.get_ok.mpr (.inr ⟨b, rfl, _, hreply, .inr rfl⟩), hnext⟩

theorem fluxon_represents (repr : String → String) (hapi : api.Documented R) :
    (fluxonStore api repr).Represents noOwn (HoldsBytes R) where
  answer := by
    intro s m h c
    cases c with
    | put key value =>
      have hok : (FluxonKVStore.put repr key (api.put s key (.bytes value)).1 {}).1 = .ok () :=
        FluxonKVStore.put_ok.mpr (hapi.put h key (.bytes value)).1
      simp only [fluxonStore, hok]
      rfl
    | get key => exact (fluxon_get repr hapi h key).1
    | remove key =>
      have hok : (FluxonKVStore.remove repr key (api.remove s key).1 {}).1 = .ok () :=
        FluxonKVStore.remove_ok.mpr (hapi.remove h key).1
      simp only [fluxonStore, hok]
      rfl
  next := by
    intro s m h c
    cases c with
    | put key value =>
      have hnext := (hapi.put h key (.bytes value)).2
      simp only [HoldsBytes, Table.call, map_update]
      exact hnext
    | get key => exact (fluxon_get repr hapi h key).2
    | remove key =>
      have hnext := (hapi.remove h key).2
      simp only [HoldsBytes, Table.call, map_update]
      exact hnext
  own := fun _ i => nomatch i

def dictApi (T : Type) : FluxonApi (Dict String (FieldValue T)) T where
  get s key :=
    match s.get? key with
    | none => (.returns (.err ⟨"KeyNotFoundError", key⟩), s)
    | some v => (.returns (.ok (some (.returns (.ok (some (.holder (.returns (.ok (some (.dict v)))))))))), s)
  put s key v := (.returns (.ok (some (.returns (.ok (some true))))), s.set key v)
  remove s key :=
    match s.get? key with
    | none => (.returns (.err ⟨"KeyNotFoundError", key⟩), s)
    | some _ => (.returns (.ok (some true)), s.erase key)

theorem dictApi_documented (T : Type) : (dictApi T).Documented fun s m => s.get? = m where
  found := by
    rintro s m rfl key v hv
    simp [dictApi, hv]
  missing := by
    rintro s m rfl key hv
    refine ⟨⟨⟨"KeyNotFoundError", key⟩, rfl, .inl ?_⟩, ?_⟩ <;> simp [dictApi, hv]
  put := by
    rintro s m rfl key v
    exact ⟨⟨true, rfl⟩, funext fun k => by simp [dictApi, Dict.get?_set, Function.update_apply]⟩
  remove := by
    rintro s m rfl key
    simp only [dictApi]
    cases hv : s.get? key with
    | none =>
      refine ⟨.inr ⟨_, rfl, rfl⟩, funext fun k => ?_⟩
      by_cases hk : k = key
      · subst k
        simp [hv]
      · simp [Function.update_of_ne hk]
    | some v => exact ⟨.inl ⟨true, rfl⟩, funext fun k => by simp [Dict.get?_erase, Function.update_apply]⟩

theorem calls_plain {ι : Type} (cs : List (MapCall String Bytes)) :
    MapStore.Event.calls (cs.map (MapStore.Event.call (ι := ι))) = cs := by
  induction cs with
  | nil => rfl
  | cons c cs ih => rw [List.map_cons, MapStore.Event.calls, ih]

open MapStore (Event)

/-- The three key-value stores answer any calls alike, as the plain table of what
was put last, also where the file store is opened anew between calls; the two
that list their keys list the same ones. -/
theorem stores_agree (hnames : Function.Injective (LocalFileKVStore.hashKey digest)) (hapi : api.Documented R)
    {s₀ : σ} (hempty : R s₀ fun _ => none) (repr : String → String) (es : List (Event String Bytes Unit)) :
    (localFileStore digest).answers reopen ⟨∅, ∅⟩ es =
      (Table.answers (fun _ => none) (Event.calls es)).map .ok ∧
    inMemoryStore.answers noOwn ∅ ((Event.calls es).map .call) =
      (Table.answers (fun _ => none) (Event.calls es)).map .ok ∧
    (fluxonStore api repr).answers noOwn s₀ ((Event.calls es).map .call) =
      (Table.answers (fun _ => none) (Event.calls es)).map .ok ∧
    ∃ f m, (localFileStore digest).after reopen ⟨∅, ∅⟩ es = .ok f ∧
      inMemoryStore.after noOwn ∅ ((Event.calls es).map .call) = .ok m ∧
      ∀ key, key ∈ f.listKeys ↔ key ∈ InMemoryKVStore.listKeys m := by
  have hfile := localFile_represents hnames
  have hmemory := inMemory_represents.answers (s := ∅) rfl ((Event.calls es).map .call)
  have hfluxon := (fluxon_represents repr hapi).answers (m := fun _ => none) hempty
    ((Event.calls es).map .call)
  rw [calls_plain] at hmemory hfluxon
  refine ⟨hfile.answers keeps_empty es, hmemory, hfluxon, ?_⟩
  obtain ⟨f, hf, hkeeps⟩ := hfile.after keeps_empty es
  obtain ⟨m, hm, hget⟩ := inMemory_represents.after (s := ∅) rfl ((Event.calls es).map .call)
  rw [calls_plain] at hget
  refine ⟨f, m, hf, hm, fun key => ?_⟩
  have hempty' : (fun _ : String => (none : Option Bytes)) = (∅ : InMemoryKVStore).get? := rfl
  rw [hkeeps.listed, hempty', ← hget, InMemoryKVStore.listKeys, Dict.mem_keys, Option.ne_none_iff_exists']

/-- A store of bytes under a key that is put, read after a restart and removed. -/
theorem stores_agree_restart :
    (localFileStore id).answers reopen ⟨∅, ∅⟩
      [.call (.put "k" [1]), .own (), .call (.get "k"), .call (.remove "k"), .own (), .call (.get "k")] =
        [.ok none, .ok (some [1]), .ok none, .ok none] :=
  (stores_agree (hashKey_injective Function.injective_id) (dictApi_documented Unit)
    (show (∅ : Dict String (FieldValue Unit)).get? = fun _ => none from rfl) id
    [.call (.put "k" [1]), .own (), .call (.get "k"), .call (.remove "k"), .own (), .call (.get "k")]).1

end CacheSeek.Stores
