import CacheSeek.Approximate.Save
import CacheSeek.Lib.Members

namespace CacheSeek.Proofs.LatentKeys
open CacheSeek.Lib CacheSeek.Prefix CacheSeek.Approximate CacheSeek.Approximate.VideoApproxPayload

variable {T : Type} {io : TorchIO T} {cacheId : String}

def Typed (p : VideoApproxPayload T) : Prop :=
  ∀ step value, p.stepToLatents.get? step = some value → (∃ t, value = .tensor t) ∨ ∃ b, value = .bytes b

theorem Typed.valueBytes {p : VideoApproxPayload T} (h : Typed p) {step : Int} {value : LatentValue T}
    (hv : (step, value) ∈ p.stepToLatents.entries) : ∃ blob, valueBytes io step value = .ok blob := by
  obtain ⟨t, ht⟩ | ⟨b, hb⟩ := h step value ((Dict.get?_eq_some_iff _).mpr hv)
  · exact ⟨io.save t, by rw [ht]; rfl⟩
  · exact ⟨b, by rw [hb]; rfl⟩

/-- Without a TypeError each entry is yielded under its key. -/
theorem mem_kvEntries {entries : List (Int × LatentValue T)}
    (h : ∀ e ∈ entries, ∃ blob, valueBytes io e.1 e.2 = .ok blob) {w : String × Bytes} :
    w ∈ (kvEntries io cacheId entries).1 ↔
      ∃ e ∈ entries, w.1 = kvKey cacheId e.1 ∧ valueBytes io e.1 e.2 = .ok w.2 := by
  induction entries with
  | nil => simp [kvEntries]
  | cons e entries ih =>
    obtain ⟨blob, hblob⟩ := h e List.mem_cons_self
    have ih := ih fun e he => h e (List.mem_cons_of_mem _ he)
    simp only [kvEntries, hblob, List.mem_cons, ih, exists_eq_or_imp]
    apply or_congr _ Iff.rfl
    obtain ⟨key, data⟩ := w
    simp only [Prod.mk.injEq, Except.ok.injEq, eq_comm]

theorem kvEntries_ends {entries : List (Int × LatentValue T)}
    (h : ∀ e ∈ entries, ∃ blob, valueBytes io e.1 e.2 = .ok blob) :
    (kvEntries io cacheId entries).2 = .ok () := by
  induction entries with
  | nil => rfl
  | cons e entries ih =>
    obtain ⟨blob, hblob⟩ := h e List.mem_cons_self
    simp only [kvEntries, hblob]
    exact ih fun e he => h e (List.mem_cons_of_mem _ he)

/-- The keys, in the order of the payload's steps. -/
theorem kvEntries_keys {entries : List (Int × LatentValue T)}
    (h : ∀ e ∈ entries, ∃ blob, valueBytes io e.1 e.2 = .ok blob) :
    (kvEntries io cacheId entries).1.map Prod.fst = (entries.map Prod.fst).map (kvKey cacheId) := by
  induction entries with
  | nil => rfl
  | cons e entries ih =>
    obtain ⟨blob, hblob⟩ := h e List.mem_cons_self
    simp only [kvEntries, hblob, List.map_cons]
    rw [ih fun e he => h e (List.mem_cons_of_mem _ he)]

theorem kvKey_injective (cacheId : String) : Function.Injective (kvKey cacheId) :=
  fun _ _ h => (kvKey_inj h).2

/-- The entries of payloads with different ids have different keys. -/
theorem nodup_keys {ps : List (VideoApproxPayload T)} (hids : (ps.map (·.cacheId)).Nodup)
    (htyped : ∀ p ∈ ps, Typed p) :
    ((ps.flatMap fun p => (p.toKvEntries io).1).map Prod.fst).Nodup := by
  induction ps with
  | nil => exact List.nodup_nil
  | cons p ps ih =>
    rw [List.map_cons, List.nodup_cons] at hids
    have hrest := ih hids.2 fun q hq => htyped q (List.mem_cons_of_mem _ hq)
    have hp : ∀ e ∈ p.stepToLatents.entries, ∃ blob, valueBytes io e.1 e.2 = .ok blob :=
      fun e he => (htyped p List.mem_cons_self).valueBytes he
    rw [List.flatMap_cons, List.map_append, List.nodup_append]
    refine ⟨?_, hrest, ?_⟩
    · rw [toKvEntries, kvEntries_keys hp]
      exact p.stepToLatents.nodup.map (kvKey_injective p.cacheId)
    · intro key hkey key' hkey' heq
      subst key'
      rw [toKvEntries, kvEntries_keys hp, List.mem_map] at hkey
      obtain ⟨step, _, rfl⟩ := hkey
      obtain ⟨w, hw, hw'⟩ := List.mem_map.mp hkey'
      obtain ⟨q, hq, hw⟩ := List.mem_flatMap.mp hw
      have hq' : ∀ e ∈ q.stepToLatents.entries, ∃ blob, valueBytes io e.1 e.2 = .ok blob :=
        fun e he => (htyped q (List.mem_cons_of_mem _ hq)).valueBytes he
      obtain ⟨e, _, hkey, _⟩ := (mem_kvEntries hq').mp hw
      rw [hw'] at hkey
      exact hids.1 (List.mem_map.mpr ⟨q, hq, (kvKey_inj hkey).1.symm⟩)

variable {faults : Faults}

theorem serializeValue_ok {w w' : World} {step : Int} {value : LatentValue T} {blob : Bytes}
    (h : serializeValue faults io w step value = (.ok blob, w')) :
    valueBytes io step value = .ok blob ∧ w'.stores = w.stores := by
  cases value with
  | tensor t =>
    simp only [serializeValue, World.call] at h
    cases hf : faults (.serialize step) w.calls with
    | returns =>
      rw [hf] at h
      cases h
      exact ⟨rfl, rfl⟩
    | raises exc =>
      rw [hf] at h
      cases h
    | raisesDone exc =>
      rw [hf] at h
      cases h
  | bytes b =>
    cases h
    exact ⟨rfl, rfl⟩
  | none => cases h
  | other name => cases h

theorem kvPut_ok {w w' : World} {key : String} {blob : Bytes}
    (h : w.kvPut faults key blob = (.ok (), w')) : w'.stores.kv = w.stores.kv.set key blob := by
  simp only [World.kvPut, World.call] at h
  cases hf : faults (.kvPut key) w.calls with
  | returns =>
    rw [hf] at h
    cases h
    rfl
  | raises exc =>
    rw [hf] at h
    cases h
  | raisesDone exc =>
    rw [hf] at h
    cases h

/-- However the loop ends, the steps it read back are a first part of the payload's, and a loop that ends
well has put every entry. -/
structure Recovered (io : TorchIO T) (cacheId : String) (entries : List (Int × LatentValue T))
    (before after : Stores) (saved : List Int) (res : Except Failure Unit) : Prop where
  pre : saved <+: entries.map Prod.fst
  all : res = .ok () → saved = entries.map Prod.fst
  yields : res = .ok () → (kvEntries io cacheId entries).2 = .ok ()
  kv : res = .ok () → after.kv =
    (kvEntries io cacheId entries).1.foldl (fun kv e => kv.set e.1 e.2) before.kv

theorem putLatents_recovered (entries : List (Int × LatentValue T)) (saved : List Int) (w : World) :
    ∃ more, (putLatents faults io cacheId entries saved w).2.1 = saved ++ more ∧
      Recovered io cacheId entries w.stores (putLatents faults io cacheId entries saved w).2.2.stores more
        (putLatents faults io cacheId entries saved w).1 := by
  induction entries generalizing saved w with
  | nil => exact ⟨[], (List.append_nil _).symm, List.nil_prefix, fun _ => rfl, fun _ => rfl, fun _ => rfl⟩
  | cons e entries ih =>
    obtain ⟨step, value⟩ := e
    have hstop : ∀ (exc : Failure) (s : Stores), Recovered io cacheId ((step, value) :: entries) w.stores s []
        (.error exc) := fun exc s =>
      ⟨List.nil_prefix, fun h => (by cases h), fun h => (by cases h), fun h => (by cases h)⟩
    cases hs : serializeValue faults io w step value with
    | mk res w1 =>
      cases res with
      | error exc =>
        simp only [putLatents, hs]
        exact ⟨[], (List.append_nil _).symm, hstop exc _⟩
      | ok blob =>
        obtain ⟨hblob, hw1⟩ := serializeValue_ok hs
        cases hp : w1.kvPut faults (kvKey cacheId step) blob with
        | mk res w2 =>
          cases res with
          | error exc =>
            simp only [putLatents, hs, hp]
            exact ⟨[], (List.append_nil _).symm, hstop exc _⟩
          | ok _ =>
            simp only [putLatents, hs, hp, stepOfKey_kvKey]
            obtain ⟨more, hmore, hrec⟩ := ih (saved ++ [step]) w2
            refine ⟨step :: more, by rw [hmore, List.append_assoc]; rfl, ?_, ?_, ?_, ?_⟩
            · exact List.cons_prefix_cons.mpr ⟨rfl, hrec.pre⟩
            · intro hok
              rw [hrec.all hok]
              rfl
            · intro hok
              simp only [kvEntries, hblob]
              exact hrec.yields hok
            · intro hok
              rw [hrec.kv hok, kvPut_ok hp, hw1]
              simp only [kvEntries, hblob, List.foldl_cons]

/-- Over backends that never raise, typed values are all put. -/
theorem putLatents_returns (hf : ∀ c n, faults c n = .returns) {entries : List (Int × LatentValue T)}
    (h : ∀ e ∈ entries, ∃ blob, valueBytes io e.1 e.2 = .ok blob) (saved : List Int) (w : World) :
    (putLatents faults io cacheId entries saved w).1 = .ok () := by
  induction entries generalizing saved w with
  | nil => rfl
  | cons e entries ih =>
    obtain ⟨step, value⟩ := e
    obtain ⟨blob, hblob⟩ := h (step, value) List.mem_cons_self
    have ih := fun saved w => ih (fun e he => h e (List.mem_cons_of_mem _ he)) saved w
    cases value with
    | tensor t => simp only [putLatents, serializeValue, World.kvPut, World.call, hf, stepOfKey_kvKey, ih]
    | bytes b => simp only [putLatents, serializeValue, World.kvPut, World.call, hf, stepOfKey_kvKey, ih]
    | none => cases hblob
    | other name => cases hblob

theorem get?_loaded (kvLoader : String → Option Bytes) (steps : List Int) (loaded : Dict Int (LatentValue T))
    (step : Int) :
    (steps.foldl (fun loaded step =>
      match kvLoader (kvKey cacheId step) with
      | some data => loaded.set step (.bytes data)
      | none => loaded) loaded).get? step =
      if step ∈ steps then ((kvLoader (kvKey cacheId step)).map .bytes).or (loaded.get? step)
      else loaded.get? step := by
  induction steps generalizing loaded with
  | nil => rfl
  | cons n steps ih =>
    rw [List.foldl_cons, ih]
    by_cases hn : step = n
    · subst n
      cases hload : kvLoader (kvKey cacheId step) with
      | none => simp
      | some data => simp
    · cases hload : kvLoader (kvKey cacheId n) with
      | none => simp [hn]
      | some data => simp [hn, Dict.get?_set_ne]

/-- A loaded step is a requested one whose key is there. -/
theorem get?_fromKvLoader (kvLoader : String → Option Bytes) (spec : VideoApproxPartialSpec) {step : Int}
    {value : LatentValue T} :
    (fromKvLoader cacheId kvLoader spec : VideoApproxPayload T).stepToLatents.get? step = some value ↔
      step ∈ spec.steps ∧ ∃ data, kvLoader (kvKey cacheId step) = some data ∧ value = .bytes data := by
  have hget : (fromKvLoader cacheId kvLoader spec : VideoApproxPayload T).stepToLatents.get? step = _ :=
    get?_loaded kvLoader spec.steps ∅ step
  rw [hget]
  by_cases hstep : step ∈ spec.steps
  · simp [hstep, eq_comm]
  · simp [hstep]

/-- Ids, steps and keys determine each other; `save` reads back the steps that were yielded; and from what
a family of payloads leaves in one store, whatever the order of the puts, a load of some steps under some
id gives those steps of the payload with that id and no others, each with its own bytes. -/
theorem latent_keys_round_trip (io : TorchIO T) :
    (∀ (cacheId cacheId' : String) (step step' : Int),
      kvKey cacheId step = kvKey cacheId' step' ↔ cacheId = cacheId' ∧ step = step') ∧
    (∀ p : VideoApproxPayload T, Typed p → (p.toKvEntries io).2 = .ok () ∧
      (p.toKvEntries io).1.map (fun e => stepOfKey e.1) = p.stepToLatents.keys.map some) ∧
    (∀ (faults : Faults) (p : VideoApproxPayload T) (w : World),
      Recovered io p.cacheId p.stepToLatents.entries w.stores
        (putLatents faults io p.cacheId p.stepToLatents.entries [] w).2.2.stores
        (putLatents faults io p.cacheId p.stepToLatents.entries [] w).2.1
        (putLatents faults io p.cacheId p.stepToLatents.entries [] w).1 ∧
      (Typed p → (∀ c n, faults c n = .returns) →
        (putLatents faults io p.cacheId p.stepToLatents.entries [] w).1 = .ok ())) ∧
    (∀ ps : List (VideoApproxPayload T), (ps.map (·.cacheId)).Nodup → (∀ p ∈ ps, Typed p) →
      ∀ writes, writes.Perm (ps.flatMap fun p => (p.toKvEntries io).1) →
      ∀ (cacheId : String) (spec : VideoApproxPartialSpec) (step : Int) (value : LatentValue T),
        (fromKvLoader cacheId (Dict.ofEntries writes).get? spec).stepToLatents.get? step = some value ↔
          step ∈ spec.steps ∧ ∃ p ∈ ps, p.cacheId = cacheId ∧ ∃ own data,
            p.stepToLatents.get? step = some own ∧ valueBytes io step own = .ok data ∧
            value = .bytes data) := by
  refine ⟨?_, ?_, ?_, ?_⟩
  · intro cacheId cacheId' step step'
    exact ⟨kvKey_inj, fun h => by rw [h.1, h.2]⟩
  · intro p htyped
    have hp : ∀ e ∈ p.stepToLatents.entries, ∃ blob, valueBytes io e.1 e.2 = .ok blob :=
      fun e he => htyped.valueBytes he
    refine ⟨kvEntries_ends hp, ?_⟩
    have hkeys : (p.toKvEntries io).1.map Prod.fst = _ := kvEntries_keys hp
    have hsteps := congrArg (List.map stepOfKey) hkeys
    simpa only [List.map_map, Function.comp_def, stepOfKey_kvKey, Dict.keys] using hsteps
  · intro faults p w
    obtain ⟨more, hmore, hrec⟩ := putLatents_recovered p.stepToLatents.entries [] w
    rw [hmore, List.nil_append]
    exact ⟨hrec, fun htyped hf => putLatents_returns hf (fun e he => htyped.valueBytes he) [] w⟩
  · intro ps hids htyped writes hperm cacheId spec step value
    have hnodup : (writes.map Prod.fst).Nodup := (hperm.map Prod.fst).nodup_iff.mpr (nodup_keys hids htyped)
    rw [get?_fromKvLoader]
    apply and_congr_right
    intro _
    constructor
    · intro h
      obtain ⟨data, hdata, rfl⟩ := h
      have hw := hperm.mem_iff.mp ((Dict.get?_ofEntries hnodup).mp hdata)
      obtain ⟨p, hp, hw⟩ := List.mem_flatMap.mp hw
      obtain ⟨e, he, hkey, hblob⟩ := (mem_kvEntries fun e he => (htyped p hp).valueBytes he).mp hw
      obtain ⟨hid, rfl⟩ := kvKey_inj hkey
      exact ⟨p, hp, hid.symm, e.2, data, (Dict.get?_eq_some_iff _).mpr he, hblob, rfl⟩
    · intro h
      obtain ⟨p, hp, rfl, own, data, hown, hblob, rfl⟩ := h
      refine ⟨data, (Dict.get?_ofEntries hnodup).mpr (hperm.mem_iff.mpr ?_), rfl⟩
      apply List.mem_flatMap.mpr
      refine ⟨p, hp, (mem_kvEntries fun e he => (htyped p hp).valueBytes he).mpr ?_⟩
      exact ⟨(step, own), (Dict.get?_eq_some_iff _).mp hown, rfl, hblob⟩

def markedIO : TorchIO Bytes := ⟨fun t => 80 :: t, fun b => .ok b.tail, List.length⟩

def outer : VideoApproxPayload Bytes := ⟨"a", Dict.ofEntries [(12, .tensor [7]), (-1, .bytes [9])], "video_approx_v1"⟩

/-- Its id is a key of `outer`'s form. -/
def inner : VideoApproxPayload Bytes := ⟨"a_step12", Dict.ofEntries [(12, .bytes [5])], "video_approx_v1"⟩

theorem latent_keys_round_trip_nested :
    (fromKvLoader "a" (Dict.ofEntries ([outer, inner].flatMap fun p => (p.toKvEntries markedIO).1).reverse).get?
      ⟨[3, 12]⟩).stepToLatents.get? 12 = some (LatentValue.bytes [80, 7] : LatentValue Bytes) := by
  have houter : Typed outer := by
    intro step value h
    have hmem := (Dict.get?_eq_some_iff _).mp h
    have hentries : outer.stepToLatents.entries = [(12, .tensor [7]), (-1, .bytes [9])] := by decide
    rw [hentries] at hmem
    simp only [List.mem_cons, Prod.mk.injEq, List.not_mem_nil, or_false] at hmem
    obtain ⟨_, rfl⟩ | ⟨_, rfl⟩ := hmem
    · exact Or.inl ⟨_, rfl⟩
    · exact Or.inr ⟨_, rfl⟩
  have hinner : Typed inner := by
    intro step value h
    have hmem := (Dict.get?_eq_some_iff _).mp h
    have hentries : inner.stepToLatents.entries = [(12, .bytes [5])] := by decide
    rw [hentries] at hmem
    simp only [List.mem_cons, Prod.mk.injEq, List.not_mem_nil, or_false] at hmem
    obtain ⟨_, rfl⟩ := hmem
    exact Or.inr ⟨_, rfl⟩
  have htyped : ∀ p ∈ [outer, inner], Typed p := by
    intro p hp
    simp only [List.mem_cons, List.not_mem_nil, or_false] at hp
    obtain rfl | rfl := hp
    · exact houter
    · exact hinner
  apply ((latent_keys_round_trip markedIO).2.2.2 [outer, inner] (by decide) htyped _ (List.reverse_perm _) "a"
    ⟨[3, 12]⟩ 12 (.bytes [80, 7])).mpr
  exact ⟨by decide, outer, by simp, rfl, .tensor [7], [80, 7], by decide, rfl, rfl⟩

end CacheSeek.Proofs.LatentKeys
