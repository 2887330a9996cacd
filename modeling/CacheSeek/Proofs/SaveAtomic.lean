import CacheSeek.Approximate.Save
import Mathlib.Data.List.Dedup

namespace CacheSeek.Proofs.SaveAtomic
open CacheSeek.Lib CacheSeek.Approximate

variable {T F : Type} {S : VideoBasedApproximateCache T F} {faults : Faults} {cacheId : String}
  {steps : List Int} {w w' : World} {s s' : Stores}

/-- A call that raises has had no effect. -/
def Clean (faults : Faults) : Prop := ∀ c n exc, faults c n ≠ .raisesDone exc

structure CleanupReturns (faults : Faults) : Prop where
  kvRemove : ∀ key n, faults (.kvRemove key) n = .returns
  vectorDelete : ∀ pointId n, faults (.vectorDelete pointId) n = .returns
  removeCache : ∀ cacheId n, faults (.removeCache cacheId) n = .returns

/-- What a call leaves of the world: `s` in the stores, and `k` more raised. -/
structure Leaves (w w' : World) (s : Stores) (k : Nat) : Prop where
  stores : w'.stores = s
  raised : w'.raised = w.raised + k

/-- A backend call takes its effect or raises without one. -/
theorem call_clean (hf : Clean faults) (w : World) (c : BackendCall) (effect : Stores → Stores) :
    (∃ w', w.call faults c effect = (.ok (), w') ∧ Leaves w w' (effect w.stores) 0) ∨
    ∃ exc w', w.call faults c effect = (.error exc, w') ∧ Leaves w w' w.stores 1 := by
  unfold World.call
  cases h : faults c w.calls with
  | returns => exact Or.inl ⟨_, rfl, rfl, rfl⟩
  | raises exc => exact Or.inr ⟨exc, _, rfl, rfl, rfl⟩
  | raisesDone exc => exact absurd h (hf c _ exc)

theorem call_returns {c : BackendCall} (hc : ∀ n, faults c n = .returns) (w : World)
    (effect : Stores → Stores) :
    ∃ w', w.call faults c effect = (.ok (), w') ∧ Leaves w w' (effect w.stores) 0 := by
  unfold World.call
  rw [hc]
  exact ⟨_, rfl, rfl, rfl⟩

structure Stored (cacheId : String) (steps : List Int) (s s' : Stores) : Prop where
  vectors : s'.vectors = s.vectors
  metadata : s'.metadata = s.metadata
  stored : ∀ step ∈ steps, (s'.kv.get? (kvKey cacheId step)).isSome = true
  other : ∀ key, (∀ step ∈ steps, key ≠ kvKey cacheId step) → s'.kv.get? key = s.kv.get? key

structure Removed (cacheId : String) (steps : List Int) (s s' : Stores) : Prop where
  vectors : s'.vectors = s.vectors
  metadata : s'.metadata = s.metadata
  removed : ∀ step ∈ steps, s'.kv.get? (kvKey cacheId step) = none
  other : ∀ key, (∀ step ∈ steps, key ≠ kvKey cacheId step) → s'.kv.get? key = s.kv.get? key

theorem serializeValue_clean (hf : Clean faults) (io : TorchIO T) (w : World) (step : Int)
    (value : LatentValue T) :
    (∃ blob w', serializeValue faults io w step value = (.ok blob, w') ∧ Leaves w w' w.stores 0) ∨
    ∃ exc w', serializeValue faults io w step value = (.error exc, w') ∧ Leaves w w' w.stores 1 := by
  cases value with
  | tensor t =>
    rcases call_clean hf w (.serialize step) id with ⟨w', he, hw⟩ | ⟨exc, w', he, hw⟩
    · exact Or.inl ⟨io.save t, w', by simp only [serializeValue, he], hw⟩
    · exact Or.inr ⟨exc, w', by simp only [serializeValue, he], hw⟩
  | bytes b => exact Or.inl ⟨b, w, rfl, rfl, rfl⟩
  | none => exact Or.inr ⟨_, _, rfl, rfl, rfl⟩
  | other name => exact Or.inr ⟨_, _, rfl, rfl, rfl⟩

theorem Stored.refl (cacheId : String) (s : Stores) : Stored cacheId [] s s :=
  ⟨rfl, rfl, (fun _ h => nomatch h), fun _ _ => rfl⟩

theorem Stored.put (h : Stored cacheId steps s s') (step : Int) (blob : Prefix.Bytes) :
    Stored cacheId (steps ++ [step]) s { s' with kv := s'.kv.set (kvKey cacheId step) blob } := by
  refine ⟨h.vectors, h.metadata, ?_, ?_⟩
  · intro n hn
    rw [Dict.get?_set]
    split
    · rfl
    · rename_i hne
      rcases List.mem_append.mp hn with hn | hn
      · exact h.stored n hn
      · rw [List.mem_singleton] at hn
        exact absurd (congrArg _ hn) hne
  · intro key hkey
    rw [Dict.get?_set_ne _ _ (hkey step (by simp))]
    exact h.other key fun n hn => hkey n (List.mem_append_left _ hn)

/-- The loop stores a first part of the entries: all of them if no call raises. -/
theorem putLatents_clean (hf : Clean faults) (io : TorchIO T) (entries : List (Int × LatentValue T))
    (s : Stores) (hs : Stored cacheId steps s w.stores) :
    (∃ w', putLatents faults io cacheId entries steps w = (.ok (), steps ++ entries.map Prod.fst, w') ∧
      Stored cacheId (steps ++ entries.map Prod.fst) s w'.stores ∧ w'.raised = w.raised) ∨
    ∃ exc saved w', putLatents faults io cacheId entries steps w = (.error exc, saved, w') ∧
      Stored cacheId saved s w'.stores ∧ w'.raised = w.raised + 1 := by
  induction entries generalizing steps w with
  | nil =>
    left
    refine ⟨w, ?_, ?_, rfl⟩
    · simp [putLatents]
    · simpa using hs
  | cons e entries ih =>
    obtain ⟨step, value⟩ := e
    rcases serializeValue_clean hf io w step value with ⟨blob, w1, he, hw1⟩ | ⟨exc, w1, he, hw1⟩
    · rcases call_clean hf w1 (.kvPut (kvKey cacheId step))
        (fun s => { s with kv := s.kv.set (kvKey cacheId step) blob }) with ⟨w2, hp, hw2⟩ | ⟨exc, w2, hp, hw2⟩
      · have hstep : putLatents faults io cacheId ((step, value) :: entries) steps w =
            putLatents faults io cacheId entries (steps ++ [step]) w2 := by
          simp only [putLatents, he, World.kvPut, hp, stepOfKey_kvKey]
        have hs2 : Stored cacheId (steps ++ [step]) s w2.stores := by
          rw [hw2.stores, hw1.stores]
          exact hs.put step blob
        have hraised : w2.raised = w.raised := by rw [hw2.raised, hw1.raised]; rfl
        rw [hstep, List.map_cons, ← hraised]
        have := ih hs2
        simpa only [List.append_assoc, List.singleton_append] using this
      · right
        refine ⟨exc, steps, w2, ?_, ?_, ?_⟩
        · simp only [putLatents, he, World.kvPut, hp]
        · rw [hw2.stores, hw1.stores]
          exact hs
        · rw [hw2.raised, hw1.raised]
    · right
      refine ⟨exc, steps, w1, ?_, ?_, hw1.raised⟩
      · simp only [putLatents, he]
      · rw [hw1.stores]
        exact hs

/-- A cleanup whose calls return leaves none of the saved steps. -/
theorem removeEach_clean (hf : CleanupReturns faults) (cacheId : String) (steps : List Int) (w : World) :
    ∃ w', removeEach faults cacheId steps w = ([], w') ∧ Removed cacheId steps w.stores w'.stores ∧
      w'.raised = w.raised := by
  induction steps generalizing w with
  | nil => exact ⟨w, rfl, ⟨rfl, rfl, (fun _ h => nomatch h), fun _ _ => rfl⟩, rfl⟩
  | cons step steps ih =>
    obtain ⟨w1, he, hw1⟩ := call_returns (hf.kvRemove (kvKey cacheId step)) w
      fun s => { s with kv := s.kv.erase (kvKey cacheId step) }
    obtain ⟨w', hr, hrem, hraised⟩ := ih w1
    rw [hw1.stores] at hrem
    refine ⟨w', ?_, ⟨hrem.vectors, hrem.metadata, ?_, ?_⟩, ?_⟩
    · simp only [removeEach, World.kvRemove, he, hr]
    · intro n hn
      by_cases hn' : n ∈ steps
      · exact hrem.removed n hn'
      · obtain rfl : n = step := (List.mem_cons.mp hn).resolve_right hn'
        have hno : ∀ k ∈ steps, kvKey cacheId n ≠ kvKey cacheId k := by
          intro k hk hkey
          rw [(kvKey_inj hkey).2] at hn'
          exact hn' hk
        rw [hrem.other _ hno, Dict.get?_erase, if_pos rfl]
    · intro key hkey
      rw [hrem.other key fun n hn => hkey n (List.mem_cons_of_mem step hn), Dict.get?_erase,
        if_neg (hkey step List.mem_cons_self)]
    · rw [hraised, hw1.raised]
      rfl

theorem removeSavedLatents_clean (hf : CleanupReturns faults) (cacheId : String) (steps : List Int)
    (w : World) :
    ∃ w', removeSavedLatents faults cacheId steps w = (.ok (), w') ∧
      Removed cacheId steps w.stores w'.stores ∧ w'.raised = w.raised := by
  obtain ⟨w', he, hrem, hraised⟩ := removeEach_clean hf cacheId steps w
  exact ⟨w', by simp only [removeSavedLatents, he], hrem, hraised⟩

/-- Nothing is held for the id. -/
structure Nothing (cacheId : String) (s : Stores) : Prop where
  kv : ∀ step, s.kv.get? (kvKey cacheId step) = none
  vectors : s.vectors.get? cacheId = none
  metadata : s.metadata.get? cacheId = none

/-- All three stores hold the id, with the same steps. -/
def Complete (cacheId : String) (s : Stores) : Prop :=
  ∃ steps : List Int, steps ≠ [] ∧ (∀ step, (s.kv.get? (kvKey cacheId step)).isSome = true ↔ step ∈ steps) ∧
    (∃ point, s.vectors.get? cacheId = some point ∧ point.payload.savedSteps = steps) ∧
    ∃ r, s.metadata.get? cacheId = some r ∧ r.savedSteps = steps

structure Untouched (cacheId : String) (s s' : Stores) : Prop where
  kv : ∀ key, (∀ step, key ≠ kvKey cacheId step) → s'.kv.get? key = s.kv.get? key
  latents : ∀ id, id ≠ cacheId → ∀ step, s'.kv.get? (kvKey id step) = s.kv.get? (kvKey id step)
  vectors : ∀ id, id ≠ cacheId → s'.vectors.get? id = s.vectors.get? id
  metadata : ∀ id, id ≠ cacheId → s'.metadata.get? id = s.metadata.get? id

theorem untouched_of (hkv : ∀ key, (∀ step, key ≠ kvKey cacheId step) → s'.kv.get? key = s.kv.get? key)
    (hvectors : ∀ id, id ≠ cacheId → s'.vectors.get? id = s.vectors.get? id)
    (hmetadata : ∀ id, id ≠ cacheId → s'.metadata.get? id = s.metadata.get? id) :
    Untouched cacheId s s' :=
  ⟨hkv, fun _ hid _ => hkv _ fun _ hkey => hid (kvKey_inj hkey).1, hvectors, hmetadata⟩

/-- The save has left its whole entry or nothing of it, and raised as its calls did. -/
structure AllOrNothing (cacheId : String) (w w' : World) (res : Except Failure Unit) : Prop where
  entry : Complete cacheId w'.stores ∨ Nothing cacheId w'.stores
  untouched : Untouched cacheId w.stores w'.stores
  raised : (∃ exc, res = .error exc) ↔ w.raised < w'.raised

/-- Removing what was stored restores the key-value store. -/
theorem Removed.kv_same {s1 : Stores} (hrem : Removed cacheId steps s1 s')
    (hother : ∀ key, (∀ step ∈ steps, key ≠ kvKey cacheId step) → s1.kv.get? key = s.kv.get? key)
    (hfresh : Nothing cacheId s) (key : String) : s'.kv.get? key = s.kv.get? key := by
  by_cases hkey : ∃ step ∈ steps, key = kvKey cacheId step
  · obtain ⟨step, hstep, rfl⟩ := hkey
    rw [hrem.removed step hstep, hfresh.kv step]
  · have hno : ∀ step ∈ steps, key ≠ kvKey cacheId step := fun step hstep he => hkey ⟨step, hstep, he⟩
    rw [hrem.other key hno, hother key hno]

/-- The steps that are saved, in order. -/
def stepsOf (outputs : ModelOutputs T F) : List Int := (validLatents outputs).map Prod.fst

/-- The latents written are among the sorted steps, in their order. -/
theorem stepsOf_sublist (outputs : ModelOutputs T F) :
    (stepsOf outputs).Sublist (sortedSet outputs.savedSteps) := by
  unfold stepsOf validLatents
  induction sortedSet outputs.savedSteps with
  | nil => exact List.Sublist.slnil
  | cons step rest ih =>
    rw [List.filterMap_cons]
    cases outputs.latentStatesDict.get? step with
    | none => exact ih.cons step
    | some value =>
      cases value with
      | none => exact ih.cons step
      | _ => exact ih.cons_cons step

/-- Without latents or steps there is nothing to save. -/
theorem validLatents_ne_nil {outputs : ModelOutputs T F} (h : validLatents outputs ≠ []) :
    (outputs.latentStatesDict.entries.isEmpty || outputs.savedSteps.isEmpty) = false := by
  rw [Bool.or_eq_false_iff, List.isEmpty_eq_false_iff, List.isEmpty_eq_false_iff]
  constructor
  · intro hnil
    apply h
    apply List.filterMap_eq_nil_iff.mpr
    intro step _
    simp only [Dict.get?, hnil, List.lookup_nil]
  · intro hnil
    apply h
    rw [validLatents, hnil]
    rfl

theorem sortedSet_stepsOf (outputs : ModelOutputs T F) :
    sortedSet (stepsOf outputs) = stepsOf outputs :=
  sortedSet_of_sorted ((sortedSet_sorted _).sublist (stepsOf_sublist outputs))

theorem rollbackVector_clean {cacheId : String} (hf : ∀ n, faults (.vectorDelete cacheId) n = .returns)
    (S : VideoBasedApproximateCache T F) (collection : String) (removeVector : Bool) (w : World) :
    ∃ w', rollbackVector S faults collection cacheId removeVector w = ([], w') ∧ w'.raised = w.raised ∧
      w'.stores.kv = w.stores.kv ∧ w'.stores.metadata = w.stores.metadata ∧
      w'.stores.vectors = (if removeVector && S.hasVectorStore then w.stores.vectors.erase cacheId
        else w.stores.vectors) := by
  unfold rollbackVector
  split
  · obtain ⟨w', he, hw⟩ := call_returns hf w fun s => { s with vectors := s.vectors.erase cacheId }
    refine ⟨w', by simp only [World.vectorDelete, he], hw.raised, ?_, ?_, ?_⟩
    · rw [hw.stores]
    · rw [hw.stores]
    · rw [hw.stores]
  · exact ⟨w, rfl, rfl, rfl, rfl, rfl⟩

theorem rollbackMetadata_clean {cacheId : String} (hf : ∀ n, faults (.removeCache cacheId) n = .returns)
    (removeMetadata : Bool) (w : World) :
    ∃ w', rollbackMetadata faults cacheId removeMetadata w = ([], w') ∧ w'.raised = w.raised ∧
      w'.stores.kv = w.stores.kv ∧ w'.stores.vectors = w.stores.vectors ∧
      w'.stores.metadata = (if removeMetadata then w.stores.metadata.erase cacheId
        else w.stores.metadata) := by
  unfold rollbackMetadata
  split
  · obtain ⟨w', he, hw⟩ := call_returns hf w fun s => { s with metadata := s.metadata.erase cacheId }
    refine ⟨w', by simp only [World.removeCache, he], hw.raised, ?_, ?_, ?_⟩
    · rw [hw.stores]
    · rw [hw.stores]
    · rw [hw.stores]
  · exact ⟨w, rfl, rfl, rfl, rfl, rfl⟩

/-- What a save has written so far is taken back, whatever is missing of it. -/
theorem rollback_clean (hf : CleanupReturns faults) (S : VideoBasedApproximateCache T F) (cacheId : String)
    (steps : List Int) (collection : String) (removeVector removeMetadata : Bool) (w : World) :
    ∃ w', rollbackCacheEntry S faults cacheId steps collection removeVector removeMetadata w = (.ok (), w') ∧
      w'.raised = w.raised ∧ (∃ s1, s1.kv = w.stores.kv ∧ Removed cacheId steps s1 w'.stores) ∧
      w'.stores.vectors = (if removeVector && S.hasVectorStore then w.stores.vectors.erase cacheId
        else w.stores.vectors) ∧
      w'.stores.metadata = (if removeMetadata then w.stores.metadata.erase cacheId
        else w.stores.metadata) := by
  obtain ⟨w1, hv, hw1, hkv1, hmeta1, hvec1⟩ :=
    rollbackVector_clean (hf.vectorDelete cacheId) S collection removeVector w
  obtain ⟨w2, hm, hw2, hkv2, hvec2, hmeta2⟩ := rollbackMetadata_clean (hf.removeCache cacheId) removeMetadata w1
  obtain ⟨w3, hr, hrem, hw3⟩ := removeSavedLatents_clean hf cacheId steps w2
  refine ⟨w3, ?_, by rw [hw3, hw2, hw1], ⟨w2.stores, by rw [hkv2, hkv1], hrem⟩, ?_, ?_⟩
  · simp only [rollbackCacheEntry, hv, hm, hr, List.append_nil, if_true]
  · rw [hrem.vectors, hvec2, hvec1]
  · rw [hrem.metadata, hmeta2, hmeta1]

def withPoint (cacheId : String) (point : VectorPoint) (s : Stores) : Stores :=
  { s with vectors := s.vectors.set cacheId point }

def withRecord (cacheId : String) (r : CacheRecord) (s : Stores) : Stores :=
  { s with metadata := s.metadata.set cacheId r }

/-- How the try block around the vector and metadata writes ends: cleaned up, when there is nothing to
embed, raised before the point was written, raised in `register_cache`, or done. -/
inductive Embedded (faults : Faults) (cacheId : String) (steps : List Int) (bare : Prop) (w : World) :
    EmbedEnd → Prop
  | cleaned (w1 : World) (h : Leaves w w1 w.stores 0) (hbare : bare) (done : EmbedEnd)
      (hd : removeSavedLatents faults cacheId steps w1 = (done.res, done.world))
      (hv : done.vectorWritten = false) (hm : done.metadataAttempted = false) :
      Embedded faults cacheId steps bare w done
  | early (exc : Failure) (w1 : World) (h : Leaves w w1 w.stores 1) :
      Embedded faults cacheId steps bare w { res := .error exc, world := w1 }
  | unregistered (exc : Failure) (w1 : World) (point : VectorPoint)
      (h : Leaves w w1 (withPoint cacheId point w.stores) 1) :
      Embedded faults cacheId steps bare w ⟨.error exc, true, true, w1⟩
  | done (w1 : World) (point : VectorPoint) (r : CacheRecord) (hp : point.payload.savedSteps = steps)
      (hr : r.savedSteps = sortedSet steps)
      (h : Leaves w w1 (withRecord cacheId r (withPoint cacheId point w.stores)) 0) :
      Embedded faults cacheId steps bare w ⟨.ok (), true, true, w1⟩

theorem Leaves.trans {w1 : World} {k : Nat} (h : Leaves w w1 w.stores 0) {s : Stores}
    (h' : Leaves w1 w' s k) : Leaves w w' s k :=
  ⟨h'.stores, by rw [h'.raised, h.raised]; rfl⟩

theorem upsert_clean (hf : Clean faults) (w : World) (cacheId : String) (vector : List Rat)
    (payload : VectorPayload) :
    (∃ w', w.upsert faults cacheId vector payload = (.ok (), w') ∧
      Leaves w w' (withPoint cacheId ⟨vector, payload⟩ w.stores) 0) ∨
    ∃ exc w', w.upsert faults cacheId vector payload = (.error exc, w') ∧ Leaves w w' w.stores 1 :=
  call_clean hf w (.upsert cacheId) (withPoint cacheId ⟨vector, payload⟩)

theorem registerCache_clean (hf : Clean faults) (w : World) (cacheId prompt : String) (steps : List Int)
    (sizeMb : Rat) (numFrames : Int) (cacheType : String) :
    (∃ w' r, w.registerCache faults cacheId prompt steps sizeMb numFrames cacheType = (.ok (), w') ∧
      r.savedSteps = sortedSet steps ∧ Leaves w w' (withRecord cacheId r w.stores) 0) ∨
    ∃ exc w', w.registerCache faults cacheId prompt steps sizeMb numFrames cacheType = (.error exc, w') ∧
      Leaves w w' w.stores 1 := by
  let record (s : Stores) : CacheRecord := ⟨prompt, sortedSet steps, sizeMb, numFrames, cacheType,
    ((s.metadata.get? cacheId).map CacheRecord.accessCount).getD 0⟩
  rcases call_clean hf w (.registerCache cacheId) (fun s => withRecord cacheId (record s) s) with
    ⟨w', he, h⟩ | herr
  · exact Or.inl ⟨w', record w.stores, he, rfl, h⟩
  · exact Or.inr herr

/-- A save registers its cache only after the vector is in. -/
theorem embed_cases (hf : Clean faults) (encodeVideo : List F → String → Option (List Rat))
    (cacheId : String) (query : CacheQuery) (frames : List F) (steps : List Int) (sizeMb : Rat)
    (numFrames : Int) (w : World) :
    Embedded faults cacheId steps (frames = [] ∨ (encodeVideo frames query.prompt).getD [] = []) w
      (embedAndRegister faults encodeVideo cacheId query frames steps sizeMb numFrames w) := by
  unfold embedAndRegister
  split
  · rename_i hframes
    exact .cleaned w ⟨rfl, rfl⟩ (Or.inl (List.isEmpty_iff.mp hframes)) _ rfl rfl rfl
  · rcases call_clean hf w .encodeVideo id with ⟨w1, he, h1⟩ | ⟨exc, w1, he, h1⟩
    · simp only [he]
      split
      · rename_i hvec
        exact .cleaned w1 h1 (Or.inr (List.isEmpty_iff.mp hvec)) _ rfl rfl rfl
      · rcases call_clean hf w1 .ensureCollection id with ⟨w2, he2, h2⟩ | ⟨exc, w2, he2, h2⟩
        · simp only [he2]
          rw [h1.stores] at h2
          have h12 := h1.trans h2
          rcases upsert_clean hf w2 cacheId ((encodeVideo frames query.prompt).getD [])
            ⟨query.prompt, steps, query.task⟩ with ⟨w3, he3, h3⟩ | ⟨exc, w3, he3, h3⟩
          · simp only [he3]
            rw [h12.stores] at h3
            have h13 := h12.trans h3
            rcases registerCache_clean hf w3 cacheId query.prompt steps sizeMb numFrames
              "video_approximate_cache" with ⟨w4, r, he4, hr, h4⟩ | ⟨exc, w4, he4, h4⟩
            · simp only [he4]
              rw [h13.stores] at h4
              exact .done w4 _ r rfl hr ⟨h4.stores, h4.raised.trans h13.raised⟩
            · simp only [he4]
              rw [h13.stores] at h4
              refine .unregistered exc w4 _ ⟨h4.stores, ?_⟩
              rw [h4.raised, h13.raised]
          · simp only [he3]
            rw [h12.stores] at h3
            exact .early exc w3 (h12.trans h3)
        · simp only [he2]
          rw [h1.stores] at h2
          exact .early exc w2 (h1.trans h2)
    · simp only [he]
      exact .early exc w1 h1

/-- A save that has taken its latents back, with or without a point and a record. -/
theorem allOrNothing_of_removed {w0 w1 : World} {res : Except Failure Unit} (hfresh : Nothing cacheId w0.stores)
    (hs : Stored cacheId steps w0.stores w.stores) {s1 : Stores} (hkv : s1.kv = w.stores.kv)
    (hrem : Removed cacheId steps s1 w1.stores)
    (hvec : ∀ id, w1.stores.vectors.get? id = if id = cacheId then none else w0.stores.vectors.get? id)
    (hmeta : ∀ id, w1.stores.metadata.get? id = if id = cacheId then none else w0.stores.metadata.get? id)
    (hraised : (∃ exc, res = .error exc) ↔ w0.raised < w1.raised) : AllOrNothing cacheId w0 w1 res := by
  have hsame : ∀ key, w1.stores.kv.get? key = w0.stores.kv.get? key :=
    hrem.kv_same (by rw [hkv]; exact hs.other) hfresh
  refine ⟨Or.inr ⟨fun step => (hsame _).trans (hfresh.kv step), ?_, ?_⟩, untouched_of ?_ ?_ ?_, hraised⟩
  · rw [hvec, if_pos rfl]
  · rw [hmeta, if_pos rfl]
  · exact fun key _ => hsame key
  · intro id hid
    rw [hvec, if_neg hid]
  · intro id hid
    rw [hmeta, if_neg hid]

section
variable {w0 w1 : World} {point : VectorPoint} {r : CacheRecord} (hfresh : Nothing cacheId w0.stores)
  (hs : Stored cacheId steps w0.stores w.stores) (hne : steps ≠ []) (hp : point.payload.savedSteps = steps)
  (hr : r.savedSteps = steps) (hstores : w1.stores = withRecord cacheId r (withPoint cacheId point w.stores))
include hfresh hs hne hp hr hstores

theorem complete_of_entry : Complete cacheId w1.stores := by
  refine ⟨steps, hne, ?_, ⟨point, ?_, hp⟩, r, ?_, hr⟩
  · intro step
    rw [hstores]
    refine ⟨fun hsome => ?_, hs.stored step⟩
    by_contra hno
    have hother : ∀ n ∈ steps, kvKey cacheId step ≠ kvKey cacheId n := by
      intro n hn hkey
      rw [(kvKey_inj hkey).2] at hno
      exact hno hn
    have hold := (hs.other _ hother).trans (hfresh.kv step)
    rw [withRecord, withPoint, hold] at hsome
    cases hsome
  · rw [hstores, withRecord, withPoint, Dict.get?_set_self]
  · rw [hstores, withRecord, Dict.get?_set_self]

/-- A save that has its latents, its point and its record. -/
theorem allOrNothing_of_entry {res : Except Failure Unit}
    (hraised : (∃ exc, res = .error exc) ↔ w0.raised < w1.raised) : AllOrNothing cacheId w0 w1 res := by
  have hkv : w1.stores.kv = w.stores.kv := by rw [hstores]; rfl
  have hvec : w1.stores.vectors = w.stores.vectors.set cacheId point := by rw [hstores]; rfl
  have hmeta : w1.stores.metadata = w.stores.metadata.set cacheId r := by rw [hstores]; rfl
  refine ⟨Or.inl (complete_of_entry hfresh hs hne hp hr hstores), untouched_of ?_ ?_ ?_, hraised⟩
  · intro key hkey
    rw [hkv, hs.other key fun n _ => hkey n]
  · intro id hid
    rw [hvec, Dict.get?_set_ne _ _ hid, hs.vectors]
  · intro id hid
    rw [hmeta, Dict.get?_set_ne _ _ hid, hs.metadata]

end

theorem Nothing.vectors_eq (h : Nothing cacheId s) (id : String) :
    s.vectors.get? id = if id = cacheId then none else s.vectors.get? id := by
  split
  · rename_i he
    rw [he, h.vectors]
  · rfl

theorem Nothing.metadata_eq (h : Nothing cacheId s) (id : String) :
    s.metadata.get? id = if id = cacheId then none else s.metadata.get? id := by
  split
  · rename_i he
    rw [he, h.metadata]
  · rfl

theorem get?_set_erase {ν : Type} (d : Dict String ν) (k : String) (v : ν) (id : String) :
    ((d.set k v).erase k).get? id = if id = k then none else d.get? id := by
  rw [Dict.get?_erase]
  split
  · rfl
  · rename_i hne
    exact Dict.get?_set_ne _ _ hne

/-- An early return outside the try block. -/
theorem cleaned_clean (hc : CleanupReturns faults) {w0 : World} (hfresh : Nothing cacheId w0.stores)
    (hs : Stored cacheId steps w0.stores w.stores) (hraised : w.raised = w0.raised) :
    ∃ w', removeSavedLatents faults cacheId steps w = (.ok (), w') ∧ AllOrNothing cacheId w0 w' (.ok ()) := by
  obtain ⟨w', he, hrem, hw'⟩ := removeSavedLatents_clean hc cacheId steps w
  refine ⟨w', he, allOrNothing_of_removed hfresh hs rfl hrem ?_ ?_ ?_⟩
  · intro id
    rw [hrem.vectors, hs.vectors]
    exact hfresh.vectors_eq id
  · intro id
    rw [hrem.metadata, hs.metadata]
    exact hfresh.metadata_eq id
  · rw [hw', hraised]
    exact ⟨fun ⟨_, h⟩ => (nomatch h), fun h => absurd h (Nat.lt_irrefl _)⟩

/-- Once its latents are in, a save completes the entry or removes it. -/
theorem saveEmbedding_clean (hf : Clean faults) (hc : CleanupReturns faults)
    (S : VideoBasedApproximateCache T F) (query : CacheQuery) (outputs : ModelOutputs T F) (sizeMb : Rat)
    {w0 : World} (hfresh : Nothing cacheId w0.stores) (hs : Stored cacheId steps w0.stores w.stores)
    (hraised : w.raised = w0.raised) (hne : steps ≠ []) (hsorted : sortedSet steps = steps) :
    AllOrNothing cacheId w0 (saveEmbedding S faults cacheId query outputs steps sizeMb w).2
      (saveEmbedding S faults cacheId query outputs steps sizeMb w).1 := by
  unfold saveEmbedding
  generalize haudit : w.auditEmit _ = wa
  have hwa : Leaves w wa w.stores 0 := by rw [← haudit]; exact ⟨rfl, rfl⟩
  rw [← hwa.stores] at hs
  rw [← Nat.add_zero w.raised, ← hwa.raised] at hraised
  obtain ⟨wc, hclean, hcleaned⟩ := cleaned_clean hc hfresh hs hraised
  dsimp only
  split
  · rw [hclean]
    exact hcleaned
  · rename_i hstore
    have hstore : S.hasVectorStore = true := by simpa using hstore
    split
    · rw [hclean]
      exact hcleaned
    · split
      · rw [hclean]
        exact hcleaned
      · rename_i encodeVideo _
        have hcases := embed_cases hf encodeVideo cacheId query (outputs.embeddingVideoFrames.getD [])
          steps sizeMb outputs.numFrames wa
        generalize embedAndRegister faults encodeVideo cacheId query _ steps sizeMb outputs.numFrames wa = done
          at hcases
        -- the handler takes back what the block has written
        have hhandler : ∀ (b : Bool) (w1 : World) (s1 : Stores), Leaves wa w1 s1 1 →
            s1.kv = wa.stores.kv →
            (∀ id, (if b then s1.vectors.erase cacheId else s1.vectors).get? id =
              if id = cacheId then none else w0.stores.vectors.get? id) →
            (∀ id, (if b then s1.metadata.erase cacheId else s1.metadata).get? id =
              if id = cacheId then none else w0.stores.metadata.get? id) →
            ∃ w', rollbackCacheEntry S faults cacheId steps S.config.videoVectorCollection b b w1 = (.ok (), w') ∧
              ∀ exc, AllOrNothing cacheId w0 w' (.error exc) := by
          intro b w1 s1 h1 hkv hvec hmeta
          obtain ⟨w', he, hw', ⟨s2, hkv2, hrem⟩, hvec', hmeta'⟩ :=
            rollback_clean hc S cacheId steps S.config.videoVectorCollection b b w1
          rw [h1.stores] at hkv2 hvec' hmeta'
          refine ⟨w', he, fun exc => allOrNothing_of_removed hfresh hs (hkv2.trans hkv) hrem ?_ ?_ ?_⟩
          · intro id
            rw [hvec', hstore, Bool.and_true]
            exact hvec id
          · intro id
            rw [hmeta']
            exact hmeta id
          · rw [hw', h1.raised, hraised]
            exact ⟨fun _ => Nat.lt_succ_self _, fun _ => ⟨exc, rfl⟩⟩
        cases hcases with
        | cleaned w1 h1 _ done hd _ _ =>
          have hs1 : Stored cacheId steps w0.stores w1.stores := by rw [h1.stores]; exact hs
          obtain ⟨w', he, hall⟩ := cleaned_clean hc hfresh hs1 (by rw [h1.raised]; exact hraised)
          rw [he] at hd
          obtain ⟨hres, hworld⟩ := Prod.mk.inj hd
          rw [← hres, ← hworld]
          exact hall
        | early exc w1 h1 =>
          obtain ⟨w', he, hall⟩ := hhandler false w1 _ h1 rfl
            (fun id => by rw [if_neg Bool.false_ne_true, hs.vectors]; exact hfresh.vectors_eq id)
            (fun id => by rw [if_neg Bool.false_ne_true, hs.metadata]; exact hfresh.metadata_eq id)
          simp only [he]
          exact hall _
        | unregistered exc w1 point h1 =>
          obtain ⟨w', he, hall⟩ := hhandler true w1 _ h1 rfl
            (fun id => by
              rw [if_pos rfl, withPoint, get?_set_erase, hs.vectors])
            (fun id => by
              rw [if_pos rfl, Dict.get?_erase, withPoint, hs.metadata])
          simp only [he]
          exact hall _
        | done w1 point r hp hr h1 =>
          refine allOrNothing_of_entry hfresh hs hne hp (hr.trans hsorted) h1.stores ?_
          rw [h1.raised, hraised]
          exact ⟨fun ⟨_, h⟩ => (nomatch h), fun h => absurd h (Nat.lt_irrefl _)⟩

/-- Whatever raises, a save leaves its whole entry or nothing of it, and nothing else changed; it
raises exactly when a call of it did. -/
theorem save_all_or_nothing (S : VideoBasedApproximateCache T F) (hf : Clean faults)
    (hc : CleanupReturns faults) (cacheId : String) (query : CacheQuery) (outputs : ModelOutputs T F)
    (w : World) (hfresh : Nothing cacheId w.stores) :
    AllOrNothing cacheId w (save S faults cacheId query outputs w).2
      (save S faults cacheId query outputs w).1 := by
  have hskip : AllOrNothing cacheId w w (.ok ()) :=
    ⟨Or.inr hfresh, untouched_of (fun _ _ => rfl) (fun _ _ => rfl) fun _ _ => rfl,
      fun ⟨_, h⟩ => (nomatch h), fun h => absurd h (Nat.lt_irrefl _)⟩
  unfold save
  split
  · exact hskip
  · split
    · exact hskip
    · dsimp only
      split
      · exact hskip
      · rename_i hlatents
        rcases putLatents_clean hf S.io (validLatents outputs) w.stores (Stored.refl cacheId w.stores) with
          ⟨w1, he, hs, hraised⟩ | ⟨exc, saved, w1, he, hs, hraised⟩
        · rw [List.nil_append] at he hs
          have hne : stepsOf outputs ≠ [] := by
            intro hnil
            rw [stepsOf, List.map_eq_nil_iff] at hnil
            rw [hnil] at hlatents
            exact hlatents rfl
          have hfalse : ((validLatents outputs).map Prod.fst).isEmpty = false :=
            List.isEmpty_eq_false_iff.mpr hne
          simp only [he, hfalse, Bool.false_eq_true, if_false]
          exact saveEmbedding_clean hf hc S query outputs _ hfresh hs hraised hne (sortedSet_stepsOf outputs)
        · obtain ⟨w2, hrm, hrem, hraised2⟩ := removeSavedLatents_clean hc cacheId saved w1
          have hafter : ∀ exc, AllOrNothing cacheId w w2 (.error exc) := by
            intro exc
            refine allOrNothing_of_removed hfresh hs rfl hrem ?_ ?_ ?_
            · intro id
              rw [hrem.vectors, hs.vectors]
              exact hfresh.vectors_eq id
            · intro id
              rw [hrem.metadata, hs.metadata]
              exact hfresh.metadata_eq id
            · rw [hraised2, hraised]
              exact ⟨fun _ => Nat.lt_succ_self _, fun _ => ⟨exc, rfl⟩⟩
          simp only [he]
          split
          · rename_i hempty
            rw [List.isEmpty_iff.mp hempty] at hrm
            obtain rfl : w1 = w2 := (Prod.mk.inj hrm).2
            exact hafter _
          · simp only [hrm]
            exact hafter _

/-- A save that has something to embed and returns has left its whole entry. -/
theorem save_stores_entry (S : VideoBasedApproximateCache T F) (hf : Clean faults) (cacheId : String)
    (query : CacheQuery) (outputs : ModelOutputs T F) (w : World) (hfresh : Nothing cacheId w.stores)
    (hprompt : query.prompt ≠ "") (hlatents : validLatents outputs ≠ []) (hstore : S.hasVectorStore = true)
    {encodeVideo : List F → String → Option (List Rat)} (hencoder : S.videoEncoder = some encodeVideo)
    (hframes : outputs.embeddingVideoFrames.getD [] ≠ [])
    (hvec : (encodeVideo (outputs.embeddingVideoFrames.getD []) query.prompt).getD [] ≠ [])
    (hok : (save S faults cacheId query outputs w).1 = .ok ()) :
    Complete cacheId (save S faults cacheId query outputs w).2.stores := by
  have hsteps : stepsOf outputs ≠ [] := fun hnil => hlatents (List.map_eq_nil_iff.mp hnil)
  have hthere := validLatents_ne_nil hlatents
  have hempty : (validLatents outputs).isEmpty = false := List.isEmpty_eq_false_iff.mpr hlatents
  have hstored : ((validLatents outputs).map Prod.fst).isEmpty = false := List.isEmpty_eq_false_iff.mpr hsteps
  have hgiven : (outputs.embeddingVideoFrames.getD []).isEmpty = false := List.isEmpty_eq_false_iff.mpr hframes
  simp only [save, hprompt, hthere, hempty, Bool.false_eq_true, if_false] at hok ⊢
  rcases putLatents_clean hf S.io (validLatents outputs) w.stores (Stored.refl cacheId w.stores) with
    ⟨w1, he, hs, -⟩ | ⟨exc, saved, w1, he, -, -⟩
  · rw [List.nil_append] at he hs
    simp only [he, hstored, saveEmbedding, hstore, hgiven, hencoder, Bool.not_true, Bool.false_eq_true,
      if_false] at hok ⊢
    generalize haudit : w1.auditEmit _ = wa at hok ⊢
    rw [show w1.stores = wa.stores by rw [← haudit]; rfl] at hs
    generalize (_ : Rat) / (1024 * 1024) = sizeMb at hok ⊢
    have hcases := embed_cases hf encodeVideo cacheId query (outputs.embeddingVideoFrames.getD [])
      ((validLatents outputs).map Prod.fst) sizeMb outputs.numFrames wa
    generalize embedAndRegister faults encodeVideo cacheId query _ _ sizeMb outputs.numFrames wa = done
      at hcases hok ⊢
    cases hcases with
    | cleaned w2 h2 hbare done hd _ _ => exact absurd hbare (not_or.mpr ⟨hframes, hvec⟩)
    | early exc w2 h2 =>
      dsimp only at hok
      split at hok <;> cases hok
    | unregistered exc w2 point h2 =>
      dsimp only at hok
      split at hok <;> cases hok
    | done w2 point r hp hr h2 =>
      exact complete_of_entry hfresh hs hsteps hp (hr.trans (sortedSet_stepsOf outputs)) h2.stores
  · simp only [he] at hok
    split at hok
    · cases hok
    · split at hok <;> cases hok

def rawIO : TorchIO Prefix.Bytes := ⟨id, .ok, List.length⟩

def demoCache (cfg : CacheConfig) : VideoBasedApproximateCache Prefix.Bytes Unit where
  config := cfg
  io := rawIO
  hasVectorStore := true
  promptEncoder := some fun _ => some [1]
  videoEncoder := some fun _ _ => some [1]
  reranker := none

def demoOutputs : ModelOutputs Prefix.Bytes Unit where
  latentStatesDict := ((∅ : Dict Int (LatentValue Prefix.Bytes)).set 5 (.tensor [5])).set 10 (.tensor [10])
  embeddingVideoFrames := some [()]
  savedSteps := [10, 5, 5]

example : Complete "aa" (save (demoCache {}) (fun _ _ => .returns) "aa" ⟨"a cat", "t2v"⟩ demoOutputs {}).2.stores :=
  save_stores_entry (demoCache {}) (fun _ _ _ => CallEnd.noConfusion) "aa" ⟨"a cat", "t2v"⟩ demoOutputs {}
    ⟨fun _ => rfl, rfl, rfl⟩ (by decide) (by decide) rfl rfl (by decide) (by decide) (by decide)

def registerRaises : Faults
  | .registerCache _, _ => .raises ⟨"RuntimeError", "disk full"⟩
  | _, _ => .returns

/-- The metadata call raises after latents and vector are in. -/
theorem save_all_or_nothing_register_raises :
    Clean registerRaises ∧ CleanupReturns registerRaises ∧ Nothing "aa" {} ∧
      AllOrNothing "aa" {} (save (demoCache {}) registerRaises "aa" ⟨"a cat", "t2v"⟩ demoOutputs {}).2
        (save (demoCache {}) registerRaises "aa" ⟨"a cat", "t2v"⟩ demoOutputs {}).1 := by
  have hf : Clean registerRaises := by
    intro c n exc h
    cases c <;> cases h
  have hc : CleanupReturns registerRaises := ⟨fun _ _ => rfl, fun _ _ => rfl, fun _ _ => rfl⟩
  have hfresh : Nothing "aa" {} := ⟨fun _ => rfl, rfl, rfl⟩
  exact ⟨hf, hc, hfresh, save_all_or_nothing (demoCache {}) hf hc "aa" ⟨"a cat", "t2v"⟩ demoOutputs {} hfresh⟩

end CacheSeek.Proofs.SaveAtomic
