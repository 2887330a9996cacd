import CacheSeek.Proofs.DonorHistory

namespace CacheSeek.Proofs.StaleDonors
open CacheSeek.Lib CacheSeek.Approximate CacheSeek.Prefix
open CacheSeek.Proofs.SaveAtomic CacheSeek.Proofs.SaveCalls CacheSeek.Proofs.DonorHistory

variable {T F : Type} {S : VideoBasedApproximateCache T F} {faults : Faults} {w w' : World}
  {cacheId : String} {query : CacheQuery} {outputs : ModelOutputs T F} {answers : List Candidate}

def missOf : AuditEvent → Option String
  | .kvMissingAfterVectorHit cacheId _ _ _ => some cacheId
  | _ => none

/-- The ids that were hit in the vector store and missing in the key-value store, in order. -/
def misses (w : World) : List String := w.audit.filterMap missOf

/-- The indexes hold the id both or not at all, with the same steps. -/
def PairedAt (s : Stores) (id : String) : Prop :=
  (s.vectors.get? id).map (fun p => p.payload.savedSteps) = (s.metadata.get? id).map CacheRecord.savedSteps

/-- Both indexes hold the same ids, with the same steps. -/
def Paired (s : Stores) : Prop := ∀ id, PairedAt s id

theorem pairedAt_none {s : Stores} {id : String} (hv : s.vectors.get? id = none)
    (hm : s.metadata.get? id = none) : PairedAt s id := by
  unfold PairedAt
  rw [hv, hm]
  rfl

theorem PairedAt.metadata_none {s : Stores} {id : String} (h : PairedAt s id) (hv : s.vectors.get? id = none) :
    s.metadata.get? id = none := by
  unfold PairedAt at h
  rw [hv] at h
  exact Option.map_eq_none_iff.mp h.symm

theorem misses_call {c : BackendCall} {effect : Stores → Stores} {res : Except Failure Unit}
    (h : w.call faults c effect = (res, w')) : misses w' = misses w := by
  have := call_audit faults w c effect
  rw [h] at this
  unfold misses
  rw [this]

/-- A save serves nothing, so it adds no miss. -/
theorem save_misses (S : VideoBasedApproximateCache T F) (faults : Faults) (cacheId : String)
    (query : CacheQuery) (outputs : ModelOutputs T F) (w : World) :
    misses (save S faults cacheId query outputs w).2 = misses w := by
  have hframe : Frame faults (SaveCall S.io cacheId query outputs) fun w w' => misses w' = misses w :=
    { refl := fun _ => rfl
      trans := fun h h' => h'.trans h
      call := fun _ _ => misses_call rfl
      raise := fun _ => rfl }
  refine save_frame hframe (fun w steps sizeMb => ?_) w
  simp [misses, World.auditEmit, List.filterMap_append, missOf]

structure Others (cacheId : String) (s s' : Stores) : Prop where
  vectors : ∀ id, id ≠ cacheId → s'.vectors.get? id = s.vectors.get? id
  metadata : ∀ id, id ≠ cacheId → s'.metadata.get? id = s.metadata.get? id

theorem Others.refl (cacheId : String) (s : Stores) : Others cacheId s s := ⟨fun _ _ => rfl, fun _ _ => rfl⟩

theorem Others.trans {s s' s'' : Stores} (h : Others cacheId s s') (h' : Others cacheId s' s'') :
    Others cacheId s s'' :=
  ⟨fun id hid => (h'.vectors id hid).trans (h.vectors id hid),
    fun id hid => (h'.metadata id hid).trans (h.metadata id hid)⟩

theorem others_call {io : TorchIO T} {c : BackendCall} {effect : Stores → Stores}
    (h : SaveCall io cacheId query outputs c effect) (s : Stores) : Others cacheId s (effect s) := by
  cases h with
  | latent h => cases h <;> exact ⟨fun _ _ => rfl, fun _ _ => rfl⟩
  | encodeVideo => exact Others.refl cacheId s
  | ensureCollection => exact Others.refl cacheId s
  | upsert vector => exact ⟨fun id hid => Dict.get?_set_ne _ _ hid, fun _ _ => rfl⟩
  | register h =>
    obtain ⟨r, hr⟩ := h s
    rw [hr]
    exact ⟨fun _ _ => rfl, fun id hid => Dict.get?_set_ne _ _ hid⟩
  | deletePoint => exact ⟨fun id hid => by rw [Dict.get?_erase, if_neg hid], fun _ _ => rfl⟩
  | removeRecord => exact ⟨fun _ _ => rfl, fun id hid => by rw [Dict.get?_erase, if_neg hid]⟩

theorem save_others (S : VideoBasedApproximateCache T F) (faults : Faults) (cacheId : String)
    (query : CacheQuery) (outputs : ModelOutputs T F) (w : World) :
    Others cacheId w.stores (save S faults cacheId query outputs w).2.stores := by
  have hframe : Frame faults (SaveCall S.io cacheId query outputs)
      fun w w' => Others cacheId w.stores w'.stores :=
    { refl := fun w => Others.refl cacheId w.stores
      trans := fun h h' => h.trans h'
      call := fun {c _} hc w => call_stores c (Others.refl cacheId w.stores) (others_call hc w.stores)
      raise := fun w => Others.refl cacheId w.stores }
  exact save_frame hframe (fun w _ _ => Others.refl cacheId w.stores) w

structure SameIndexes (s s' : Stores) : Prop where
  vectors : s'.vectors = s.vectors
  metadata : s'.metadata = s.metadata

theorem SameIndexes.trans {s s' s'' : Stores} (h : SameIndexes s s') (h' : SameIndexes s' s'') :
    SameIndexes s s'' :=
  ⟨h'.vectors.trans h.vectors, h'.metadata.trans h.metadata⟩

theorem latents_indexes (faults : Faults) (io : TorchIO T) (cacheId : String) (outputs : ModelOutputs T F) :
    Frame faults (LatentCall io cacheId outputs) fun w w' => SameIndexes w.stores w'.stores :=
  { refl := fun _ => ⟨rfl, rfl⟩
    trans := fun h h' => h.trans h'
    call := fun {c _} hc w => call_stores c ⟨rfl, rfl⟩ (by cases hc <;> exact ⟨rfl, rfl⟩)
    raise := fun _ => ⟨rfl, rfl⟩ }

theorem SameIndexes.pairedAt {s s' : Stores} {id : String} (h : SameIndexes s s') (hp : PairedAt s id) :
    PairedAt s' id := by
  unfold PairedAt
  rw [h.vectors, h.metadata]
  exact hp

/-- A rollback takes from the indexes what it is told to, whatever becomes of the latents. -/
theorem rollback_indexes (hd : ∀ n, faults (.vectorDelete cacheId) n = .returns)
    (hr : ∀ n, faults (.removeCache cacheId) n = .returns) (S : VideoBasedApproximateCache T F)
    (outputs : ModelOutputs T F) (steps : List Int) (collection : String) (removeVector removeMetadata : Bool)
    (w : World) :
    SameIndexes { w.stores with
        vectors := if removeVector && S.hasVectorStore then w.stores.vectors.erase cacheId else w.stores.vectors
        metadata := if removeMetadata then w.stores.metadata.erase cacheId else w.stores.metadata }
      (rollbackCacheEntry S faults cacheId steps collection removeVector removeMetadata w).2.stores := by
  obtain ⟨w1, hv, _, _, hmeta1, hvec1⟩ := rollbackVector_clean hd S collection removeVector w
  obtain ⟨w2, hm, _, _, hvec2, hmeta2⟩ := rollbackMetadata_clean hr removeMetadata w1
  have hlat := removeSavedLatents_frame (latents_indexes faults S.io cacheId outputs) steps w2
  have hback : SameIndexes w2.stores
      (rollbackCacheEntry S faults cacheId steps collection removeVector removeMetadata w).2.stores := by
    unfold rollbackCacheEntry
    simp only [hv, hm]
    generalize removeSavedLatents faults cacheId steps w2 = z at hlat
    obtain ⟨res, w3⟩ := z
    dsimp only
    split
    · exact hlat
    · exact hlat
  refine ⟨hback.vectors.trans ?_, hback.metadata.trans ?_⟩
  · rw [hvec2, hvec1]
  · rw [hmeta2, hmeta1]

/-- Under a new id, what a save leaves in the indexes: nothing, or its point and its record, and then
the latents stay too. -/
theorem saveEmbedding_leaves (hf : Clean faults) (hd : ∀ n, faults (.vectorDelete cacheId) n = .returns)
    (hr : ∀ n, faults (.removeCache cacheId) n = .returns) (S : VideoBasedApproximateCache T F)
    (query : CacheQuery) (outputs : ModelOutputs T F) (sizeMb : Rat) (w : World)
    (hv : w.stores.vectors.get? cacheId = none) {s : Stores}
    (hs : (saveEmbedding S faults cacheId query outputs (stepsOf outputs) sizeMb w).2.stores = s) :
    (s.vectors.get? cacheId = none ∧ (w.stores.metadata.get? cacheId = none → s.metadata.get? cacheId = none)) ∨
    ∃ point r, point.payload.savedSteps = stepsOf outputs ∧ r.savedSteps = sortedSet (stepsOf outputs) ∧
      s = withRecord cacheId r (withPoint cacheId point w.stores) := by
  subst hs
  have hclean : ∀ w1 : World, SameIndexes w.stores w1.stores →
      SameIndexes w.stores (removeSavedLatents faults cacheId (stepsOf outputs) w1).2.stores := fun w1 h1 =>
    h1.trans (removeSavedLatents_frame (latents_indexes faults S.io cacheId outputs) (stepsOf outputs) w1)
  have hgone : ∀ s1 : Stores, SameIndexes w.stores s1 → s1.vectors.get? cacheId = none ∧
      (w.stores.metadata.get? cacheId = none → s1.metadata.get? cacheId = none) := by
    intro s1 h1
    rw [h1.vectors, h1.metadata]
    exact ⟨hv, id⟩
  unfold saveEmbedding
  generalize haudit : w.auditEmit _ = wa
  have hstores : wa.stores = w.stores := by
    rw [← haudit]
    rfl
  have hsame : SameIndexes w.stores wa.stores := by
    rw [hstores]
    exact ⟨rfl, rfl⟩
  dsimp only
  split
  · exact Or.inl (hgone _ (hclean wa hsame))
  · rename_i hstore
    have hstore : S.hasVectorStore = true := by simpa using hstore
    split
    · exact Or.inl (hgone _ (hclean wa hsame))
    · split
      · exact Or.inl (hgone _ (hclean wa hsame))
      · rename_i encodeVideo _
        have hcases := embed_cases hf encodeVideo cacheId query (outputs.embeddingVideoFrames.getD [])
          (stepsOf outputs) sizeMb outputs.numFrames wa
        generalize embedAndRegister faults encodeVideo cacheId query _ (stepsOf outputs) sizeMb outputs.numFrames wa
          = done at hcases
        -- the handler leaves nothing under the id
        have hhandler : ∀ (b : Bool) (w1 : World), (b = false → SameIndexes w.stores w1.stores) →
            (rollbackCacheEntry S faults cacheId (stepsOf outputs) S.config.videoVectorCollection b b
              w1).2.stores.vectors.get? cacheId = none ∧
            (w.stores.metadata.get? cacheId = none →
              (rollbackCacheEntry S faults cacheId (stepsOf outputs) S.config.videoVectorCollection b b
                w1).2.stores.metadata.get? cacheId = none) := by
          intro b w1 h1
          have hback := rollback_indexes hd hr S outputs (stepsOf outputs) S.config.videoVectorCollection b b w1
          rw [hback.vectors, hback.metadata]
          cases b with
          | false => simpa using hgone _ (h1 rfl)
          | true => simp [hstore, Dict.get?_erase]
        cases hcases with
        | cleaned w1 h1 _ done hdone hvw hmw =>
          have hback := hclean w1 (by rw [h1.stores]; exact hsame)
          rw [hdone] at hback
          left
          cases hres : done.res with
          | ok _ => exact hgone _ hback
          | error exc =>
            have hleft := hhandler false done.world fun _ => hback
            rw [hvw, hmw]
            dsimp only
            generalize rollbackCacheEntry S faults cacheId _ _ false false done.world = x at hleft
            obtain ⟨exc' | _, w2⟩ := x
            · exact hleft
            · exact hleft
        | early exc w1 h1 =>
          have hleft := hhandler false w1 fun _ => by rw [h1.stores]; exact hsame
          left
          dsimp only
          generalize rollbackCacheEntry S faults cacheId _ _ false false w1 = x at hleft
          obtain ⟨exc' | _, w2⟩ := x
          · exact hleft
          · exact hleft
        | unregistered exc w1 point h1 =>
          have hleft := hhandler true w1 fun hfalse => by cases hfalse
          left
          dsimp only
          generalize rollbackCacheEntry S faults cacheId _ _ true true w1 = x at hleft
          obtain ⟨exc' | _, w2⟩ := x
          · exact hleft
          · exact hleft
        | done w1 point r hp hr h1 => exact Or.inr ⟨point, r, hp, hr, by rw [h1.stores, hstores]⟩

/-- So the point and the record have the same steps, or there is neither. -/
theorem saveEmbedding_pairedAt (hf : Clean faults) (hd : ∀ n, faults (.vectorDelete cacheId) n = .returns)
    (hr : ∀ n, faults (.removeCache cacheId) n = .returns) (S : VideoBasedApproximateCache T F)
    (query : CacheQuery) (outputs : ModelOutputs T F) (sizeMb : Rat) (w : World)
    (hv : w.stores.vectors.get? cacheId = none) (hm : w.stores.metadata.get? cacheId = none) :
    PairedAt (saveEmbedding S faults cacheId query outputs (stepsOf outputs) sizeMb w).2.stores cacheId := by
  rcases saveEmbedding_leaves hf hd hr S query outputs sizeMb w hv rfl with ⟨hnone, hgone⟩ | ⟨point, r, hp, hsteps, he⟩
  · exact pairedAt_none hnone (hgone hm)
  · unfold PairedAt
    simp only [he, withRecord, withPoint, Dict.get?_set_self, Option.map_some, hp, hsteps, sortedSet_stepsOf]

/-- A save ends with both indexes naming the cache, with the same steps, or neither. -/
theorem save_pairedAt (hf : Clean faults) (hd : ∀ n, faults (.vectorDelete cacheId) n = .returns)
    (hr : ∀ n, faults (.removeCache cacheId) n = .returns) (S : VideoBasedApproximateCache T F)
    (query : CacheQuery) (outputs : ModelOutputs T F) (w : World)
    (hv : w.stores.vectors.get? cacheId = none) (hm : w.stores.metadata.get? cacheId = none) :
    PairedAt (save S faults cacheId query outputs w).2.stores cacheId := by
  have hnone : PairedAt w.stores cacheId := pairedAt_none hv hm
  have hframe := latents_indexes faults S.io cacheId outputs
  unfold save
  split
  · exact hnone
  · split
    · exact hnone
    · dsimp only
      split
      · exact hnone
      · obtain ⟨hput, hsaved⟩ := putLatents_frame hframe (validLatents outputs) [] w fun _ he => he
        rw [List.nil_append] at hsaved
        generalize putLatents faults S.io cacheId (validLatents outputs) [] w = x at hput hsaved
        obtain ⟨exc | _, saved, w1⟩ := x
        · dsimp only at hput ⊢
          split
          · exact hput.pairedAt hnone
          · have hafter := hput.trans (removeSavedLatents_frame hframe saved w1)
            generalize removeSavedLatents faults cacheId saved w1 = y at hafter
            obtain ⟨exc' | _, w2⟩ := y
            · exact hafter.pairedAt hnone
            · exact hafter.pairedAt hnone
        · obtain rfl : saved = stepsOf outputs := hsaved rfl
          dsimp only at hput ⊢
          split
          · exact hput.pairedAt hnone
          · exact saveEmbedding_pairedAt hf hd hr S query outputs _ w1 (by rw [hput.vectors]; exact hv)
              (by rw [hput.metadata]; exact hm)

def Selected (S : VideoBasedApproximateCache T F) (query : CacheQuery) (answers : List Candidate) (ch : Choice) :
    Prop :=
  ∃ queryVec, choose S query.prompt
    (normalizeSearchResults (vectorSearch (fun _ _ => answers) queryVec S.config.topK)) = .ok (some ch)

/-- What a lookup does to the indexes: nothing, a count of the donor it serves, or the removal of the
donor whose selected step is missing. -/
inductive LookupEffect (S : VideoBasedApproximateCache T F) (query : CacheQuery) (answers : List Candidate)
    (w w' : World) : Except Failure (LookupResult T) → Prop
  | unchanged (res : Except Failure (LookupResult T)) (h : SameIndexes w.stores w'.stores)
      (hmiss : misses w' = misses w) (hres : ∀ r, res = .ok r → r = .miss) : LookupEffect S query answers w w' res
  | accessed (r : LookupResult T) (ch : Choice) (hch : Selected S query answers ch)
      (hvec : w'.stores.vectors = w.stores.vectors)
      (hother : ∀ id, id ≠ ch.result.cacheId → w'.stores.metadata.get? id = w.stores.metadata.get? id)
      (hown : w'.stores.metadata.get? ch.result.cacheId = (w.stores.metadata.get? ch.result.cacheId).map
        fun rec => { rec with accessCount := rec.accessCount + 1 })
      (hmiss : misses w' = misses w) (hr : r.matchedCacheId = some ch.result.cacheId) :
      LookupEffect S query answers w w' (.ok r)
  | evicted (ch : Choice) (hch : Selected S query answers ch)
      (hgone : w.stores.kv.get? (kvKey ch.result.cacheId ch.skipStep) = none)
      (hvec : w'.stores.vectors = w.stores.vectors.erase ch.result.cacheId)
      (hmeta : w'.stores.metadata = w.stores.metadata.erase ch.result.cacheId)
      (hmiss : misses w' = misses w ++ [ch.result.cacheId]) : LookupEffect S query answers w w' (.ok .miss)

/-- Loading leaves the world but for the count of calls, and finds what is stored. -/
theorem loadPayload_cases (faults : Faults) (cacheId : String) (step : Int) (w : World) :
    ∃ w1 : World, w1.stores = w.stores ∧ misses w1 = misses w ∧
      ((∃ exc, loadPayload (T := T) faults cacheId step w = (.error exc, w1)) ∨
        loadPayload (T := T) faults cacheId step w = (.ok none, w1) ∧ w.stores.kv.get? (kvKey cacheId step) = none ∨
        ∃ payload, loadPayload (T := T) faults cacheId step w = (.ok (some payload), w1)) := by
  have hstores := call_id_stores faults w (.kvGet (kvKey cacheId step))
  unfold loadPayload World.kvGet
  generalize hcall : w.call faults (.kvGet (kvKey cacheId step)) id = x at hstores
  obtain ⟨exc | _, w1⟩ := x
  · exact ⟨w1, hstores, misses_call hcall, Or.inl ⟨_, rfl⟩⟩
  · refine ⟨w1, hstores, misses_call hcall, Or.inr ?_⟩
    dsimp only at hstores ⊢
    rw [hstores]
    cases hget : w.stores.kv.get? (kvKey cacheId step) with
    | none => exact Or.inl ⟨rfl, rfl⟩
    | some data => exact Or.inr ⟨_, rfl⟩

/-- A record of an access that fails changes nothing. -/
theorem recordAccess_cases (hf : Clean faults) (cacheId : String) (w : World) :
    (∃ w1, w.recordAccess faults cacheId = (.ok (), w1) ∧ misses w1 = misses w ∧
      w1.stores.vectors = w.stores.vectors ∧
      (∀ id, id ≠ cacheId → w1.stores.metadata.get? id = w.stores.metadata.get? id) ∧
      w1.stores.metadata.get? cacheId = (w.stores.metadata.get? cacheId).map
        fun rec => { rec with accessCount := rec.accessCount + 1 }) ∨
    ∃ exc w1, w.recordAccess faults cacheId = (.error exc, w1) ∧ misses w1 = misses w ∧ w1.stores = w.stores := by
  rcases call_clean hf w (.recordAccess cacheId) _ with ⟨w1, he, h1⟩ | ⟨exc, w1, he, h1⟩
  · refine Or.inl ⟨w1, he, misses_call he, ?_⟩
    rw [h1.stores]
    cases hget : w.stores.metadata.get? cacheId with
    | none => exact ⟨rfl, fun _ _ => rfl, hget⟩
    | some rec => exact ⟨rfl, fun id hid => Dict.get?_set_ne _ _ hid, Dict.get?_set_self _ _ _⟩
  · exact Or.inr ⟨exc, w1, he, misses_call he, h1.stores⟩

/-- Evicting a donor takes it from both indexes. -/
theorem lazyEvict_spec (hd : ∀ id n, faults (.vectorDelete id) n = .returns)
    (hr : ∀ id n, faults (.removeCache id) n = .returns) (hstore : S.hasVectorStore = true) (cacheId : String)
    (w : World) :
    (lazyEvictStaleEntry S faults cacheId w).stores.vectors = w.stores.vectors.erase cacheId ∧
      (lazyEvictStaleEntry S faults cacheId w).stores.metadata = w.stores.metadata.erase cacheId ∧
      misses (lazyEvictStaleEntry S faults cacheId w) = misses w := by
  obtain ⟨w1, he1, h1⟩ := call_returns (hd cacheId) w fun s => { s with vectors := s.vectors.erase cacheId }
  obtain ⟨w2, he2, h2⟩ := call_returns (hr cacheId) w1 fun s => { s with metadata := s.metadata.erase cacheId }
  have hevict : lazyEvictStaleEntry S faults cacheId w = w2 := by
    simp only [lazyEvictStaleEntry, hstore, if_true, World.vectorDelete, he1, World.removeCache, he2]
  rw [hevict, h2.stores, h1.stores, misses_call he2, misses_call he1]
  exact ⟨rfl, rfl, rfl⟩

theorem serve_effect (hf : Clean faults) (hd : ∀ id n, faults (.vectorDelete id) n = .returns)
    (hr : ∀ id n, faults (.removeCache id) n = .returns) (hstore : S.hasVectorStore = true) {ch : Choice}
    (hch : Selected S query answers ch) {w0 : World} (hw : w.stores = w0.stores) (hmiss : misses w = misses w0) :
    LookupEffect S query answers w0 (serve S faults query ch w).2 (serve S faults query ch w).1 := by
  obtain ⟨w1, hw1, hmiss1, hload⟩ := loadPayload_cases (T := T) faults ch.result.cacheId ch.skipStep w
  rw [hw] at hw1
  rw [hmiss] at hmiss1
  unfold serve
  rcases hload with ⟨exc, he⟩ | ⟨he, hgone⟩ | ⟨payload, he⟩
  · simp only [he]
    exact .unchanged _ ⟨congrArg _ hw1, congrArg _ hw1⟩ hmiss1 fun r h => nomatch h
  · rw [hw] at hgone
    simp only [he]
    generalize haudit : w1.auditEmit _ = wa
    have hstores : wa.stores = w0.stores := by
      rw [← haudit]
      exact hw1
    have hmissa : misses wa = misses w0 ++ [ch.result.cacheId] := by
      rw [← haudit, ← hmiss1]
      simp [misses, World.auditEmit, List.filterMap_append, missOf]
    obtain ⟨hvec, hmeta, hmiss2⟩ := lazyEvict_spec hd hr hstore ch.result.cacheId wa
    exact .evicted ch hch hgone (hvec.trans (by rw [hstores])) (hmeta.trans (by rw [hstores])) (hmiss2.trans hmissa)
  · simp only [he]
    rcases recordAccess_cases hf ch.result.cacheId w1 with
      ⟨w2, he2, hmiss2, hvec, hother, hown⟩ | ⟨exc, w2, he2, hmiss2, hw2⟩
    · rw [hw1] at hvec hother hown
      simp only [he2]
      refine .accessed _ ch hch hvec hother hown ?_ rfl
      rw [← hmiss1, ← hmiss2]
      simp [misses, World.auditEmit, List.filterMap_append, missOf]
    · simp only [he2]
      have hw2 := hw2.trans hw1
      exact .unchanged _ ⟨congrArg _ hw2, congrArg _ hw2⟩ (hmiss2.trans hmiss1) fun r h => nomatch h

/-- What one lookup does to the indexes. -/
theorem lookup_effect (hf : Clean faults) (hd : ∀ id n, faults (.vectorDelete id) n = .returns)
    (hr : ∀ id n, faults (.removeCache id) n = .returns) (S : VideoBasedApproximateCache T F)
    (query : CacheQuery) (answers : List Candidate) (w : World) :
    LookupEffect S query answers w (lookup S faults (fun _ _ => answers) query w).2
      (lookup S faults (fun _ _ => answers) query w).1 := by
  have hidle : ∀ (w' : World) res, w'.stores = w.stores → misses w' = misses w →
      (∀ r, res = .ok r → r = LookupResult.miss) → LookupEffect S query answers w w' res :=
    fun w' res hw hmiss hres => .unchanged res ⟨congrArg _ hw, congrArg _ hw⟩ hmiss hres
  have hmissed : ∀ r : LookupResult T, (.ok .miss : Except Failure (LookupResult T)) = .ok r → r = .miss :=
    fun r h => (Except.ok.inj h).symm
  unfold lookup
  split
  · exact hidle w _ rfl rfl hmissed
  · split
    · exact hidle w _ rfl rfl hmissed
    · rename_i hstore
      have hstore : S.hasVectorStore = true := by simpa using hstore
      split
      · exact hidle w _ rfl rfl hmissed
      · rename_i encode _
        have h1 := call_id_stores faults w .encodePrompt
        generalize hcall1 : w.call faults .encodePrompt id = x at h1
        have hmiss1 : misses x.2 = misses w := misses_call (by rw [hcall1])
        obtain ⟨exc | _, w1⟩ := x
        · exact hidle w1 _ h1 hmiss1 fun r h => nomatch h
        · dsimp only at h1 hmiss1 ⊢
          split
          · exact hidle w1 _ h1 hmiss1 hmissed
          · have h2 := call_id_stores faults w1 .vectorSearch
            generalize hcall2 : w1.call faults .vectorSearch id = x at h2
            have hmiss2 : misses x.2 = misses w1 := misses_call (by rw [hcall2])
            rw [h1] at h2
            rw [hmiss1] at hmiss2
            obtain ⟨exc | _, w2⟩ := x
            · exact hidle w2 _ h2 hmiss2 fun r h => nomatch h
            · dsimp only at h2 hmiss2 ⊢
              split
              · exact hidle w2 _ h2 hmiss2 fun r h => nomatch h
              · exact hidle w2 _ h2 hmiss2 hmissed
              · rename_i ch hchoose
                exact serve_effect hf hd hr hstore ⟨_, hchoose⟩ h2 hmiss2

/-- What holds between operations: the ids in the indexes and those that were missed come from saves,
and none is both. -/
structure Healed (past : List (Event T F)) (w : World) : Prop where
  paired : Paired w.stores
  hex : ∀ {id query outputs}, .save id query outputs ∈ past → '-' ∉ id.toList
  known : ∀ {id point}, w.stores.vectors.get? id = some point → ∃ query outputs, .save id query outputs ∈ past
  once : (misses w).Nodup
  gone : ∀ id ∈ misses w, w.stores.vectors.get? id = none ∧ ∃ query outputs, .save id query outputs ∈ past

/-- Every candidate is in the vector store, under its normalized id. -/
theorem Healed.candidate {past : List (Event T F)} (h : Healed past w) (hans : FromStore w.stores answers)
    {r : Candidate} (hr : r ∈ normalizeSearchResults answers) :
    ∃ point, w.stores.vectors.get? r.cacheId = some point := by
  obtain ⟨r', hr', rfl⟩ := CacheSeek.Proofs.LookupDecision.mem_normalized hr
  obtain ⟨id, point, hget, hid, _⟩ := hans r' hr'
  obtain ⟨query, outputs, hsave⟩ := h.known hget
  rw [normalizeCacheId_hex (h.hex hsave)] at hid
  exact ⟨point, by rw [hid]; exact hget⟩

theorem Selected.mem {ch : Choice} (h : Selected S query answers ch) :
    ch.result ∈ normalizeSearchResults answers := by
  obtain ⟨queryVec, hchoose⟩ := h
  obtain ⟨r, hr, he⟩ := List.mem_map.mp (choose_mem hchoose).1
  rw [← he]
  exact List.mem_map_of_mem ((List.mem_insertionSort _).mp (List.mem_of_mem_take hr))

theorem Healed.save (hf : Clean faults) (hd : ∀ id n, faults (.vectorDelete id) n = .returns)
    (hr : ∀ id n, faults (.removeCache id) n = .returns) {past : List (Event T F)} (h : Healed past w)
    (hfresh : Fresh past cacheId) (query : CacheQuery) (outputs : ModelOutputs T F) :
    Healed (past ++ [.save cacheId query outputs]) (save S faults cacheId query outputs w).2 := by
  have hv : w.stores.vectors.get? cacheId = none := by
    cases hget : w.stores.vectors.get? cacheId with
    | none => rfl
    | some point =>
      obtain ⟨q, o, hsave⟩ := h.known hget
      exact absurd hsave (hfresh.2 q o)
  have hm := (h.paired cacheId).metadata_none hv
  have hothers := save_others S faults cacheId query outputs w
  have hmiss := save_misses S faults cacheId query outputs w
  refine ⟨fun id => ?_, fun hmem => ?_, fun {id point} hget => ?_, ?_, fun id hid => ?_⟩
  · by_cases hid : id = cacheId
    · rw [hid]
      exact save_pairedAt hf (hd cacheId) (hr cacheId) S query outputs w hv hm
    · unfold PairedAt
      rw [hothers.vectors id hid, hothers.metadata id hid]
      exact h.paired id
  · rcases List.mem_append.mp hmem with hmem | hmem
    · exact h.hex hmem
    · cases List.mem_singleton.mp hmem
      exact hfresh.1
  · by_cases hid : id = cacheId
    · rw [hid]
      exact ⟨query, outputs, by simp⟩
    · rw [hothers.vectors id hid] at hget
      obtain ⟨q, o, hsave⟩ := h.known hget
      exact ⟨q, o, List.mem_append_left _ hsave⟩
  · rw [hmiss]
    exact h.once
  · rw [hmiss] at hid
    obtain ⟨hnone, q, o, hsave⟩ := h.gone id hid
    have hne : id ≠ cacheId := by
      rintro rfl
      exact hfresh.2 q o hsave
    exact ⟨by rw [hothers.vectors id hne]; exact hnone, q, o, List.mem_append_left _ hsave⟩

theorem Healed.lookup {past : List (Event T F)} (h : Healed past w) (hans : FromStore w.stores answers)
    {res : Except Failure (LookupResult T)} (heff : LookupEffect S query answers w w' res) :
    Healed (past ++ [.lookup query answers]) w' := by
  have hsaves : ∀ {id q o}, Event.save id q o ∈ past ++ [.lookup query answers] → .save id q o ∈ past := by
    intro id q o hmem
    rcases List.mem_append.mp hmem with hmem | hmem
    · exact hmem
    · cases List.mem_singleton.mp hmem
  have hold : ∀ {id}, (∃ q o, Event.save id q o ∈ past) → ∃ q o, .save id q o ∈ past ++ [.lookup query answers] :=
    fun ⟨q, o, hsave⟩ => ⟨q, o, List.mem_append_left _ hsave⟩
  cases heff with
  | unchanged res hsame hmiss hres =>
    refine ⟨fun id => hsame.pairedAt (h.paired id), fun hmem => h.hex (hsaves hmem), fun hget => ?_, ?_, ?_⟩
    · rw [hsame.vectors] at hget
      exact hold (h.known hget)
    · rw [hmiss]
      exact h.once
    · intro id hid
      rw [hmiss] at hid
      rw [hsame.vectors]
      exact ⟨(h.gone id hid).1, hold (h.gone id hid).2⟩
  | accessed r ch hch hvec hother hown hmiss hr =>
    refine ⟨fun id => ?_, fun hmem => h.hex (hsaves hmem), fun hget => ?_, ?_, ?_⟩
    · have hp := h.paired id
      unfold PairedAt at hp ⊢
      rw [hvec, hp]
      by_cases hid : id = ch.result.cacheId
      · rw [hid, hown, Option.map_map]
        rfl
      · rw [hother id hid]
    · rw [hvec] at hget
      exact hold (h.known hget)
    · rw [hmiss]
      exact h.once
    · intro id hid
      rw [hmiss] at hid
      rw [hvec]
      exact ⟨(h.gone id hid).1, hold (h.gone id hid).2⟩
  | evicted ch hch hgone hvec hmeta hmiss =>
    obtain ⟨point, hpoint⟩ := h.candidate hans hch.mem
    have hnew : ch.result.cacheId ∉ misses w := by
      intro hmem
      rw [(h.gone _ hmem).1] at hpoint
      cases hpoint
    refine ⟨fun id => ?_, fun hmem => h.hex (hsaves hmem), fun hget => ?_, ?_, ?_⟩
    · unfold PairedAt
      rw [hvec, hmeta, Dict.get?_erase, Dict.get?_erase]
      split
      · rfl
      · exact h.paired id
    · rw [hvec, Dict.get?_erase] at hget
      split at hget
      · cases hget
      · exact hold (h.known hget)
    · rw [hmiss, List.nodup_append]
      refine ⟨h.once, List.nodup_singleton _, ?_⟩
      intro a ha b hb
      rw [List.mem_singleton] at hb
      rintro rfl
      exact hnew (hb ▸ ha)
    · intro id hid
      rw [hmiss] at hid
      rw [hvec, Dict.get?_erase]
      rcases List.mem_append.mp hid with hid | hid
      · refine ⟨?_, hold (h.gone id hid).2⟩
        split
        · rfl
        · exact (h.gone id hid).1
      · rw [List.mem_singleton] at hid
        rw [if_pos hid, hid]
        exact ⟨rfl, hold (h.known hpoint)⟩

section
variable (hf : Clean faults) (hd : ∀ id n, faults (.vectorDelete id) n = .returns)
  (hr : ∀ id n, faults (.removeCache id) n = .returns)
include hf hd hr

/-- What one event keeps. -/
theorem Healed.step {past : List (Event T F)} (h : Healed past w) (e : Event T F) (he : e.Possible past w) :
    Healed (past ++ [e]) (w.step S faults e) := by
  cases e with
  | save cacheId query outputs => exact h.save hf hd hr he query outputs
  | lookup query answers => exact h.lookup he (lookup_effect hf hd hr S query answers w)
  | lose key =>
    have hsaves : ∀ {id q o}, Event.save id q o ∈ past ++ [.lose key] → Event.save id q o ∈ past := by
      intro id q o hmem
      rcases List.mem_append.mp hmem with hmem | hmem
      · exact hmem
      · cases List.mem_singleton.mp hmem
    refine ⟨h.paired, fun hmem => h.hex (hsaves hmem), fun hget => ?_, h.once, fun id hid => ?_⟩
    · obtain ⟨q, o, hsave⟩ := h.known hget
      exact ⟨q, o, List.mem_append_left _ hsave⟩
    · obtain ⟨hnone, q, o, hsave⟩ := h.gone id hid
      exact ⟨hnone, q, o, List.mem_append_left _ hsave⟩

end

def keepsLatents : Faults
  | .kvRemove _, _ => .raises ⟨"OSError", "read-only"⟩
  | _, _ => .returns

def demoAnswers : List Candidate := [⟨"aa", (9 / 10 : Rat), "a cat", [5, 10], ⟨"a cat", [5, 10], "t2v"⟩⟩]

end CacheSeek.Proofs.StaleDonors
