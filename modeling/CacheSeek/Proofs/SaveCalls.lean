import CacheSeek.Proofs.SaveAtomic

namespace CacheSeek.Proofs.SaveCalls
open CacheSeek.Lib CacheSeek.Approximate CacheSeek.Prefix
open CacheSeek.Proofs.SaveAtomic (stepsOf)

variable {T F : Type} {faults : Faults} {w : World} {io : TorchIO T} {cacheId : String} {query : CacheQuery}
  {outputs : ModelOutputs T F}

def Blob (io : TorchIO T) (v : LatentValue T) (b : Bytes) : Prop :=
  (∃ t, v = .tensor t ∧ b = io.save t) ∨ v = .bytes b

inductive LatentCall (io : TorchIO T) (cacheId : String) (outputs : ModelOutputs T F) :
    BackendCall → (Stores → Stores) → Prop
  | serialize (step : Int) : LatentCall io cacheId outputs (.serialize step) id
  | put {step : Int} {v : LatentValue T} {b : Bytes} (hv : (step, v) ∈ validLatents outputs) (hb : Blob io v b) :
      LatentCall io cacheId outputs (.kvPut (kvKey cacheId step))
        fun s => { s with kv := s.kv.set (kvKey cacheId step) b }
  | remove (step : Int) : LatentCall io cacheId outputs (.kvRemove (kvKey cacheId step))
      fun s => { s with kv := s.kv.erase (kvKey cacheId step) }

inductive SaveCall (io : TorchIO T) (cacheId : String) (query : CacheQuery) (outputs : ModelOutputs T F) :
    BackendCall → (Stores → Stores) → Prop
  | latent {c : BackendCall} {effect : Stores → Stores} (h : LatentCall io cacheId outputs c effect) :
      SaveCall io cacheId query outputs c effect
  | encodeVideo : SaveCall io cacheId query outputs .encodeVideo id
  | ensureCollection : SaveCall io cacheId query outputs .ensureCollection id
  | upsert (vector : List Rat) : SaveCall io cacheId query outputs (.upsert cacheId)
      fun s => { s with vectors := s.vectors.set cacheId ⟨vector, query.prompt, stepsOf outputs, query.task⟩ }
  | register {effect : Stores → Stores}
      (h : ∀ s, ∃ r : CacheRecord, effect s = { s with metadata := s.metadata.set cacheId r }) :
      SaveCall io cacheId query outputs (.registerCache cacheId) effect
  | deletePoint : SaveCall io cacheId query outputs (.vectorDelete cacheId)
      fun s => { s with vectors := s.vectors.erase cacheId }
  | removeRecord : SaveCall io cacheId query outputs (.removeCache cacheId)
      fun s => { s with metadata := s.metadata.erase cacheId }

/-- However a call ends, its effect is there or not. -/
theorem call_stores {P : Stores → Prop} (c : BackendCall) {effect : Stores → Stores} (hsame : P w.stores)
    (heff : P (effect w.stores)) : P (w.call faults c effect).2.stores := by
  unfold World.call
  cases faults c w.calls with
  | returns => exact heff
  | raises exc => exact hsame
  | raisesDone exc => exact heff

theorem call_audit (faults : Faults) (w : World) (c : BackendCall) (effect : Stores → Stores) :
    (w.call faults c effect).2.audit = w.audit := by
  unfold World.call
  cases faults c w.calls with
  | returns => rfl
  | raises exc => rfl
  | raisesDone exc => rfl

structure Frame (faults : Faults) (C : BackendCall → (Stores → Stores) → Prop) (R : World → World → Prop) :
    Prop where
  refl : ∀ w, R w w
  trans : ∀ {w w' w''}, R w w' → R w' w'' → R w w''
  call : ∀ {c effect}, C c effect → ∀ w : World, R w (w.call faults c effect).2
  raise : ∀ w : World, R w { w with raised := w.raised + 1 }

variable {R : World → World → Prop}

theorem Frame.latents (h : Frame faults (SaveCall io cacheId query outputs) R) :
    Frame faults (LatentCall io cacheId outputs) R :=
  ⟨h.refl, h.trans, fun hc => h.call (.latent hc), h.raise⟩

theorem serializeValue_frame (h : Frame faults (LatentCall io cacheId outputs) R) (w : World) (step : Int)
    (v : LatentValue T) : R w (serializeValue faults io w step v).2 ∧
      ∀ b, (serializeValue faults io w step v).1 = .ok b → Blob io v b := by
  cases v with
  | tensor t =>
    have hcall := h.call (.serialize step) w
    unfold serializeValue
    generalize w.call faults (.serialize step) id = x at hcall
    obtain ⟨exc | _, w1⟩ := x
    · exact ⟨hcall, fun b hb => nomatch hb⟩
    · exact ⟨hcall, fun b hb => Or.inl ⟨t, rfl, (Except.ok.inj hb).symm⟩⟩
  | bytes data => exact ⟨h.refl w, fun b hb => Or.inr (congrArg _ (Except.ok.inj hb))⟩
  | none => exact ⟨h.raise w, fun b hb => nomatch hb⟩
  | other name => exact ⟨h.raise w, fun b hb => nomatch hb⟩

theorem putLatents_frame (h : Frame faults (LatentCall io cacheId outputs) R)
    (entries : List (Int × LatentValue T)) (saved : List Int) (w : World)
    (hentries : ∀ e ∈ entries, e ∈ validLatents outputs) :
    R w (putLatents faults io cacheId entries saved w).2.2 ∧
      ((putLatents faults io cacheId entries saved w).1 = .ok () →
        (putLatents faults io cacheId entries saved w).2.1 = saved ++ entries.map Prod.fst) := by
  induction entries generalizing saved w with
  | nil => exact ⟨h.refl w, fun _ => (List.append_nil _).symm⟩
  | cons e entries ih =>
    obtain ⟨step, v⟩ := e
    obtain ⟨hser, hblob⟩ := serializeValue_frame h w step v
    unfold putLatents
    generalize serializeValue faults io w step v = x at hser hblob
    obtain ⟨exc | b, w1⟩ := x
    · exact ⟨hser, fun h => by cases h⟩
    · dsimp only at hser ⊢
      have hput : R w (w1.kvPut faults (kvKey cacheId step) b).2 :=
        h.trans hser (h.call (.put (hentries _ List.mem_cons_self) (hblob b rfl)) w1)
      generalize w1.kvPut faults (kvKey cacheId step) b = y at hput
      obtain ⟨exc | _, w2⟩ := y
      · exact ⟨hput, fun h => by cases h⟩
      · simp only [stepOfKey_kvKey]
        obtain ⟨hrest, hsaved⟩ := ih (saved ++ [step]) w2 fun e he => hentries e (List.mem_cons_of_mem _ he)
        refine ⟨h.trans hput hrest, fun hok => ?_⟩
        rw [hsaved hok]
        simp

theorem removeEach_frame (h : Frame faults (LatentCall io cacheId outputs) R) (steps : List Int) (w : World) :
    R w (removeEach faults cacheId steps w).2 := by
  induction steps generalizing w with
  | nil => exact h.refl w
  | cons step steps ih =>
    have hremove : R w (w.kvRemove faults (kvKey cacheId step)).2 := h.call (.remove step) w
    unfold removeEach
    generalize w.kvRemove faults (kvKey cacheId step) = x at hremove
    obtain ⟨exc | _, w1⟩ := x
    · exact h.trans hremove (ih w1)
    · exact h.trans hremove (ih w1)

theorem removeSavedLatents_frame (h : Frame faults (LatentCall io cacheId outputs) R) (steps : List Int)
    (w : World) : R w (removeSavedLatents faults cacheId steps w).2 := by
  have hremove := removeEach_frame h steps w
  unfold removeSavedLatents
  generalize removeEach faults cacheId steps w = x at hremove
  obtain ⟨_ | ⟨e, es⟩, w1⟩ := x
  · exact hremove
  · exact hremove

theorem rollbackVector_frame (h : Frame faults (SaveCall io cacheId query outputs) R)
    (S : VideoBasedApproximateCache T F) (collection : String) (removeVector : Bool) (w : World) :
    R w (rollbackVector S faults collection cacheId removeVector w).2 := by
  unfold rollbackVector
  split
  · have hcall : R w (w.vectorDelete faults cacheId).2 := h.call .deletePoint w
    generalize w.vectorDelete faults cacheId = x at hcall
    obtain ⟨exc | _, w1⟩ := x
    · exact hcall
    · exact hcall
  · exact h.refl w

theorem rollbackMetadata_frame (h : Frame faults (SaveCall io cacheId query outputs) R)
    (removeMetadata : Bool) (w : World) : R w (rollbackMetadata faults cacheId removeMetadata w).2 := by
  unfold rollbackMetadata
  split
  · have hcall : R w (w.removeCache faults cacheId).2 := h.call .removeRecord w
    generalize w.removeCache faults cacheId = x at hcall
    obtain ⟨exc | _, w1⟩ := x
    · exact hcall
    · exact hcall
  · exact h.refl w

theorem rollback_frame (h : Frame faults (SaveCall io cacheId query outputs) R)
    (S : VideoBasedApproximateCache T F) (steps : List Int) (collection : String)
    (removeVector removeMetadata : Bool) (w : World) :
    R w (rollbackCacheEntry S faults cacheId steps collection removeVector removeMetadata w).2 := by
  have hvec := rollbackVector_frame h S collection removeVector w
  unfold rollbackCacheEntry
  generalize rollbackVector S faults collection cacheId removeVector w = x at hvec
  obtain ⟨errors, w1⟩ := x
  have hmeta := rollbackMetadata_frame h removeMetadata w1
  dsimp only
  generalize rollbackMetadata faults cacheId removeMetadata w1 = y at hmeta
  obtain ⟨errors', w2⟩ := y
  have hlat := removeSavedLatents_frame h.latents steps w2
  dsimp only
  generalize removeSavedLatents faults cacheId steps w2 = z at hlat
  obtain ⟨res, w3⟩ := z
  have hall := h.trans (h.trans hvec hmeta) hlat
  dsimp only
  generalize errors ++ errors' ++ _ = allErrors
  split
  · exact hall
  · exact hall

theorem embed_frame (h : Frame faults (SaveCall io cacheId query outputs) R)
    (encodeVideo : List F → String → Option (List Rat)) (frames : List F) (sizeMb : Rat) (w : World) :
    R w (embedAndRegister faults encodeVideo cacheId query frames (stepsOf outputs) sizeMb
      outputs.numFrames w).world := by
  have hclean := removeSavedLatents_frame h.latents (stepsOf outputs)
  unfold embedAndRegister
  split
  · exact hclean w
  · have h1 := h.call .encodeVideo w
    generalize w.call faults .encodeVideo id = x at h1
    obtain ⟨exc | _, w1⟩ := x
    · exact h1
    · dsimp only
      split
      · exact h.trans h1 (hclean w1)
      · have h2 := h.trans h1 (h.call .ensureCollection w1)
        generalize w1.call faults .ensureCollection id = x at h2
        obtain ⟨exc | _, w2⟩ := x
        · exact h2
        · dsimp only at h2 ⊢
          have h3 : R w (w2.upsert faults cacheId ((encodeVideo frames query.prompt).getD [])
              ⟨query.prompt, stepsOf outputs, query.task⟩).2 := h.trans h2 (h.call (.upsert _) w2)
          generalize w2.upsert faults cacheId _ _ = x at h3
          obtain ⟨exc | _, w3⟩ := x
          · exact h3
          · exact h.trans h3 (h.call (.register fun s => ⟨_, rfl⟩) w3)

theorem saveEmbedding_frame (h : Frame faults (SaveCall io cacheId query outputs) R)
    (hemit : ∀ w steps sizeMb, R w (w.auditEmit (.saveStored cacheId query.task steps sizeMb outputs.numFrames)))
    (S : VideoBasedApproximateCache T F) (sizeMb : Rat) (w : World) :
    R w (saveEmbedding S faults cacheId query outputs (stepsOf outputs) sizeMb w).2 := by
  have hclean := removeSavedLatents_frame h.latents (stepsOf outputs)
  have ha := hemit w (stepsOf outputs) sizeMb
  unfold saveEmbedding
  generalize w.auditEmit _ = wa at ha
  dsimp only
  split
  · exact h.trans ha (hclean wa)
  · split
    · exact h.trans ha (hclean wa)
    · split
      · exact h.trans ha (hclean wa)
      · rename_i encodeVideo _
        have hembed := h.trans ha (embed_frame h encodeVideo (outputs.embeddingVideoFrames.getD []) sizeMb wa)
        generalize embedAndRegister faults encodeVideo cacheId query _ (stepsOf outputs) sizeMb outputs.numFrames wa
          = done at hembed
        cases done.res with
        | ok _ => exact hembed
        | error exc =>
          have hback := h.trans hembed (rollback_frame h S (stepsOf outputs) S.config.videoVectorCollection
            done.vectorWritten done.metadataAttempted done.world)
          dsimp only
          generalize rollbackCacheEntry S faults cacheId (stepsOf outputs) _ done.vectorWritten
            done.metadataAttempted done.world = x at hback
          obtain ⟨exc' | _, w1⟩ := x
          · exact hback
          · exact hback

/-- What each call of a save keeps to, the save keeps to. -/
theorem save_frame {S : VideoBasedApproximateCache T F} (h : Frame faults (SaveCall S.io cacheId query outputs) R)
    (hemit : ∀ w steps sizeMb, R w (w.auditEmit (.saveStored cacheId query.task steps sizeMb outputs.numFrames)))
    (w : World) : R w (save S faults cacheId query outputs w).2 := by
  unfold save
  split
  · exact h.refl w
  · split
    · exact h.refl w
    · dsimp only
      split
      · exact h.refl w
      · obtain ⟨hput, hsaved⟩ := putLatents_frame h.latents (validLatents outputs) [] w fun _ he => he
        rw [List.nil_append] at hsaved
        generalize putLatents faults S.io cacheId (validLatents outputs) [] w = x at hput hsaved
        obtain ⟨exc | _, saved, w1⟩ := x
        · dsimp only at hput ⊢
          split
          · exact hput
          · have hafter := h.trans hput (removeSavedLatents_frame h.latents saved w1)
            generalize removeSavedLatents faults cacheId saved w1 = y at hafter
            obtain ⟨exc' | _, w2⟩ := y
            · exact hafter
            · exact hafter
        · obtain rfl : saved = stepsOf outputs := hsaved rfl
          dsimp only at hput ⊢
          split
          · exact hput
          · exact h.trans hput (saveEmbedding_frame h hemit S _ w1)

end CacheSeek.Proofs.SaveCalls
