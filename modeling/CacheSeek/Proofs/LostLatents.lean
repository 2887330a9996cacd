import CacheSeek.Proofs.StaleDonors

namespace CacheSeek.Proofs.LostLatents
open CacheSeek.Lib CacheSeek.Approximate CacheSeek.Prefix
open CacheSeek.Proofs.SaveAtomic CacheSeek.Proofs.SaveCalls CacheSeek.Proofs.DonorHistory
open CacheSeek.Proofs.StaleDonors

variable {T F : Type} {S : VideoBasedApproximateCache T F} {faults : Faults} {w w' : World}
  {cacheId : String} {query : CacheQuery} {outputs : ModelOutputs T F} {answers : List Candidate}
  {past : List (Event T F)}

/-- The latents of every other id are as before. -/
theorem save_otherLatents (S : VideoBasedApproximateCache T F) (faults : Faults) (cacheId : String)
    (query : CacheQuery) (outputs : ModelOutputs T F) (w : World) {id : String} (hid : id ≠ cacheId) (step : Int) :
    (save S faults cacheId query outputs w).2.stores.kv.get? (kvKey id step) =
      w.stores.kv.get? (kvKey id step) := by
  have hkey : ∀ k, kvKey id step ≠ kvKey cacheId k := fun k h => hid (kvKey_inj h).1
  have hframe : Frame faults (SaveCall S.io cacheId query outputs)
      fun w w' => w'.stores.kv.get? (kvKey id step) = w.stores.kv.get? (kvKey id step) :=
    { refl := fun _ => rfl
      trans := fun h h' => h'.trans h
      call := by
        intro c effect hc w
        apply call_stores (P := fun s => s.kv.get? (kvKey id step) = w.stores.kv.get? (kvKey id step)) c rfl
        cases hc with
        | latent hc =>
          cases hc with
          | serialize => rfl
          | put hv hb => exact Dict.get?_set_ne _ _ (hkey _)
          | remove k => simp [Dict.get?_erase, hkey k]
        | encodeVideo => rfl
        | ensureCollection => rfl
        | upsert vector => rfl
        | register h =>
          obtain ⟨r, hr⟩ := h w.stores
          rw [hr]
        | deletePoint => rfl
        | removeRecord => rfl
      raise := fun _ => rfl }
  exact save_frame hframe (fun _ _ _ => rfl) w

/-- The point of the id, if there is one, has all its latents. -/
def BackedAt (s : Stores) (id : String) : Prop :=
  ∀ point, s.vectors.get? id = some point →
    ∀ step ∈ point.payload.savedSteps, (s.kv.get? (kvKey id step)).isSome = true

theorem backedAt_none {s : Stores} {id : String} (h : s.vectors.get? id = none) : BackedAt s id := by
  intro point hget
  simp [h] at hget

/-- Once all latents are stored, what is left of a save is a whole donor or no point. -/
theorem saveEmbedding_backedAt (hf : Clean faults) (hd : ∀ n, faults (.vectorDelete cacheId) n = .returns)
    (hr : ∀ n, faults (.removeCache cacheId) n = .returns) (S : VideoBasedApproximateCache T F)
    (query : CacheQuery) (outputs : ModelOutputs T F) (sizeMb : Rat) (w : World)
    (hv : w.stores.vectors.get? cacheId = none)
    (hkv : ∀ step ∈ stepsOf outputs, (w.stores.kv.get? (kvKey cacheId step)).isSome = true) :
    BackedAt (saveEmbedding S faults cacheId query outputs (stepsOf outputs) sizeMb w).2.stores cacheId := by
  rcases saveEmbedding_leaves hf hd hr S query outputs sizeMb w hv rfl with ⟨hnone, -⟩ | ⟨point, r, hp, -, he⟩
  · exact backedAt_none hnone
  · rw [he]
    intro point' hget step hstep
    simp only [withRecord, withPoint, Dict.get?_set_self, Option.some.injEq] at hget ⊢
    rw [← hget, hp] at hstep
    exact hkv step hstep

theorem save_backedAt (hf : Clean faults) (hd : ∀ n, faults (.vectorDelete cacheId) n = .returns)
    (hr : ∀ n, faults (.removeCache cacheId) n = .returns) (S : VideoBasedApproximateCache T F)
    (query : CacheQuery) (outputs : ModelOutputs T F) (w : World)
    (hv : w.stores.vectors.get? cacheId = none) :
    BackedAt (save S faults cacheId query outputs w).2.stores cacheId := by
  have hframe := latents_indexes faults S.io cacheId outputs
  have hnone : ∀ {s : Stores}, SameIndexes w.stores s → BackedAt s cacheId := by
    intro s hs
    apply backedAt_none
    rw [hs.vectors]
    exact hv
  have hsame : SameIndexes w.stores w.stores := ⟨rfl, rfl⟩
  unfold save
  split
  · exact hnone hsame
  · split
    · exact hnone hsame
    · dsimp only
      split
      · exact hnone hsame
      · rcases putLatents_clean hf S.io (validLatents outputs) w.stores (Stored.refl cacheId w.stores) with
          ⟨w1, he, hs, _⟩ | ⟨exc, saved, w1, he, hs, _⟩
        · rw [List.nil_append] at he hs
          simp only [he]
          split
          · exact hnone ⟨hs.vectors, hs.metadata⟩
          · exact saveEmbedding_backedAt hf hd hr S query outputs _ w1 (by rw [hs.vectors]; exact hv) hs.stored
        · simp only [he]
          split
          · exact hnone ⟨hs.vectors, hs.metadata⟩
          · have hafter := SameIndexes.trans ⟨hs.vectors, hs.metadata⟩ (removeSavedLatents_frame hframe saved w1)
            generalize removeSavedLatents faults cacheId saved w1 = y at hafter
            obtain ⟨exc' | _, w2⟩ := y
            · exact hnone hafter
            · exact hnone hafter

theorem lookup_kv (S : VideoBasedApproximateCache T F) (faults : Faults) (search : List Rat → Nat → List Candidate)
    (query : CacheQuery) (w : World) : (lookup S faults search query w).2.stores.kv = w.stores.kv := by
  apply lookup_keeps (P := fun s => s.kv = w.stores.kv)
  · exact fun _ _ h => h
  · exact fun _ _ h => h
  · rfl

/-- The lookup gets as far as a choice. -/
structure Chooses (S : VideoBasedApproximateCache T F) (query : CacheQuery) (answers : List Candidate)
    (ch : Choice) : Prop where
  prompt : query.prompt ≠ ""
  store : S.hasVectorStore = true
  chosen : ∃ encode, S.promptEncoder = some encode ∧ ((encode query.prompt).getD []).isEmpty = false ∧
    choose S query.prompt (normalizeSearchResults
      (vectorSearch (fun _ _ => answers) ((encode query.prompt).getD []) S.config.topK)) = .ok (some ch)

theorem Chooses.selected {ch : Choice} (h : Chooses S query answers ch) : Selected S query answers ch := by
  obtain ⟨encode, _, _, hch⟩ := h.chosen
  exact ⟨_, hch⟩

theorem serve_stored {ch : Choice} {data : Bytes}
    (h : w.stores.kv.get? (kvKey ch.result.cacheId ch.skipStep) = some data)
    {r : LookupResult T} (hr : (serve S faults query ch w).1 = .ok r) : r = servedResult ch data := by
  unfold serve loadPayload World.kvGet at hr
  have hstores := call_id_stores faults w (.kvGet (kvKey ch.result.cacheId ch.skipStep))
  generalize w.call faults (.kvGet (kvKey ch.result.cacheId ch.skipStep)) id = x at hr hstores
  obtain ⟨exc | _, w1⟩ := x
  · cases hr
  · dsimp only at hr hstores
    rw [hstores, h] at hr
    have hsome : (VideoApproxPayload.fromKvLoader (T := T) ch.result.cacheId (fun _ => some data)
      (.single ch.skipStep)).stepToLatents.entries.isEmpty = false := rfl
    rw [if_neg (by rw [hsome]; exact Bool.false_ne_true)] at hr
    dsimp only at hr
    generalize w1.recordAccess faults ch.result.cacheId = y at hr
    obtain ⟨exc | _, w2⟩ := y
    · cases hr
    · exact (Except.ok.inj hr).symm

/-- A lookup that chooses a stored latent, and none of whose calls raises, hands it out. -/
theorem Chooses.served {ch : Choice} (hch : Chooses S query answers ch) {data : Bytes}
    (h : w.stores.kv.get? (kvKey ch.result.cacheId ch.skipStep) = some data) {r : LookupResult T}
    (hr : (lookup S faults (fun _ _ => answers) query w).1 = .ok r) : r = servedResult ch data := by
  obtain ⟨hprompt, hstore, encode, hencode, hvec, hchoose⟩ := hch
  unfold lookup at hr
  rw [if_neg hprompt, hstore, if_neg (by simp), hencode] at hr
  have h1 := call_id_stores faults w .encodePrompt
  generalize w.call faults .encodePrompt id = x at hr h1
  obtain ⟨exc | _, w1⟩ := x
  · cases hr
  · dsimp only at hr h1
    rw [if_neg (by rw [hvec]; exact Bool.false_ne_true)] at hr
    have h2 := call_id_stores faults w1 .vectorSearch
    generalize w1.call faults .vectorSearch id = x at hr h2
    obtain ⟨exc | _, w2⟩ := x
    · cases hr
    · dsimp only at hr h2
      simp only [hchoose] at hr
      apply serve_stored _ hr
      rw [h2, h1]
      exact h

/-- What holds between operations: a latent that a point counts on is there or was lost, and an id was
reported missing for a latent of its save that was lost. -/
structure Held (S : VideoBasedApproximateCache T F) (past : List (Event T F)) (w : World) : Prop where
  healed : Healed past w
  given : Given S past w.stores
  backed : ∀ {id point}, w.stores.vectors.get? id = some point → ∀ step ∈ point.payload.savedSteps,
    .lose (kvKey id step) ∈ past ∨ (w.stores.kv.get? (kvKey id step)).isSome = true
  losses : ∀ id ∈ misses w, ∃ query outputs step, .save id query outputs ∈ past ∧ step ∈ stepsOf outputs ∧
    .lose (kvKey id step) ∈ past

/-- A choice is a point of the store and a step that it has. -/
theorem healed_choice (h : Healed past w) (hans : FromStore w.stores answers) {ch : Choice}
    (hch : Selected S query answers ch) : ∃ point, w.stores.vectors.get? ch.result.cacheId = some point ∧
      ch.skipStep ∈ point.payload.savedSteps := by
  obtain ⟨queryVec, hchoose⟩ := hch
  obtain ⟨hmem, hstep⟩ := choose_mem hchoose
  obtain ⟨cand, hcand, hresult⟩ := LookupDecision.mem_normalized hmem
  have hcand : cand ∈ answers := (List.mem_insertionSort _).mp (List.mem_of_mem_take hcand)
  obtain ⟨id, point, hget, hid, _, hsteps, _⟩ := hans cand hcand
  obtain ⟨q, o, hsave⟩ := h.known hget
  rw [normalizeCacheId_hex (h.hex hsave)] at hid
  rw [hresult] at hstep ⊢
  exact ⟨point, by rw [← hget, ← hid], hsteps ▸ hstep⟩

/-- A selected latent that is gone was lost. -/
theorem Held.lost (h : Held S past w) (hans : FromStore w.stores answers) {ch : Choice}
    (hch : Selected S query answers ch) (hgone : w.stores.kv.get? (kvKey ch.result.cacheId ch.skipStep) = none) :
    .lose (kvKey ch.result.cacheId ch.skipStep) ∈ past := by
  obtain ⟨point, hpoint, hstep⟩ := healed_choice h.healed hans hch
  apply (h.backed hpoint _ hstep).resolve_right
  simp [hgone]

theorem Held.append (h : Held S past w) (e : Event T F) (hmiss : misses w' = misses w) :
    ∀ id ∈ misses w', ∃ query outputs step, .save id query outputs ∈ past ++ [e] ∧ step ∈ stepsOf outputs ∧
      .lose (kvKey id step) ∈ past ++ [e] := by
  intro id hid
  rw [hmiss] at hid
  obtain ⟨q, o, step, hsave, hstep, hlose⟩ := h.losses id hid
  exact ⟨q, o, step, List.mem_append_left _ hsave, hstep, List.mem_append_left _ hlose⟩

section
variable (hf : Clean faults) (hd : ∀ id n, faults (.vectorDelete id) n = .returns)
  (hr : ∀ id n, faults (.removeCache id) n = .returns)
include hf hd hr

theorem Held.save (h : Held S past w) (hfresh : Fresh past cacheId) (query : CacheQuery)
    (outputs : ModelOutputs T F) :
    Held S (past ++ [.save cacheId query outputs]) (save S faults cacheId query outputs w).2 := by
  have hothers := save_others S faults cacheId query outputs w
  have hv : w.stores.vectors.get? cacheId = none := by
    cases hget : w.stores.vectors.get? cacheId with
    | none => rfl
    | some point =>
      obtain ⟨q, o, hsave⟩ := h.healed.known hget
      exact absurd hsave (hfresh.2 q o)
  refine ⟨h.healed.save hf hd hr hfresh query outputs, h.given.step (.save cacheId query outputs),
    fun {id point} hget step hstep => ?_, h.append _ (save_misses S faults cacheId query outputs w)⟩
  by_cases hid : id = cacheId
  · right
    subst hid
    exact save_backedAt hf (hd id) (hr id) S query outputs w hv point hget step hstep
  · rw [hothers.vectors id hid] at hget
    rw [save_otherLatents S faults cacheId query outputs w hid]
    apply (h.backed hget step hstep).imp_left
    exact List.mem_append_left _

theorem Held.lookup (h : Held S past w) (hans : FromStore w.stores answers) :
    Held S (past ++ [.lookup query answers]) (lookup S faults (fun _ _ => answers) query w).2 := by
  have heff := lookup_effect hf hd hr S query answers w
  have hkv := lookup_kv S faults (fun _ _ => answers) query w
  have hhealed := h.healed.lookup hans heff
  have hgiven : Given S (past ++ [.lookup query answers])
      (Approximate.lookup S faults (fun _ _ => answers) query w).2.stores := h.given.step (.lookup query answers)
  generalize Approximate.lookup S faults (fun _ _ => answers) query w = x at heff hkv hhealed hgiven
  obtain ⟨res, w'⟩ := x
  dsimp only at heff hkv hhealed hgiven ⊢
  have hbacked : ∀ {id point}, w.stores.vectors.get? id = some point → ∀ step ∈ point.payload.savedSteps,
      .lose (kvKey id step) ∈ past ++ [.lookup query answers] ∨
        (w'.stores.kv.get? (kvKey id step)).isSome = true := by
    intro id point hget step hstep
    rw [hkv]
    apply (h.backed hget step hstep).imp_left
    exact List.mem_append_left _
  cases heff with
  | unchanged res hsame hmiss hres =>
    exact ⟨hhealed, hgiven, fun hget => hbacked (hsame.vectors ▸ hget), h.append _ hmiss⟩
  | accessed r ch hch hvec hother hown hmiss hr =>
    exact ⟨hhealed, hgiven, fun hget => hbacked (hvec ▸ hget), h.append _ hmiss⟩
  | evicted ch hch hgone hvec hmeta hmiss =>
    refine ⟨hhealed, hgiven, fun {id point} hget => ?_, fun id hid => ?_⟩
    · rw [hvec, Dict.get?_erase] at hget
      split at hget
      · cases hget
      · exact hbacked hget
    · rw [hmiss] at hid
      rcases List.mem_append.mp hid with hid | hid
      · exact h.append _ rfl id hid
      · -- the step that was missed is one that the save of the donor recorded
        rw [List.mem_singleton.mp hid]
        obtain ⟨point, hpoint, hstep⟩ := healed_choice h.healed hans hch
        obtain ⟨q, o, hsave, hpayload⟩ := h.given.vectors hpoint
        rw [hpayload] at hstep
        exact ⟨q, o, ch.skipStep, List.mem_append_left _ hsave, hstep,
          List.mem_append_left _ (h.lost hans hch hgone)⟩

/-- What one event keeps. -/
theorem Held.step (h : Held S past w) (e : Event T F) (he : e.Possible past w) :
    Held S (past ++ [e]) (w.step S faults e) := by
  cases e with
  | save cacheId query outputs => exact h.save hf hd hr he query outputs
  | lookup query answers => exact h.lookup hf hd hr he
  | lose key =>
    refine ⟨h.healed.step hf hd hr _ he, h.given.step (.lose key), fun {id point} hget step hstep => ?_,
      h.append _ rfl⟩
    by_cases hkey : kvKey id step = key
    · left
      simp [hkey]
    · apply (h.backed hget step hstep).imp
      · exact List.mem_append_left _
      · intro hsome
        change ((w.stores.kv.erase key).get? (kvKey id step)).isSome = true
        rw [Dict.get?_erase, if_neg hkey]
        exact hsome

/-- While no latent of it is lost, a donor stays. -/
theorem donor_step {id : String} {point : VectorPoint} (h : Held S past w) (e : Event T F)
    (he : e.Possible past w) (hpoint : w.stores.vectors.get? id = some point)
    (hkept : ∀ step ∈ point.payload.savedSteps, .lose (kvKey id step) ∉ past) :
    (w.step S faults e).stores.vectors.get? id = some point := by
  cases e with
  | save cacheId query outputs =>
    have hne : id ≠ cacheId := by
      intro heq
      obtain ⟨q, o, hsave⟩ := h.healed.known hpoint
      exact he.2 q o (heq ▸ hsave)
    exact ((save_others S faults cacheId query outputs w).vectors id hne).trans hpoint
  | lookup query answers =>
    have heff := lookup_effect hf hd hr S query answers w
    change (Approximate.lookup S faults (fun _ _ => answers) query w).2.stores.vectors.get? id = some point
    generalize Approximate.lookup S faults (fun _ _ => answers) query w = x at heff
    obtain ⟨res, w'⟩ := x
    dsimp only at heff ⊢
    cases heff with
    | unchanged _ hsame _ _ => rw [hsame.vectors, hpoint]
    | accessed _ _ _ hvec _ _ _ _ => rw [hvec, hpoint]
    | evicted ch hch hgone hvec _ _ =>
      have hne : id ≠ ch.result.cacheId := by
        intro heq
        obtain ⟨point', hpoint', hstep⟩ := healed_choice h.healed he hch
        rw [← heq, hpoint, Option.some.injEq] at hpoint'
        apply hkept ch.skipStep (hpoint' ▸ hstep)
        rw [heq]
        exact h.lost he hch hgone
      rw [hvec, Dict.get?_erase, if_neg hne, hpoint]
  | lose key => exact hpoint

end

theorem held_start (S : VideoBasedApproximateCache T F) : Held S ([] : List (Event T F)) {} := by
  refine ⟨⟨fun id => pairedAt_none rfl rfl, (fun hmem => nomatch hmem), (fun hget => nomatch hget),
    List.nodup_nil, fun _ hid => nomatch hid⟩, given_run S (fun _ _ => .returns) [], (fun hget => nomatch hget), ?_⟩
  intro id hid
  cases hid

/-- Between the events `es` and the end of `es'`: a donor that lost no latent stays and keeps its
latents, an id is reported missing for a recorded latent that was lost, and the next lookup that chooses
a latent which was not lost hands it out. -/
structure OnlyLosses (S : VideoBasedApproximateCache T F) (faults : Faults) (es es' : List (Event T F)) : Prop where
  donors : ∀ id point, (World.run S faults {} es).stores.vectors.get? id = some point →
    (∀ step ∈ point.payload.savedSteps, .lose (kvKey id step) ∉ es ++ es') →
      (World.run S faults {} (es ++ es')).stores.vectors.get? id = some point ∧
        ∀ step ∈ point.payload.savedSteps,
          ((World.run S faults {} (es ++ es')).stores.kv.get? (kvKey id step)).isSome = true
  reported : ∀ id ∈ misses (World.run S faults {} (es ++ es')), ∃ query outputs step,
    .save id query outputs ∈ es ++ es' ∧ step ∈ stepsOf outputs ∧ .lose (kvKey id step) ∈ es ++ es'
  served : ∀ query answers ch r, FromStore (World.run S faults {} (es ++ es')).stores answers →
    Chooses S query answers ch → .lose (kvKey ch.result.cacheId ch.skipStep) ∉ es ++ es' →
    (lookup S faults (fun _ _ => answers) query (World.run S faults {} (es ++ es'))).1 = .ok r →
      ∃ data, (World.run S faults {} (es ++ es')).stores.kv.get? (kvKey ch.result.cacheId ch.skipStep) =
        some data ∧ r = servedResult ch data

/-- Nothing but the loss of a latent costs a donor, whatever raises on the way. -/
theorem only_losses_cost_donors (S : VideoBasedApproximateCache T F) (hf : Clean faults)
    (hd : ∀ id n, faults (.vectorDelete id) n = .returns) (hr : ∀ id n, faults (.removeCache id) n = .returns)
    (es es' : List (Event T F)) (h : History S faults [] {} (es ++ es')) : OnlyLosses S faults es es' := by
  obtain ⟨hes, hes'⟩ := history_append.mp h
  have happ : World.run S faults {} (es ++ es') = World.run S faults (World.run S faults {} es) es' :=
    List.foldl_append
  have hmid : Held S es (World.run S faults {} es) :=
    History.invariant (I := Held S) (fun _ _ e hI he => hI.step hf hd hr e he) hes (held_start S)
  rw [List.nil_append] at hes'
  have hend : Held S (es ++ es') (World.run S faults (World.run S faults {} es) es') :=
    History.invariant (I := Held S) (fun _ _ e hI he => hI.step hf hd hr e he) hes' hmid
  refine ⟨fun id point hpoint hkept => ?_, fun id hid => ?_, fun query answers ch r hans hch hkept hres => ?_⟩
  · rw [happ]
    -- as long as nothing of the donor is lost, each event leaves its point
    let I (past : List (Event T F)) (w : World) : Prop := Held S past w ∧
      ((∀ step ∈ point.payload.savedSteps, .lose (kvKey id step) ∉ past) → w.stores.vectors.get? id = some point)
    have hI : I (es ++ es') (World.run S faults (World.run S faults {} es) es') := by
      apply History.invariant (I := I) _ hes' ⟨hmid, fun _ => hpoint⟩
      intro past w e hI he
      refine ⟨hI.1.step hf hd hr e he, fun hno => ?_⟩
      have hno' : ∀ step ∈ point.payload.savedSteps, .lose (kvKey id step) ∉ past :=
        fun step hstep hmem => hno step hstep (List.mem_append_left _ hmem)
      exact donor_step hf hd hr hI.1 e he (hI.2 hno') hno'
    have hstays := hI.2 hkept
    exact ⟨hstays, fun step hstep => (hend.backed hstays step hstep).resolve_left (hkept step hstep)⟩
  · rw [happ] at hid
    exact hend.losses id hid
  · rw [happ] at hans hres ⊢
    obtain ⟨point, hpoint, hstep⟩ := healed_choice hend.healed hans hch.selected
    obtain ⟨data, hdata⟩ := Option.isSome_iff_exists.mp ((hend.backed hpoint _ hstep).resolve_left hkept)
    exact ⟨data, hdata, hch.served hdata hres⟩

/-- Two donors are saved, and one loses its latent of step 5 and is asked for. -/
def demoTwoDonors : List (Event Bytes Unit) :=
  [.save "aa" ⟨"a cat", "t2v"⟩ demoOutputs, .save "bb" ⟨"a cat", "t2v"⟩ demoOutputs]

def demoOneLost : List (Event Bytes Unit) := [.lose (kvKey "aa" 5), .lookup ⟨"a dog", "t2v"⟩ demoAnswers]

theorem only_losses_cost_donors_one_of_two :
    let S := demoCache { rerankEnabled := false }
    misses (World.run S keepsLatents {} (demoTwoDonors ++ demoOneLost)) = ["aa"] ∧
      OnlyLosses S keepsLatents demoTwoDonors demoOneLost := by
  intro S
  have hf : Clean keepsLatents := by
    intro c n exc h
    cases c <;> cases h
  have hans : FromStore (World.run S keepsLatents {} (demoTwoDonors ++ [.lose (kvKey "aa" 5)])).stores
      demoAnswers := by
    intro r hr
    obtain rfl := List.mem_singleton.mp hr
    exact ⟨"aa", ⟨[1], ⟨"a cat", [5, 10], "t2v"⟩⟩, by decide +kernel, rfl, rfl, rfl, rfl⟩
  have hfresh : Fresh [Event.save "aa" ⟨"a cat", "t2v"⟩ demoOutputs] "bb" := by
    refine ⟨by decide, fun query outputs hmem => ?_⟩
    simp at hmem
  have h : History S keepsLatents [] {} (demoTwoDonors ++ demoOneLost) :=
    ⟨⟨by decide, fun _ _ hmem => nomatch hmem⟩, hfresh, True.intro, hans, True.intro⟩
  refine ⟨by decide +kernel, ?_⟩
  exact only_losses_cost_donors S hf (fun _ _ => rfl) (fun _ _ => rfl) demoTwoDonors demoOneLost h

end CacheSeek.Proofs.LostLatents
