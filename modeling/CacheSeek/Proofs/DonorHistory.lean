import CacheSeek.Approximate.History
import CacheSeek.Proofs.LookupDecision
import CacheSeek.Proofs.SaveCalls
import Mathlib.Data.List.Induction

namespace CacheSeek.Proofs.DonorHistory
open CacheSeek.Lib CacheSeek.Approximate CacheSeek.Prefix
open CacheSeek.Proofs.SaveAtomic (stepsOf rawIO demoCache demoOutputs)
open CacheSeek.Proofs.LookupDecision (determineSkipStep_eq mem_normalized)
open CacheSeek.Proofs.SaveCalls

variable {T F : Type} {S : VideoBasedApproximateCache T F} {faults : Faults} {w : World}

structure Writes (io : TorchIO T) (cacheId : String) (query : CacheQuery) (outputs : ModelOutputs T F)
    (s s' : Stores) : Prop where
  kv : ∀ {key b}, s'.kv.get? key = some b → s.kv.get? key = some b ∨
    ∃ step v, key = kvKey cacheId step ∧ (step, v) ∈ validLatents outputs ∧ Blob io v b
  vectors : ∀ {id point}, s'.vectors.get? id = some point → s.vectors.get? id = some point ∨
    id = cacheId ∧ point.payload = ⟨query.prompt, stepsOf outputs, query.task⟩

variable {io : TorchIO T} {cacheId : String} {query : CacheQuery} {outputs : ModelOutputs T F}

theorem Writes.refl (s : Stores) : Writes io cacheId query outputs s s := ⟨Or.inl, Or.inl⟩

theorem Writes.trans {s s' s'' : Stores} (h : Writes io cacheId query outputs s s')
    (h' : Writes io cacheId query outputs s' s'') : Writes io cacheId query outputs s s'' := by
  refine ⟨fun hb => ?_, fun hp => ?_⟩
  · rcases h'.kv hb with hb | hnew
    · exact h.kv hb
    · exact Or.inr hnew
  · rcases h'.vectors hp with hp | hnew
    · exact h.vectors hp
    · exact Or.inr hnew

/-- A call of a save writes what the save may write. -/
theorem writes_call {c : BackendCall} {effect : Stores → Stores}
    (h : SaveCall io cacheId query outputs c effect) (s : Stores) :
    Writes io cacheId query outputs s (effect s) := by
  cases h with
  | latent h =>
    cases h with
    | serialize step => exact Writes.refl s
    | put hv hb =>
      refine ⟨fun hget => ?_, Or.inl⟩
      rw [Dict.get?_set] at hget
      split at hget
      · rename_i hkey
        cases hget
        exact Or.inr ⟨_, _, hkey, hv, hb⟩
      · exact Or.inl hget
    | remove step =>
      refine ⟨fun hget => Or.inl ?_, Or.inl⟩
      rw [Dict.get?_erase] at hget
      split at hget
      · cases hget
      · exact hget
  | encodeVideo => exact Writes.refl s
  | ensureCollection => exact Writes.refl s
  | upsert vector =>
    refine ⟨Or.inl, fun hget => ?_⟩
    rw [Dict.get?_set] at hget
    split at hget
    · rename_i hid
      cases hget
      exact Or.inr ⟨hid, rfl⟩
    · exact Or.inl hget
  | register h =>
    obtain ⟨r, hr⟩ := h s
    rw [hr]
    exact ⟨Or.inl, Or.inl⟩
  | deletePoint =>
    refine ⟨Or.inl, fun hget => Or.inl ?_⟩
    rw [Dict.get?_erase] at hget
    split at hget
    · cases hget
    · exact hget
  | removeRecord => exact ⟨Or.inl, Or.inl⟩

/-- Whatever a save's calls do, it writes its own latents and its own point only. -/
theorem save_writes (S : VideoBasedApproximateCache T F) (faults : Faults) (cacheId : String)
    (query : CacheQuery) (outputs : ModelOutputs T F) (w : World) :
    Writes S.io cacheId query outputs w.stores (save S faults cacheId query outputs w).2.stores := by
  have hframe : Frame faults (SaveCall S.io cacheId query outputs)
      fun w w' => Writes S.io cacheId query outputs w.stores w'.stores :=
    { refl := fun w => Writes.refl w.stores
      trans := fun h h' => h.trans h'
      call := fun {c _} hc w => call_stores c (Writes.refl w.stores) (writes_call hc w.stores)
      raise := fun w => Writes.refl w.stores }
  exact save_frame hframe (fun w _ _ => Writes.refl w.stores) w

theorem call_id_stores (faults : Faults) (w : World) (c : BackendCall) :
    (w.call faults c id).2.stores = w.stores :=
  call_stores (P := fun s => s = w.stores) c rfl rfl

/-- Reading a latent changes no store. -/
theorem loadPayload_stores (faults : Faults) (cacheId : String) (step : Int) (w : World) :
    (loadPayload (T := T) faults cacheId step w).2.stores = w.stores := by
  unfold loadPayload World.kvGet
  have h := call_id_stores faults w (.kvGet (kvKey cacheId step))
  generalize w.call faults (.kvGet (kvKey cacheId step)) id = x at h
  obtain ⟨exc | _, w1⟩ := x
  · exact h
  · dsimp only
    split
    · exact h
    · exact h

theorem serve_keeps {P : Stores → Prop} (hvec : ∀ s id, P s → P { s with vectors := s.vectors.erase id })
    (hmeta : ∀ s m, P s → P { s with metadata := m }) (query : CacheQuery) (c : Choice) (w : World)
    (h : P w.stores) : P (serve S faults query c w).2.stores := by
  unfold serve
  have h1 : (loadPayload (T := T) faults c.result.cacheId c.skipStep w).2.stores = w.stores :=
    loadPayload_stores faults _ _ w
  generalize loadPayload (T := T) faults c.result.cacheId c.skipStep w = x at h1
  obtain ⟨exc | payload, w1⟩ := x
  · exact h1 ▸ h
  · dsimp only at h1
    rw [← h1] at h
    cases payload with
    | none =>
      unfold lazyEvictStaleEntry
      dsimp only
      generalize hw2 : (if S.hasVectorStore = true then _ else _ : World) = w2
      have h2 : P w2.stores := by
        rw [← hw2]
        split
        · exact call_stores _ h (hvec _ _ h)
        · exact h
      exact call_stores _ h2 (hmeta _ _ h2)
    | some payload =>
      have h2 : P (w1.recordAccess faults c.result.cacheId).2.stores := by
        refine call_stores _ h ?_
        split
        · exact h
        · exact hmeta _ _ h
      dsimp only
      generalize w1.recordAccess faults c.result.cacheId = y at h2
      obtain ⟨exc | _, w2⟩ := y
      · exact h2
      · exact h2

/-- A lookup takes points away and rewrites metadata only. -/
theorem lookup_keeps {P : Stores → Prop} (hvec : ∀ s id, P s → P { s with vectors := s.vectors.erase id })
    (hmeta : ∀ s m, P s → P { s with metadata := m }) (search : List Rat → Nat → List Candidate)
    (query : CacheQuery) (w : World) (h : P w.stores) : P (lookup S faults search query w).2.stores := by
  unfold lookup
  split
  · exact h
  · split
    · exact h
    · split
      · exact h
      · have h1 := call_id_stores faults w .encodePrompt
        generalize w.call faults .encodePrompt id = x at h1
        obtain ⟨exc | _, w1⟩ := x
        · exact h1 ▸ h
        · dsimp only at h1
          dsimp only
          split
          · exact h1 ▸ h
          · have h2 := call_id_stores faults w1 .vectorSearch
            rw [h1] at h2
            generalize w1.call faults .vectorSearch id = x at h2
            obtain ⟨exc | _, w2⟩ := x
            · exact h2 ▸ h
            · dsimp only at h2 ⊢
              split
              · exact h2 ▸ h
              · exact h2 ▸ h
              · exact serve_keeps hvec hmeta query _ w2 (h2 ▸ h)

/-- A positive step is one of the saved ones. -/
theorem determineSkipStep_mem {cfg : CacheConfig} {savedSteps : List Int} {score : Option Score}
    (h : ¬ cfg.determineSkipStep savedSteps score ≤ 0) : cfg.determineSkipStep savedSteps score ∈ savedSteps := by
  rcases determineSkipStep_eq cfg score savedSteps with ⟨k, hk, he⟩ | ⟨_, he⟩
  · rw [he]
    exact hk.1.1
  · rw [he] at h
    exact absurd (le_refl _) h

theorem chooseBySimilarity_mem {cfg : CacheConfig} {first : Candidate} {ch : Choice}
    (h : chooseBySimilarity cfg first = .ok (some ch)) :
    ch.result = first ∧ ch.skipStep ∈ first.savedSteps := by
  unfold chooseBySimilarity at h
  split at h
  · cases h
  · split at h
    · cases h
    · dsimp only at h
      split at h
      · cases h
      · rename_i hstep
        cases h
        exact ⟨rfl, determineSkipStep_mem hstep⟩

theorem chooseByRerank_mem {cfg : CacheConfig} {results : List Candidate} {scores : List Score} {ch : Choice}
    (h : chooseByRerank cfg results scores = some ch) :
    ch.result ∈ results ∧ ch.skipStep ∈ ch.result.savedSteps := by
  unfold chooseByRerank at h
  split at h
  · cases h
  · split at h
    · cases h
    · rename_i first rest hzip
      have hbest := foldl_keepMax_mem Prod.snd first rest
      rw [← hzip] at hbest
      dsimp only at h
      generalize rest.foldl (keepMax Prod.snd) first = best at hbest h
      split at h
      · cases h
      · split at h
        · cases h
        · rename_i hstep
          cases h
          exact ⟨(List.of_mem_zip hbest).1, determineSkipStep_mem hstep⟩

/-- What is chosen is a candidate and a step of its list. -/
theorem choose_mem {prompt : String} {results : List Candidate} {ch : Choice}
    (h : choose S prompt results = .ok (some ch)) :
    ch.result ∈ results ∧ ch.skipStep ∈ ch.result.savedSteps := by
  unfold choose at h
  split at h
  · cases h
  · have hsim : ∀ {first rest}, chooseBySimilarity S.config first = .ok (some ch) →
        ch.result ∈ first :: rest ∧ ch.skipStep ∈ ch.result.savedSteps := by
      intro first rest h
      obtain ⟨hfirst, hstep⟩ := chooseBySimilarity_mem h
      rw [hfirst]
      exact ⟨List.mem_cons_self, hstep⟩
    split at h
    · split at h
      · cases h
      · exact hsim h
      · exact chooseByRerank_mem (Except.ok.inj h)
    · exact hsim h

/-- A payload is served with the bytes that the KV store has. -/
theorem loadPayload_some {cacheId : String} {step : Int} {payload : VideoApproxPayload T} {w1 : World}
    (h : loadPayload faults cacheId step w = (.ok (some payload), w1)) :
    ∃ data, w.stores.kv.get? (kvKey cacheId step) = some data ∧
      payload = .fromKvLoader cacheId (fun _ => some data) (.single step) := by
  unfold loadPayload World.kvGet at h
  have hstores := call_id_stores faults w (.kvGet (kvKey cacheId step))
  generalize w.call faults (.kvGet (kvKey cacheId step)) id = x at h hstores
  obtain ⟨exc | _, w2⟩ := x
  · cases h
  · dsimp only at h hstores
    rw [hstores] at h
    cases hget : w.stores.kv.get? (kvKey cacheId step) with
    | none =>
      rw [hget] at h
      cases h
    | some data =>
      rw [hget] at h
      cases h
      exact ⟨data, rfl, rfl⟩

/-- The hit on a choice whose step is stored as `data`. -/
def servedResult (c : Choice) (data : Bytes) : LookupResult T :=
  .hitSkipStep (.fromKvLoader c.result.cacheId (fun _ => some data) (.single c.skipStep)) c.skipStep
    c.result.cacheId c.hitScore c.result.similarity c.result.prompt

theorem serve_hit {query : CacheQuery} {c : Choice} {r : LookupResult T}
    (h : (serve S faults query c w).1 = .ok r) (hhit : r.hit = true) :
    ∃ data, w.stores.kv.get? (kvKey c.result.cacheId c.skipStep) = some data ∧
      r = servedResult c data := by
  unfold serve at h
  cases hload : loadPayload (T := T) faults c.result.cacheId c.skipStep w with
  | mk res w1 =>
    rw [hload] at h
    cases res with
    | error exc => cases h
    | ok payload =>
      cases payload with
      | none =>
        cases h
        cases hhit
      | some payload =>
        obtain ⟨data, hdata, rfl⟩ := loadPayload_some hload
        dsimp only at h
        generalize w1.recordAccess faults c.result.cacheId = y at h
        obtain ⟨exc | _, w2⟩ := y
        · cases h
        · exact ⟨data, hdata, (Except.ok.inj h).symm⟩

/-- However its calls end, a lookup that hits has chosen a candidate and found its step stored. -/
theorem lookup_hit {search : List Rat → Nat → List Candidate} {query : CacheQuery} {r : LookupResult T}
    (h : (lookup S faults search query w).1 = .ok r) (hhit : r.hit = true) :
    ∃ queryVec ch data, choose S query.prompt
        (normalizeSearchResults (vectorSearch search queryVec S.config.topK)) = .ok (some ch) ∧
      w.stores.kv.get? (kvKey ch.result.cacheId ch.skipStep) = some data ∧
      r = servedResult ch data := by
  have hmiss : ∀ w' : World, ((.ok .miss, w') : Except Failure (LookupResult T) × World).1 = .ok r → False := by
    intro w' h
    cases h
    cases hhit
  unfold lookup at h
  split at h
  · exact (hmiss w h).elim
  · split at h
    · exact (hmiss w h).elim
    · split at h
      · exact (hmiss w h).elim
      · rename_i encode _
        have h1 := call_id_stores faults w .encodePrompt
        generalize w.call faults .encodePrompt id = x at h h1
        obtain ⟨exc | _, w1⟩ := x
        · cases h
        · dsimp only at h h1
          split at h
          · exact (hmiss w1 h).elim
          · have h2 := call_id_stores faults w1 .vectorSearch
            generalize w1.call faults .vectorSearch id = x at h h2
            obtain ⟨exc | _, w2⟩ := x
            · cases h
            · dsimp only at h h2
              split at h
              · cases h
              · exact (hmiss w2 h).elim
              · rename_i ch hchoose
                obtain ⟨data, hdata, hr⟩ := serve_hit h hhit
                rw [h2, h1] at hdata
                exact ⟨_, ch, data, hchoose, hdata, hr⟩

theorem applyResume_served (io : TorchIO T) (defaults : List Int) (c : Choice) {data : Bytes} {t : T}
    (h : io.load data = .ok t) :
    applyResume io defaults (servedResult c data) = .ok ⟨true, c.skipStep, some t, [c.skipStep]⟩ := by
  have hget : (VideoApproxPayload.fromKvLoader (T := T) c.result.cacheId (fun _ => some data)
      (.single c.skipStep)).stepToLatents.get? c.skipStep = some (.bytes data) := Dict.get?_set_self ∅ _ _
  have hlatent : extractLatent io (servedResult c data) c.skipStep = .ok (some t) := by
    simp only [extractLatent, servedResult, LookupResult.hitSkipStep, VideoApproxPayload.getLatentAtStep, hget, h]
  have hsteps : extractSavedSteps defaults (servedResult c data : LookupResult T) = [c.skipStep] := rfl
  unfold applyResume
  dsimp only [servedResult, LookupResult.hitSkipStep] at hlatent hsteps ⊢
  simp only [hlatent, hsteps, Bool.not_true, Bool.false_eq_true, if_false]

def FreshIds (es : List (Event T F)) : Prop :=
  ∀ past cacheId query outputs rest, es = past ++ .save cacheId query outputs :: rest → Fresh past cacheId

def FromUpserts (S : VideoBasedApproximateCache T F) (faults : Faults) (es : List (Event T F))
    (answers : List Candidate) : Prop :=
  ∀ r ∈ answers, ∃ past rest, es = past ++ rest ∧ FromStore (World.run S faults {} past).stores [r]

/-- Everything stored has been given to a save. -/
structure Given (S : VideoBasedApproximateCache T F) (es : List (Event T F)) (s : Stores) : Prop where
  kv : ∀ {key b}, s.kv.get? key = some b → ∃ cacheId query outputs step v,
    .save cacheId query outputs ∈ es ∧ key = kvKey cacheId step ∧ (step, v) ∈ validLatents outputs ∧
      Blob S.io v b
  vectors : ∀ {id point}, s.vectors.get? id = some point → ∃ query outputs,
    .save id query outputs ∈ es ∧ point.payload = ⟨query.prompt, stepsOf outputs, query.task⟩

theorem run_append (w : World) (es : List (Event T F)) (e : Event T F) :
    World.run S faults w (es ++ [e]) = (World.run S faults w es).step S faults e := by
  simp [World.run]

/-- One event keeps it. -/
theorem Given.step {es : List (Event T F)} (h : Given S es w.stores) (e : Event T F) :
    Given S (es ++ [e]) (w.step S faults e).stores := by
  have hold : Given S (es ++ [e]) w.stores := by
    refine ⟨fun hb => ?_, fun hp => ?_⟩
    · obtain ⟨cacheId, query, outputs, step, v, hmem, hrest⟩ := h.kv hb
      exact ⟨cacheId, query, outputs, step, v, List.mem_append_left _ hmem, hrest⟩
    · obtain ⟨query, outputs, hmem, hpayload⟩ := h.vectors hp
      exact ⟨query, outputs, List.mem_append_left _ hmem, hpayload⟩
  cases e with
  | save cacheId query outputs =>
    have hnew : Event.save cacheId query outputs ∈ es ++ [.save cacheId query outputs] := by simp
    have hw := save_writes S faults cacheId query outputs w
    refine ⟨fun hb => ?_, fun hp => ?_⟩
    · rcases hw.kv hb with hb | ⟨step, v, hkey, hv, hblob⟩
      · exact hold.kv hb
      · exact ⟨cacheId, query, outputs, step, v, hnew, hkey, hv, hblob⟩
    · rcases hw.vectors hp with hp | ⟨rfl, hpayload⟩
      · exact hold.vectors hp
      · exact ⟨query, outputs, hnew, hpayload⟩
  | lookup query answers =>
    refine lookup_keeps (P := Given S _) (fun s id hs => ⟨hs.kv, fun hp => ?_⟩)
      (fun s m hs => ⟨hs.kv, hs.vectors⟩) _ query w hold
    rw [Dict.get?_erase] at hp
    split at hp
    · cases hp
    · exact hs.vectors hp
  | lose key =>
    refine ⟨fun hb => ?_, hold.vectors⟩
    change (w.stores.kv.erase key).get? _ = some _ at hb
    rw [Dict.get?_erase] at hb
    split at hb
    · cases hb
    · exact hold.kv hb

/-- Whatever a store has, some save of the history gave it. -/
theorem given_run (S : VideoBasedApproximateCache T F) (faults : Faults) (es : List (Event T F)) :
    Given S es (World.run S faults {} es).stores := by
  induction es using List.reverseRecOn with
  | nil => exact ⟨fun hb => (nomatch hb), fun hp => nomatch hp⟩
  | append_singleton es e ih =>
    rw [run_append]
    exact ih.step e

/-- An id is saved once. -/
theorem FreshIds.unique {es : List (Event T F)} (h : FreshIds es) {query' : CacheQuery}
    {outputs' : ModelOutputs T F} (hmem : .save cacheId query outputs ∈ es)
    (hmem' : .save cacheId query' outputs' ∈ es) : query' = query ∧ outputs' = outputs := by
  obtain ⟨past, rest, he⟩ := List.append_of_mem hmem
  obtain ⟨past', rest', he'⟩ := List.append_of_mem hmem'
  have hfresh := h past cacheId query outputs rest he
  have hfresh' := h past' cacheId query' outputs' rest' he'
  -- the one that comes later is not fresh
  rcases List.append_eq_append_iff.mp (he.symm.trans he') with ⟨l, hpast, htail⟩ | ⟨l, hpast, htail⟩
  · cases l with
    | nil =>
      cases htail
      exact ⟨rfl, rfl⟩
    | cons e l =>
      cases htail
      exact absurd (by simp [hpast]) (hfresh'.2 query outputs)
  · cases l with
    | nil =>
      cases htail
      exact ⟨rfl, rfl⟩
    | cons e l =>
      cases htail
      exact absurd (by simp [hpast]) (hfresh.2 query' outputs')

theorem normalizeCacheId_hex {cacheId : String} (h : '-' ∉ cacheId.toList) : normalizeCacheId cacheId = cacheId := by
  have hkeep : cacheId.toList.filter (· ≠ '-') = cacheId.toList := by
    rw [List.filter_eq_self]
    intro c hc
    rw [decide_eq_true_eq]
    rintro rfl
    exact h hc
  rw [normalizeCacheId, hkeep, String.ofList_toList]

theorem FreshIds.normalize {es : List (Event T F)} (h : FreshIds es)
    (hmem : .save cacheId query outputs ∈ es) : normalizeCacheId cacheId = cacheId := by
  obtain ⟨past, rest, he⟩ := List.append_of_mem hmem
  exact normalizeCacheId_hex (h past cacheId query outputs rest he).1

theorem mem_validLatents {step : Int} {v : LatentValue T} (h : (step, v) ∈ validLatents outputs) :
    outputs.latentStatesDict.get? step = some v := by
  obtain ⟨n, _, hn⟩ := List.mem_filterMap.mp h
  split at hn
  · cases hn
  · cases hn
  · rename_i hget
    cases hn
    exact hget

def Holds (io : TorchIO T) (v : LatentValue T) (t : T) : Prop :=
  v = .tensor t ∨ ∃ b, v = .bytes b ∧ io.load b = .ok t

theorem blob_load {v : LatentValue T} {b : Bytes} {t : T} (hio : io.Lawful) (h : Blob io v b)
    (ht : Holds io v t) : io.load b = .ok t := by
  rcases h with ⟨t', rfl, rfl⟩ | rfl
  · rcases ht with ht | ⟨b, hb, _⟩
    · cases ht
      exact hio t
    · cases hb
  · rcases ht with ht | ⟨b', hb, ht⟩
    · cases ht
    · cases hb
      exact ht

/-- The hit is on what the only save with its id was given. -/
structure Donated (S : VideoBasedApproximateCache T F) (es : List (Event T F)) (s : Stores)
    (r : LookupResult T) (c : String) (k : Int) (query : CacheQuery) (outputs : ModelOutputs T F) :
    Prop where
  matched : r.matchedCacheId = some c
  hint : r.resumeHint = some (.skipStep k)
  saved : .save c query outputs ∈ es
  only : ∀ query' outputs', .save c query' outputs' ∈ es → query' = query ∧ outputs' = outputs
  recorded : k ∈ stepsOf outputs
  prompt : r.cachedPrompt = some query.prompt
  latent : ∃ v b, outputs.latentStatesDict.get? k = some v ∧ s.kv.get? (kvKey c k) = some b ∧
    Blob S.io v b ∧ ∀ t, Holds S.io v t → ∀ defaults, applyResume S.io defaults r = .ok ⟨true, k, some t, [k]⟩

/-- Whatever raised, failed or was lost before, a hit hands back the latent of its step that the save
with the matched id was given. -/
theorem hit_returns_donor_latent (S : VideoBasedApproximateCache T F) (hio : S.io.Lawful) (faults : Faults)
    (es : List (Event T F)) (hfresh : FreshIds es) (query : CacheQuery) (answers : List Candidate)
    (hanswers : FromUpserts S faults es answers) (r : LookupResult T)
    (h : (lookup S faults (fun _ _ => answers) query (World.run S faults {} es)).1 = .ok r)
    (hhit : r.hit = true) :
    ∃ c k query' outputs, Donated S es (World.run S faults {} es).stores r c k query' outputs := by
  obtain ⟨queryVec, ch, data, hchoose, hdata, rfl⟩ := lookup_hit h hhit
  obtain ⟨hmem, hstep⟩ := choose_mem hchoose
  obtain ⟨cand, hcand, hresult⟩ := mem_normalized hmem
  have hcand : cand ∈ answers := (List.mem_insertionSort _).mp (List.mem_of_mem_take hcand)
  -- the candidate is the point of a save
  obtain ⟨past, rest, hes, hstore⟩ := hanswers cand hcand
  obtain ⟨id, point, hpoint, hid, hprompt, hsteps, _⟩ := hstore cand (List.mem_singleton_self cand)
  obtain ⟨query', outputs, hsave, hpayload⟩ := (given_run S faults past).vectors hpoint
  have hsave : Event.save id query' outputs ∈ es := by
    rw [hes]
    exact List.mem_append_left _ hsave
  rw [hfresh.normalize hsave] at hid
  have hc : ch.result.cacheId = id := by rw [hresult]; exact hid
  have hp : ch.result.prompt = query'.prompt := by rw [hresult]; exact hprompt.trans (by rw [hpayload])
  have hs : ch.result.savedSteps = stepsOf outputs := by rw [hresult]; exact hsteps.trans (by rw [hpayload])
  -- and the stored latent is of the same save
  rw [hc] at hdata
  obtain ⟨id', query'', outputs', step, v, hsave', hkey, hv, hblob⟩ := (given_run S faults es).kv hdata
  obtain ⟨rfl, hk⟩ := kvKey_inj hkey
  obtain ⟨rfl, rfl⟩ := hfresh.unique hsave hsave'
  refine ⟨id, ch.skipStep, query'', outputs', ?_⟩
  exact {
    matched := congrArg some hc
    hint := rfl
    saved := hsave
    only := fun _ _ => hfresh.unique hsave
    recorded := hs ▸ hstep
    prompt := congrArg some hp
    latent := ⟨v, data, by rw [hk]; exact mem_validLatents hv, hdata, hblob,
      fun t ht defaults => applyResume_served S.io defaults ch (blob_load hio hblob ht)⟩ }

/-- A save whose `register_cache` raises and whose rollback of the point does too: the point stays. -/
def unrolledBack : Faults
  | .registerCache _, _ => .raises ⟨"RuntimeError", "disk full"⟩
  | .vectorDelete _, _ => .raises ⟨"RuntimeError", "unreachable"⟩
  | .kvRemove _, _ => .raises ⟨"RuntimeError", "unreachable"⟩
  | _, _ => .returns

def demoHistory : List (Event Bytes Unit) := [.save "aa" ⟨"a cat", "t2v"⟩ demoOutputs, .lose (kvKey "aa" 10)]

theorem hit_returns_donor_latent_after_failed_save :
    let S := demoCache { rerankEnabled := false }
    let answers : List Candidate := [⟨"a-a", (9 / 10 : Rat), "a cat", [5, 10], ⟨"a cat", [5, 10], "t2v"⟩⟩]
    ∃ r, (lookup S unrolledBack (fun _ _ => answers) ⟨"a dog", "t2v"⟩ (World.run S unrolledBack {} demoHistory)).1
        = .ok r ∧ r.hit = true ∧ ∃ c k query' outputs,
      Donated S demoHistory (World.run S unrolledBack {} demoHistory).stores r c k query' outputs := by
  intro S answers
  have hfresh : FreshIds demoHistory := by
    intro past cacheId query outputs rest he
    match past, he with
    | [], he =>
      cases he
      exact ⟨by decide, fun _ _ h => nomatch h⟩
    | [_], he => cases he
    | _ :: _ :: [], he => cases he
  have hanswers : FromUpserts S unrolledBack demoHistory answers := by
    intro r hr
    obtain rfl := List.mem_singleton.mp hr
    refine ⟨demoHistory, [], rfl, ?_⟩
    intro r hr
    obtain rfl := List.mem_singleton.mp hr
    refine ⟨"aa", ⟨[1], ⟨"a cat", [5, 10], "t2v"⟩⟩, by decide +kernel, by decide +kernel, rfl, rfl, rfl⟩
  have hres : ((lookup S unrolledBack (fun _ _ => answers) ⟨"a dog", "t2v"⟩
      (World.run S unrolledBack {} demoHistory)).1.toOption.map LookupResult.hit) = some true := by
    decide +kernel
  cases hlookup : (lookup S unrolledBack (fun _ _ => answers) ⟨"a dog", "t2v"⟩
      (World.run S unrolledBack {} demoHistory)).1 with
  | error exc =>
    rw [hlookup] at hres
    cases hres
  | ok r =>
    rw [hlookup] at hres
    have hhit : r.hit = true := Option.some.inj hres
    exact ⟨r, rfl, hhit, hit_returns_donor_latent S (fun _ => rfl) unrolledBack demoHistory hfresh
      ⟨"a dog", "t2v"⟩ answers hanswers r hlookup hhit⟩

end CacheSeek.Proofs.DonorHistory
