import CacheSeek.Proofs.MetadataFiles
import Mathlib.Data.List.Induction

namespace CacheSeek.Proofs.MetadataCoherence
open CacheSeek.Lib CacheSeek.Backends.Metadata LocalCacheMetadataManager CacheSeek.Proofs.MetadataFiles

/-- An id has statistics just when it is in one bucket: that of the recorded cache
type, with the recorded prompt and steps. -/
structure Coherent (s : LocalCacheMetadataManager) : Prop where
  listed : ∀ cacheId m, s.stats.get? cacheId = some m → ∃ entry,
    (bucket s.index m.cacheType).get? cacheId = some entry ∧ entry.prompt = m.prompt ∧ entry.savedSteps = m.savedSteps
  once : ∀ cacheId m, s.stats.get? cacheId = some m → ∀ t, t ≠ m.cacheType →
    (bucket s.index t).get? cacheId = none
  known : ∀ cacheId, s.stats.get? cacheId = none → ∀ t, (bucket s.index t).get? cacheId = none

/-- An id that is known is registered under its own cache type. -/
def SameType (s : LocalCacheMetadataManager) : MetadataOp → Prop
  | .registerCache _ cacheId _ _ _ _ cacheType =>
    ∀ m, s.stats.get? cacheId = some m → m.cacheType = normalizeCacheType cacheType
  | _ => True

theorem get?_bucket_register (index : PromptIndex) (t t' cacheId id : String) (entry : IndexEntry) :
    (bucket (index.set t ((bucket index t).set cacheId entry)) t').get? id =
      if t' = t ∧ id = cacheId then some entry else (bucket index t').get? id := by
  rw [bucket_set]
  by_cases ht : t' = t
  · subst t'
    rw [if_pos rfl, Dict.get?_set]
    by_cases hid : id = cacheId <;> simp [hid]
  · rw [if_neg ht, if_neg (fun h => ht h.1)]

theorem get?_bucket_dropEntry_ne (index : PromptIndex) {cacheId id : String} (hne : id ≠ cacheId)
    (cacheType : Option String) (t : String) :
    (bucket (dropEntry index cacheId cacheType) t).get? id = (bucket index t).get? id := by
  have herase : ((bucket index t).erase cacheId).get? id = (bucket index t).get? id := by
    rw [Dict.get?_erase, if_neg hne]
  have hunknown : (bucket (dropEntry index cacheId none) t).get? id = (bucket index t).get? id := by
    rw [bucket_dropEntry_unknown, herase]
  cases cacheType with
  | none => exact hunknown
  | some t' =>
    by_cases ht : t' = ""
    · subst t'
      exact hunknown
    · rw [bucket_dropEntry_known _ _ _ _ ht]
      split
      · exact herase
      · rfl

section Step
variable {s s' : LocalCacheMetadataManager}

theorem Coherent.registerCache (h : Coherent s) {now : FloatRepr} {cacheId prompt : String}
    {savedSteps : List Int} {sizeMb : FloatRepr} {numFrames : Int} {cacheType : Option String}
    (hsame : SameType s (.registerCache now cacheId prompt savedSteps sizeMb numFrames cacheType))
    (hindex : s'.index = stepIndex s (.registerCache now cacheId prompt savedSteps sizeMb numFrames cacheType))
    (hstats : s'.stats = stepStats s.stats (.registerCache now cacheId prompt savedSteps sizeMb numFrames cacheType)) :
    Coherent s' := by
  simp only [SameType] at hsame
  simp only [stepIndex] at hindex
  simp only [stepStats] at hstats
  generalize normalizeCacheType cacheType = t₀ at hsame hindex hstats
  have hbucket : ∀ t id, (bucket s'.index t).get? id =
      if t = t₀ ∧ id = cacheId then
        some ⟨cacheId, prompt, sortedSet savedSteps, t₀⟩
      else (bucket s.index t).get? id := by
    intro t id
    rw [hindex]
    exact get?_bucket_register _ _ _ _ _ _
  have hother : ∀ t, t ≠ t₀ → (bucket s.index t).get? cacheId = none := by
    intro t hne
    cases hm : s.stats.get? cacheId with
    | none => exact h.known cacheId hm t
    | some m => exact h.once cacheId m hm t (by rw [hsame m hm]; exact hne)
  refine ⟨fun id m hm => ?_, fun id m hm t hne => ?_, fun id hm t => ?_⟩
  all_goals rw [hstats, Dict.get?_set] at hm
  · split at hm
    · rename_i hid
      cases hm
      exact ⟨_, by rw [hbucket, if_pos ⟨rfl, hid⟩], rfl, rfl⟩
    · rename_i hid
      obtain ⟨entry, hentry, hrest⟩ := h.listed id m hm
      exact ⟨entry, by rw [hbucket, if_neg (fun hc => hid hc.2), hentry], hrest⟩
  · split at hm
    · rename_i hid
      cases hm
      rw [hbucket, if_neg (fun hc => hne hc.1), hid]
      exact hother t hne
    · rename_i hid
      rw [hbucket, if_neg (fun hc => hid hc.2)]
      exact h.once id m hm t hne
  · split at hm
    · cases hm
    · rename_i hid
      rw [hbucket, if_neg (fun hc => hid hc.2)]
      exact h.known id hm t

/-- The type recorded last is the only one under which the cache is filed. -/
theorem Coherent.removeCache (h : Coherent s) (hfiled : Filed s.index) {cacheId : String}
    (hindex : s'.index = stepIndex s (.removeCache cacheId)) (hstats : s'.stats = s.stats.erase cacheId) :
    Coherent s' := by
  have hother : ∀ id, id ≠ cacheId → ∀ t, (bucket s'.index t).get? id = (bucket s.index t).get? id := by
    intro id hne t
    rw [hindex]
    exact get?_bucket_dropEntry_ne _ hne _ t
  have hgone : ∀ t, (bucket s'.index t).get? cacheId = none := by
    intro t
    rw [hindex, stepIndex]
    cases hm : s.stats.get? cacheId with
    | none =>
      rw [Option.map_none, bucket_dropEntry_unknown, Dict.get?_erase, if_pos rfl]
    | some m =>
      obtain ⟨entry, hentry, -, -⟩ := h.listed cacheId m hm
      have htype : m.cacheType ≠ "" := by
        cases hb : s.index.get? m.cacheType with
        | none =>
          rw [bucket, hb] at hentry
          cases hentry
        | some b => exact (hfiled _ b hb).1
      rw [Option.map_some, bucket_dropEntry_known _ _ _ _ htype]
      split
      · rw [Dict.get?_erase, if_pos rfl]
      · rename_i hne
        exact h.once cacheId m hm t hne
  refine ⟨fun id m hm => ?_, fun id m hm t hne => ?_, fun id hm t => ?_⟩
  all_goals rw [hstats, Dict.get?_erase] at hm
  · split at hm
    · cases hm
    · rename_i hid
      obtain ⟨entry, hentry, hrest⟩ := h.listed id m hm
      exact ⟨entry, by rw [hother id hid, hentry], hrest⟩
  · split at hm
    · cases hm
    · rename_i hid
      rw [hother id hid]
      exact h.once id m hm t hne
  · by_cases hid : id = cacheId
    · rw [hid]
      exact hgone t
    · rw [if_neg hid] at hm
      rw [hother id hid]
      exact h.known id hm t

/-- Only counts and times change, and empty buckets may go. -/
theorem Coherent.same (h : Coherent s) (hbucket : ∀ t, bucket s'.index t = bucket s.index t)
    (hstats : ∀ id, (s'.stats.get? id = none ↔ s.stats.get? id = none) ∧
      ∀ m', s'.stats.get? id = some m' → ∃ m, s.stats.get? id = some m ∧
        m'.prompt = m.prompt ∧ m'.savedSteps = m.savedSteps ∧ m'.cacheType = m.cacheType) : Coherent s' := by
  refine ⟨fun id m' hm' => ?_, fun id m' hm' t hne => ?_, fun id hm t => ?_⟩
  · obtain ⟨m, hm, hprompt, hsteps, htype⟩ := (hstats id).2 m' hm'
    obtain ⟨entry, hentry, hp, hs⟩ := h.listed id m hm
    exact ⟨entry, by rw [hbucket, htype, hentry], hp.trans hprompt.symm, hs.trans hsteps.symm⟩
  · obtain ⟨m, hm, -, -, htype⟩ := (hstats id).2 m' hm'
    rw [hbucket]
    exact h.once id m hm t (by rw [← htype]; exact hne)
  · rw [hbucket]
    exact h.known id ((hstats id).1.mp hm) t

theorem Coherent.recordAccess (h : Coherent s) {now : FloatRepr} {cacheId : String}
    (hindex : s'.index = s.index) (hstats : s'.stats = stepStats s.stats (.recordAccess now cacheId)) :
    Coherent s' := by
  refine h.same (fun t => by rw [hindex]) fun id => ?_
  rw [hstats, stepStats]
  cases hm : s.stats.get? (normalizeCacheId cacheId) with
  | none => exact ⟨Iff.rfl, fun m' hm' => ⟨m', hm', rfl, rfl, rfl⟩⟩
  | some m =>
    simp only [Dict.get?_set]
    split
    · rename_i hid
      subst id
      refine ⟨by simp [hm], fun m' hm' => ⟨m, hm, ?_⟩⟩
      cases hm'
      exact ⟨rfl, rfl, rfl⟩
    · exact ⟨Iff.rfl, fun m' hm' => ⟨m', hm', rfl, rfl, rfl⟩⟩

theorem Coherent.step (h : Coherent s) (hfiled : Filed s.index) {op : MetadataOp} (hsame : SameType s op)
    (hindex : s'.index = stepIndex s op) (hstats : s'.stats = stepStats s.stats op) : Coherent s' := by
  have hkeep : (∀ t, bucket s'.index t = bucket s.index t) → s'.stats = s.stats → Coherent s' := by
    intro hbucket heq
    refine h.same hbucket fun id => ?_
    rw [heq]
    exact ⟨Iff.rfl, fun m hm => ⟨m, hm, rfl, rfl, rfl⟩⟩
  cases op with
  | registerCache now cacheId prompt savedSteps sizeMb numFrames cacheType =>
    exact h.registerCache hsame hindex hstats
  | removeCache cacheId => exact h.removeCache hfiled hindex hstats
  | recordAccess now cacheId => exact h.recordAccess hindex hstats
  | flush => exact hkeep (fun t => by rw [hindex]; rfl) hstats
  | restart flag => exact hkeep (fun t => by rw [hindex]; exact bucket_pruned _ t) hstats

/-- Under another cache type the old entry stays behind. -/
theorem not_coherent_of_other_type (h : Coherent s) {op : MetadataOp} (hother : ¬ SameType s op)
    (hindex : s'.index = stepIndex s op) (hstats : s'.stats = stepStats s.stats op) : ¬ Coherent s' := by
  cases op with
  | registerCache now cacheId prompt savedSteps sizeMb numFrames cacheType =>
    simp only [SameType, not_forall] at hother
    simp only [stepIndex] at hindex
    simp only [stepStats] at hstats
    generalize normalizeCacheType cacheType = t₀ at hother hindex hstats
    obtain ⟨m, hm, hne⟩ := hother
    obtain ⟨entry, hentry, -, -⟩ := h.listed cacheId m hm
    intro h'
    have hnone := h'.once cacheId _ (by rw [hstats, Dict.get?_set_self]) m.cacheType hne
    rw [hindex, get?_bucket_register, if_neg (fun hc => hne hc.1), hentry] at hnone
    cases hnone
  | removeCache cacheId => exact absurd trivial hother
  | recordAccess now cacheId => exact absurd trivial hother
  | flush => exact absurd trivial hother
  | restart flag => exact absurd trivial hother

end Step

def registers (cacheId : String) : MetadataOp → Prop
  | .registerCache _ id _ _ _ _ _ => id = cacheId
  | _ => False

/-- No lookup finds a cache that was removed and not registered since. -/
def RemovedGone (s : LocalCacheMetadataManager) (ops : List MetadataOp) : Prop :=
  ∀ before cacheId after, ops = before ++ .removeCache cacheId :: after → (∀ op ∈ after, ¬ registers cacheId op) →
    ∀ prompt cacheType entry, s.lookupPrompt prompt cacheType = some entry → entry.cacheId ≠ cacheId

/-- A scan answers with an entry of the bucket. -/
theorem scan_listed {prompt : String} {mapping : Dict String IndexEntry} {entry : IndexEntry}
    (h : scan prompt mapping = some entry) : ∃ id, mapping.get? id = some entry :=
  Dict.mem_values.mp (List.mem_of_find?_eq_some h)

theorem lookupPrompt_listed {s : LocalCacheMetadataManager} {prompt : String} {cacheType : Option String}
    {entry : IndexEntry} (h : s.lookupPrompt prompt cacheType = some entry) :
    ∃ t id, (bucket s.index t).get? id = some entry := by
  unfold lookupPrompt at h
  split at h
  · exact ⟨_, scan_listed h⟩
  · split at h
    · rename_i hdefault
      cases h
      exact ⟨_, scan_listed hdefault⟩
    · obtain ⟨b, hb, hscan⟩ := List.exists_of_findSome?_eq_some h
      obtain ⟨t, ht⟩ := Dict.mem_values.mp hb
      obtain ⟨id, hid⟩ := scan_listed hscan
      exact ⟨t, id, by rw [bucket, ht]; exact hid⟩

theorem stepStats_unknown {stats : Dict String CacheMeta} {cacheId : String} (h : stats.get? cacheId = none)
    {op : MetadataOp} (hop : ¬ registers cacheId op) : (stepStats stats op).get? cacheId = none := by
  cases op with
  | registerCache now id prompt savedSteps sizeMb numFrames cacheType =>
    rw [stepStats, Dict.get?_set, if_neg (fun heq => hop heq.symm)]
    exact h
  | removeCache id =>
    rw [stepStats, Dict.get?_erase]
    split
    · rfl
    · exact h
  | recordAccess now id =>
    rw [stepStats]
    cases hm : stats.get? (normalizeCacheId id) with
    | none => exact h
    | some m =>
      dsimp only
      rw [Dict.get?_set, if_neg]
      · exact h
      · intro heq
        rw [← heq, h] at hm
        cases hm
  | flush => exact h
  | restart flag => exact h

/-- A cache that is not registered again stays unknown. -/
theorem run_unknown {s s' : LocalCacheMetadataManager} (hstored : Stored s) {cacheId : String}
    (h : s.stats.get? cacheId = none) {ops : List MetadataOp} (hops : ∀ op ∈ ops, ¬ registers cacheId op)
    (hrun : s.run ops = .ok s') : s'.stats.get? cacheId = none := by
  induction ops generalizing s with
  | nil =>
    cases hrun
    exact h
  | cons op ops ih =>
    obtain ⟨s₁, hstep, hstored₁, -, hstats⟩ := hstored.step op
    simp only [LocalCacheMetadataManager.run, hstep] at hrun
    refine ih hstored₁ ?_ (fun op' hmem => hops op' (List.mem_cons_of_mem _ hmem)) hrun
    rw [hstats]
    exact stepStats_unknown h (hops op List.mem_cons_self)

/-- After its removal a cache is unknown until it is registered again. -/
theorem removed_unknown {flag : Bool} {s : LocalCacheMetadataManager} {before after : List MetadataOp}
    {cacheId : String} (hrun : history flag (before ++ .removeCache cacheId :: after) = .ok s)
    (hafter : ∀ op ∈ after, ¬ registers cacheId op) : s.stats.get? cacheId = none := by
  obtain ⟨s₁, hrun₁, hstored₁⟩ := history_ok flag before
  rw [history_append hrun₁] at hrun
  obtain ⟨s₂, hstep, hstored₂, -, hstats⟩ := hstored₁.step (.removeCache cacheId)
  simp only [LocalCacheMetadataManager.run, hstep] at hrun
  refine run_unknown hstored₂ ?_ hafter hrun
  rw [hstats, stepStats, Dict.get?_erase, if_pos rfl]

theorem Coherent.removedGone {flag : Bool} {ops : List MetadataOp} {s : LocalCacheMetadataManager}
    (h : Coherent s) (hfiled : Filed s.index) (hrun : history flag ops = .ok s) : RemovedGone s ops := by
  intro before cacheId after hops hafter prompt cacheType entry hlookup hid
  obtain ⟨t, id, hentry⟩ := lookupPrompt_listed hlookup
  rw [hops] at hrun
  have hnone := h.known cacheId (removed_unknown hrun hafter) t
  rw [← hid, (hfiled.bucket hentry).1, hentry] at hnone
  cases hnone

theorem coherent_new (flag : Bool) : Coherent (newManager flag) :=
  ⟨fun _ _ h => (nomatch h), fun _ _ h => (nomatch h), fun _ _ _ => rfl⟩

/-- Histories in which no cache changes its type, restarts included. -/
theorem coherent_of_same_type (flag : Bool) (ops : List MetadataOp)
    (h : ∀ before op after, ops = before ++ op :: after → ∀ s, history flag before = .ok s → SameType s op) :
    ∃ s, history flag ops = .ok s ∧ Stored s ∧ Coherent s := by
  induction ops using List.reverseRecOn with
  | nil => exact ⟨_, history_nil flag, stored_new flag, coherent_new flag⟩
  | append_singleton ops op ih =>
    obtain ⟨s, hrun, hstored, hcoherent⟩ := ih (fun before op' after heq =>
      h before op' (after ++ [op]) (by rw [heq, List.append_assoc, List.cons_append]))
    obtain ⟨s', hstep, hstored', hindex, hstats⟩ := hstored.step op
    exact ⟨s', (history_snoc hrun op).trans hstep, hstored',
      hcoherent.step hstored.filed (h ops op [] rfl s hrun) hindex hstats⟩

/-- Index and statistics agree all along a history, and removed caches are not found
again, just when no known cache is registered under another cache type. -/
theorem coherent_iff_same_type (flag : Bool) (ops : List MetadataOp) :
    (∀ before after, ops = before ++ after → ∃ s, history flag before = .ok s ∧ Coherent s ∧ RemovedGone s before) ↔
      ∀ before op after, ops = before ++ op :: after → ∀ s, history flag before = .ok s → SameType s op := by
  constructor
  · intro h before op after hops s hrun
    obtain ⟨s₁, hrun₁, hcoherent, -⟩ := h before (op :: after) hops
    cases hrun.symm.trans hrun₁
    obtain ⟨s', hrun', hcoherent', -⟩ := h (before ++ [op]) after (by rw [hops, List.append_assoc]; rfl)
    obtain ⟨s₂, hrun₂, hstored⟩ := history_ok flag before
    cases hrun.symm.trans hrun₂
    obtain ⟨s₃, hstep, -, hindex, hstats⟩ := hstored.step op
    rw [history_snoc hrun op, hstep] at hrun'
    cases hrun'
    by_contra hother
    exact not_coherent_of_other_type hcoherent hother hindex hstats hcoherent'
  · intro h before after hops
    obtain ⟨s, hrun, hstored, hcoherent⟩ := coherent_of_same_type flag before (fun before' op after' heq =>
      h before' op (after' ++ after) (by rw [hops, heq, List.append_assoc, List.cons_append]))
    exact ⟨s, hrun, hcoherent, hcoherent.removedGone hstored.filed hrun⟩

def zeroFloat : FloatRepr := ⟨['0', '.', '0'], by decide⟩

/-- A cache registered under two types outlives its removal in the first of them. -/
theorem removed_cache_found_again : ∃ s,
    history true [.registerCache zeroFloat "a" "a cat" [] zeroFloat 1 (some "image"),
      .registerCache zeroFloat "a" "a cat" [] zeroFloat 1 (some "text"), .removeCache "a"] = .ok s ∧
    s.stats.get? "a" = none ∧ s.lookupPrompt "a cat" (some "image") = some ⟨"a", "a cat", [], "image"⟩ ∧
    ¬ Coherent s := by
  rw [history_eq]
  refine ⟨_, rfl, by decide, by decide, fun h => ?_⟩
  have hnone := h.known "a" (by decide) "image"
  revert hnone
  decide

end CacheSeek.Proofs.MetadataCoherence
