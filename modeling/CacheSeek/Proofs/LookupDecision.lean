import CacheSeek.Approximate.Decision
import CacheSeek.Proofs.SaveAtomic

namespace CacheSeek.Proofs.LookupDecision
open CacheSeek.Lib CacheSeek.Approximate CacheSeek.Prefix
open CacheSeek.Proofs.SaveAtomic (demoCache)

variable {T F : Type} {S : VideoBasedApproximateCache T F} {cfg : CacheConfig}

/-- With the staircase off no score selects a step. -/
theorem selectKByScore_eq (s : Score) (tier : Int) :
    cfg.selectKByScore s = some tier ↔ cfg.staircaseSkipEnabled = true ∧ Tier cfg s tier := by
  have hmem : ∀ K, K ∈ ((cfg.skipStepTauTable.filter fun e => (e.2 : Score) ≤ s).map Prod.fst) ↔
      ∃ tau : Rat, (K, tau) ∈ cfg.skipStepTauTable ∧ (tau : Score) ≤ s := by
    intro K
    simp [List.mem_map, List.mem_filter]
  have hmax : ((cfg.skipStepTauTable.filter fun e => (e.2 : Score) ≤ s).map Prod.fst).max? = some tier ↔
      Tier cfg s tier := by
    rw [List.max?_eq_some_iff, hmem]
    refine and_congr Iff.rfl ?_
    exact ⟨fun h K hK => h K ((hmem K).mpr hK), fun h K hK => h ((hmem K).mp hK)⟩
  unfold CacheConfig.selectKByScore
  cases hs : cfg.staircaseSkipEnabled with
  | false => simp
  | true =>
    cases ht : cfg.skipStepTauTable with
    | nil =>
      rw [ht] at hmax
      simpa using hmax
    | cons e table =>
      rw [ht] at hmax
      simpa using hmax

/-- The cap of `_determine_skip_step` is what a step has to stay within. -/
theorem allowed_iff (score : Option Score) (k : Int) :
    Allowed cfg cfg.applied score k ↔ 0 < k ∧ k ≤ cfg.stepCap score := by
  unfold Allowed CacheConfig.applied
  refine and_congr Iff.rfl ?_
  cases score with
  | none => exact ⟨fun h => h.1, fun h => ⟨h, fun _ _ hs => nomatch hs⟩⟩
  | some s =>
    cases hsel : cfg.selectKByScore s with
    | none =>
      simp only [CacheConfig.stepCap, hsel]
      refine ⟨fun h => h.1, fun h => ⟨h, ?_⟩⟩
      intro s' tier hs hstair htier
      cases hs
      rw [(selectKByScore_eq s tier).mpr ⟨hstair, htier⟩] at hsel
      cases hsel
    | some tierK =>
      simp only [CacheConfig.stepCap, hsel]
      obtain ⟨hstair, htierK⟩ := (selectKByScore_eq s tierK).mp hsel
      constructor
      · rintro ⟨hk, htier⟩
        exact le_min hk (htier s tierK rfl hstair htierK)
      · intro hk
        refine ⟨le_trans hk (min_le_left _ _), ?_⟩
        intro s' tier hs _ htier
        cases hs
        rw [htier.unique htierK]
        exact le_trans hk (min_le_right _ _)

theorem determineSkipStep_eq (cfg : CacheConfig) (score : Option Score) (savedSteps : List Int) :
    (∃ k, Deepest cfg cfg.applied score savedSteps k ∧ cfg.determineSkipStep savedSteps score = k) ∨
    (¬ ∃ k, Deepest cfg cfg.applied score savedSteps k) ∧ cfg.determineSkipStep savedSteps score = 0 := by
  unfold CacheConfig.determineSkipStep
  split
  · rename_i hempty
    rw [List.isEmpty_iff.mp hempty]
    exact Or.inr ⟨fun ⟨k, hk⟩ => (nomatch hk.1.1), rfl⟩
  · have hmem : ∀ k, k ∈ savedSteps.filter (fun s => 0 < s ∧ s ≤ cfg.stepCap score) ↔
        k ∈ {k | k ∈ savedSteps ∧ Allowed cfg cfg.applied score k} := by
      intro k
      rw [List.mem_filter, decide_eq_true_eq, Set.mem_ofPred_eq, allowed_iff]
    cases hmax : (savedSteps.filter fun s => 0 < s ∧ s ≤ cfg.stepCap score).max? with
    | none =>
      right
      refine ⟨?_, rfl⟩
      rintro ⟨k, hk, _⟩
      rw [← hmem, List.max?_eq_none_iff.mp hmax] at hk
      cases hk
    | some k =>
      obtain ⟨hk, hle⟩ := List.max?_eq_some_iff.mp hmax
      exact Or.inl ⟨k, ⟨(hmem k).mp hk, fun j hj => hle j ((hmem j).mpr hj)⟩, rfl⟩

/-- A step of 0 or less is never skipped to. -/
theorem deepest_pos {l : Limits} {score : Option Score} {savedSteps : List Int} {k : Int}
    (h : Deepest cfg l score savedSteps k) : 0 < k := h.1.2.1

theorem mem_normalized {answers : List Candidate} {c : Candidate}
    (h : c ∈ normalizeSearchResults answers) : ∃ r ∈ answers, c = { r with cacheId := normalizeCacheId r.cacheId } := by
  obtain ⟨r, hr, rfl⟩ := List.mem_map.mp h
  exact ⟨r, hr, rfl⟩

theorem limit_pos (cfg : CacheConfig) : 0 < cfg.limit := by
  unfold CacheConfig.limit
  split
  · have : (1 : Int) ≤ max 1 cfg.rerankTopK := le_max_left _ _
    omega
  · exact Nat.one_pos

theorem topK_eq (cfg : CacheConfig) :
    (max 1 (if cfg.topK = 0 then 1 else cfg.topK)).toNat = cfg.limit := by
  unfold CacheConfig.topK CacheConfig.limit
  by_cases hr : cfg.rerankEnabled = true
  · rw [if_pos hr, if_pos hr]
    by_cases h0 : cfg.rerankTopK = 0
    · simp [h0]
    · simp [h0]
  · simp [hr]

/-- Comparable answers have one order. -/
theorem comparable_sort {answers : List Candidate} (h : Comparable answers) :
    (answers.insertionSort fun a b => ¬ a.similarity < b.similarity) =
      answers.insertionSort fun a b => b.similarity.rank ≤ a.similarity.rank := by
  rcases h with hlen | hnum
  · match answers, hlen with
    | [], _ => rfl
    | [_], _ => rfl
    | _ :: _ :: _, hlen => simp at hlen
  · apply insertionSort_congr
    intro a ha b hb
    rw [Score.not_lt_iff (hnum a ha) (hnum b hb), Score.le_iff_rank, and_iff_right (hnum b hb)]

/-- The candidates of a lookup are the most similar answers. -/
theorem vectorSearch_eq (search : List Rat → Nat → List Candidate) (queryVec : List Rat)
    (hord : Comparable (search queryVec cfg.limit)) :
    normalizeSearchResults (vectorSearch search queryVec cfg.topK) =
      mostSimilar cfg (search queryVec cfg.limit) := by
  unfold vectorSearch mostSimilar
  rw [topK_eq]
  dsimp only
  rw [comparable_sort hord]

/-- The sort is stable, so the first of the most similar answers stays first. -/
theorem mostSimilar_head (cfg : CacheConfig) (answers : List Candidate) :
    (mostSimilar cfg answers).head? =
      ((answers.insertionSort fun a b => b.similarity.rank ≤ a.similarity.rank).head?).map
        fun r => { r with cacheId := normalizeCacheId r.cacheId } := by
  unfold mostSimilar normalizeSearchResults
  have := limit_pos cfg
  rw [List.head?_map, List.head?_take, if_neg (by omega)]

theorem mostSimilar_nil_iff (cfg : CacheConfig) (answers : List Candidate) :
    mostSimilar cfg answers = [] ↔ answers = [] := by
  rw [← List.head?_eq_none_iff, mostSimilar_head, Option.map_eq_none_iff, List.head?_eq_none_iff,
    ← List.length_eq_zero_iff, List.length_insertionSort, List.length_eq_zero_iff]

/-- The reranker answers with as many scores as it gets documents. -/
def Matching (S : VideoBasedApproximateCache T F) : Prop :=
  ∀ scoreMm, S.reranker = some scoreMm → ∀ query documents,
    ∃ scores, scoreMm query documents = .ok scores ∧ scores.length = documents.length

variable {query : CacheQuery} {answers : List Candidate}

theorem any_document_iff (results : List Candidate) :
    (rerankDocuments results).any Option.isSome = true ↔ ∃ c ∈ results, candidateText c ≠ "" := by
  rw [List.any_eq_true]
  constructor
  · rintro ⟨d, hd, hsome⟩
    obtain ⟨c, hc, rfl⟩ := List.mem_map.mp hd
    refine ⟨c, hc, ?_⟩
    intro htext
    rw [if_pos htext] at hsome
    cases hsome
  · rintro ⟨c, hc, htext⟩
    refine ⟨_, List.mem_map_of_mem hc, ?_⟩
    rw [if_neg htext]
    rfl

/-- `_rerank_scores` gives the scores exactly when there are any. -/
theorem rerankScores_eq (hm : Matching S) (query : CacheQuery) (hne : answers ≠ [])
    (he : S.config.rerankEnabled = true) :
    (∃ scores, rerankScores S query.prompt (mostSimilar S.config answers) = .ok (some scores) ∧
      scores.length = (mostSimilar S.config answers).length ∧
      ∀ scores', Reranked S query answers scores' ↔ scores' = scores) ∨
    rerankScores S query.prompt (mostSimilar S.config answers) = .ok none ∧
      ¬ ∃ scores, Reranked S query answers scores := by
  unfold rerankScores
  cases hr : S.reranker with
  | none =>
    right
    refine ⟨rfl, ?_⟩
    rintro ⟨scores, _, _, scoreMm, hsome, _⟩
    rw [hr] at hsome
    cases hsome
  | some scoreMm =>
    by_cases htext : ∃ c ∈ mostSimilar S.config answers, candidateText c ≠ ""
    · left
      obtain ⟨scores, hscores, hlen⟩ := hm scoreMm hr query.prompt (rerankDocuments (mostSimilar S.config answers))
      have hlen : scores.length = (mostSimilar S.config answers).length := hlen.trans (List.length_map _)
      have hpos : scores.isEmpty = false := by
        rw [List.isEmpty_eq_false_iff, ne_eq, ← List.length_eq_zero_iff, hlen, List.length_eq_zero_iff,
          mostSimilar_nil_iff]
        exact hne
      refine ⟨scores, ?_, hlen, ?_⟩
      · simp only [(any_document_iff _).mpr htext, hscores, hpos, hlen]
        simp
      · intro scores'
        constructor
        · rintro ⟨_, _, f, hf, hok⟩
          rw [hr] at hf
          cases hf
          rw [hscores] at hok
          exact (Except.ok.inj hok).symm
        · rintro rfl
          exact ⟨he, htext, scoreMm, hr, hscores⟩
    · right
      refine ⟨?_, fun ⟨_, _, h, _⟩ => htext h⟩
      have hany : (rerankDocuments (mostSimilar S.config answers)).any Option.isSome = false := by
        rw [← Bool.not_eq_true, any_document_iff]
        exact htext
      simp only [hany, Bool.not_false, if_true]

/-- One query and one list of answers have one list of scores. -/
theorem Reranked.unique {scores scores' : List Score} (h : Reranked S query answers scores)
    (h' : Reranked S query answers scores') : scores = scores' := by
  obtain ⟨_, _, f, hf, hok⟩ := h
  obtain ⟨_, _, f', hf', hok'⟩ := h'
  rw [hf] at hf'
  cases hf'
  rw [hok] at hok'
  exact Except.ok.inj hok'

theorem chosen_not_reranked {c : Candidate} (h : Chosen S query answers c none) :
    ¬ ∃ scores, Reranked S query answers scores := by
  cases h with
  | similar hno => exact hno

/-- A lookup has one candidate to serve at most. -/
theorem chosen_unique {c c' : Candidate} {score score' : Option Score} (h : Chosen S query answers c score)
    (h' : Chosen S query answers c' score') : c = c' ∧ score = score' := by
  cases h with
  | reranked scores hr c s hmax =>
    cases h' with
    | reranked scores' hr' c' s' hmax' =>
      rw [Reranked.unique hr hr'] at hmax
      have := hmax.unique hmax'
      exact ⟨congrArg Prod.fst this, congrArg (fun p => some p.2) this⟩
    | similar hno => exact absurd ⟨_, hr⟩ hno
  | similar hno r hmax =>
    cases h' with
    | reranked scores' hr' => exact absurd ⟨_, hr'⟩ hno
    | similar _ r' hmax' => exact ⟨by rw [hmax.unique hmax'], rfl⟩

theorem not_chosen_nil {c : Candidate} {score : Option Score} : ¬ Chosen S query [] c score := by
  intro h
  cases h with
  | reranked scores hr =>
    obtain ⟨_, ⟨c, hc, _⟩, _⟩ := hr
    rw [(mostSimilar_nil_iff S.config []).mpr rfl] at hc
    cases hc
  | similar _ r hmax => cases hmax.mem

theorem ungated_unique {c c' : Candidate} {score score' : Option Score} (h : Ungated S query answers c score)
    (h' : Ungated S query answers c' score') : c = c' ∧ score = score' := by
  cases h with
  | reranked scores hr c hfirst =>
    cases h' with
    | reranked scores' hr' c' hfirst' =>
      rw [Reranked.unique hr hr', hfirst'] at hfirst
      exact ⟨(congrArg Prod.fst (Option.some.inj hfirst)).symm, rfl⟩
    | similar _ hc => exact absurd ⟨_, hr⟩ (chosen_not_reranked hc)
  | similar c hc =>
    cases h' with
    | reranked scores' hr' => exact absurd ⟨_, hr'⟩ (chosen_not_reranked hc)
    | similar c' hc' => exact chosen_unique hc hc'

theorem not_ungated_nil {c : Candidate} {score : Option Score} : ¬ Ungated S query [] c score := by
  intro h
  cases h with
  | reranked scores hr =>
    obtain ⟨_, ⟨c, hc, _⟩, _⟩ := hr
    rw [(mostSimilar_nil_iff S.config []).mpr rfl] at hc
    cases hc
  | similar _ hc => exact not_chosen_nil hc

/-- What the code goes for: what no gate stops, else what is chosen and reaches the applied limits. -/
inductive Picked (S : VideoBasedApproximateCache T F) (query : CacheQuery) (answers : List Candidate)
    (c : Candidate) (score : Option Score) : Prop
  | ungated (h : Ungated S query answers c score)
  | reached (hno : ∀ c score, ¬ Ungated S query answers c score) (hc : Chosen S query answers c score)
      (hr : S.config.applied.Reached c score)

theorem Picked.eq_ungated {c c' : Candidate} {score score' : Option Score} (h : Picked S query answers c score)
    (h' : Ungated S query answers c' score') : c = c' ∧ score = score' := by
  cases h with
  | ungated h => exact ungated_unique h h'
  | reached hno => exact absurd h' (hno c' score')

theorem Picked.of_not_ungated {c : Candidate} {score : Option Score} (h : Picked S query answers c score)
    (hno : ∀ c score, ¬ Ungated S query answers c score) :
    Chosen S query answers c score ∧ S.config.applied.Reached c score := by
  cases h with
  | ungated h => exact absurd h (hno c score)
  | reached _ hc hr => exact ⟨hc, hr⟩

/-- The rerank branch goes for its best score unless that is below the threshold. -/
theorem picked_reranked {first : Candidate} {rest : List Candidate} {s : Score} {scores : List Score}
    (htop : mostSimilar S.config answers = first :: rest) (hr : Reranked S query answers (s :: scores)) (c : Candidate)
    (score : Option Score) :
    Picked S query answers c score ↔
      c = ((rest.zip scores).foldl (keepMax Prod.snd) (first, s)).1 ∧
      score = some ((rest.zip scores).foldl (keepMax Prod.snd) (first, s)).2 ∧
      ¬ ((rest.zip scores).foldl (keepMax Prod.snd) (first, s)).2 < (S.config.rerankThreshold : Score) := by
  have hzip : (mostSimilar S.config answers).zip (s :: scores) = (first, s) :: rest.zip scores := by
    rw [htop, List.zip_cons_cons]
  by_cases hs : s = .nan
  · subst hs
    rw [@foldl_keepMax_nan _ Prod.snd (first, Score.nan) rfl]
    have hungated : Ungated S query answers first (some .nan) := .reranked _ hr first (by rw [hzip, List.head?_cons])
    constructor
    · intro h
      obtain ⟨rfl, rfl⟩ := h.eq_ungated hungated
      exact ⟨rfl, rfl, Score.not_nan_lt⟩
    · rintro ⟨rfl, rfl, _⟩
      exact .ungated hungated
  · obtain ⟨hmax, hnum⟩ := @foldl_keepMax _ Prod.snd (first, s) hs (rest.zip scores)
    rw [← hzip] at hmax
    generalize (rest.zip scores).foldl (keepMax Prod.snd) (first, s) = best at hmax hnum
    obtain ⟨b, t⟩ := best
    have hchosen : Chosen S query answers b (some t) := .reranked _ hr b t hmax
    have hreach : S.config.applied.Reached b (some t) ↔ ¬ t < (S.config.rerankThreshold : Score) :=
      (Score.not_lt_iff hnum (Score.coe_ne_nan _)).symm
    have hno : ∀ c score, ¬ Ungated S query answers c score := by
      intro c score h
      cases h with
      | reranked scores' hr' c hfirst =>
        rw [Reranked.unique hr' hr, hzip, List.head?_cons] at hfirst
        exact hs (congrArg Prod.snd (Option.some.inj hfirst))
      | similar _ hc => exact chosen_not_reranked hc ⟨_, hr⟩
    constructor
    · intro h
      obtain ⟨hc, hreached⟩ := h.of_not_ungated hno
      obtain ⟨rfl, rfl⟩ := chosen_unique hc hchosen
      exact ⟨rfl, rfl, hreach.mp hreached⟩
    · rintro ⟨rfl, rfl, hlow⟩
      exact .reached hno hchosen (hreach.mpr hlow)

/-- The branches without rerank scores go for the most similar unless it is below the threshold. -/
theorem picked_similar {first : Candidate} (hc : Chosen S query answers first none) {threshold : Rat}
    (ht : S.config.videoSimilarityThreshold = some threshold) (c : Candidate) (score : Option Score) :
    Picked S query answers c score ↔
      c = first ∧ score = none ∧ ¬ first.similarity < (threshold : Score) := by
  by_cases hs : first.similarity = .nan
  · have hungated : Ungated S query answers first none := .similar first hc hs
    rw [hs]
    constructor
    · intro h
      obtain ⟨rfl, rfl⟩ := h.eq_ungated hungated
      exact ⟨rfl, rfl, Score.not_nan_lt⟩
    · rintro ⟨rfl, rfl, _⟩
      exact .ungated hungated
  · have hreach : S.config.applied.Reached first none ↔ ¬ first.similarity < (threshold : Score) := by
      rw [Score.not_lt_iff hs (Score.coe_ne_nan _)]
      unfold Limits.Reached CacheConfig.applied
      rw [ht]
      exact ⟨fun h => h threshold rfl, fun h t' ht => by cases ht; exact h⟩
    have hno : ∀ c score, ¬ Ungated S query answers c score := by
      intro c score h
      cases h with
      | reranked scores hr => exact chosen_not_reranked hc ⟨_, hr⟩
      | similar _ hc' hnan =>
        obtain ⟨rfl, _⟩ := chosen_unique hc' hc
        exact hs hnan
    constructor
    · intro h
      obtain ⟨hc', hreached⟩ := h.of_not_ungated hno
      obtain ⟨rfl, rfl⟩ := chosen_unique hc' hc
      exact ⟨rfl, rfl, hreach.mp hreached⟩
    · rintro ⟨rfl, rfl, hlow⟩
      exact .reached hno hc (hreach.mpr hlow)

/-- What the code does with the candidate of its branch. -/
theorem choose_eq (hm : Matching S) (query : CacheQuery) (answers : List Candidate) :
    (answers = [] ∧ choose S query.prompt (mostSimilar S.config answers) = .ok none) ∨
    (∃ c s, (∃ scores, Reranked S query answers scores) ∧
      (∀ c' score, Picked S query answers c' score ↔
        c' = c ∧ score = some s ∧ ¬ s < (S.config.rerankThreshold : Score)) ∧
      choose S query.prompt (mostSimilar S.config answers) =
        .ok (if s < (S.config.rerankThreshold : Score) then none
          else if S.config.determineSkipStep c.savedSteps (some s) ≤ 0 then none
          else some ⟨c, s, S.config.determineSkipStep c.savedSteps (some s)⟩)) ∨
    ∃ c, Chosen S query answers c none ∧
      choose S query.prompt (mostSimilar S.config answers) = chooseBySimilarity S.config c := by
  cases htop : mostSimilar S.config answers with
  | nil => exact Or.inl ⟨(mostSimilar_nil_iff _ _).mp htop, rfl⟩
  | cons first rest =>
    right
    have hne : answers ≠ [] := by
      rw [ne_eq, ← mostSimilar_nil_iff S.config, htop]
      exact List.cons_ne_nil first rest
    have hsimilar : (¬ ∃ scores, Reranked S query answers scores) → Chosen S query answers first none := by
      intro hno
      have hhead := mostSimilar_head S.config answers
      rw [htop, List.head?_cons] at hhead
      obtain ⟨r, hr, rfl⟩ := Option.map_eq_some_iff.mp hhead.symm
      exact .similar hno r ((head?_insertionSort _ _).mp hr)
    unfold choose
    dsimp only
    split
    · rename_i he
      rcases rerankScores_eq hm query hne he with ⟨scores, hscores, hlen, hiff⟩ | ⟨hnone, hno⟩
      · left
        have hr : Reranked S query answers scores := (hiff scores).mpr rfl
        rw [htop] at hscores hlen
        simp only [hscores, chooseByRerank, hlen, ne_eq, not_true_eq_false, if_false]
        cases scores with
        | nil => cases hlen
        | cons s scores =>
          exact ⟨_, _, ⟨_, hr⟩, picked_reranked htop hr, rfl⟩
      · right
        rw [htop] at hnone
        simp only [hnone]
        exact ⟨first, hsimilar hno, rfl⟩
    · rename_i he
      exact Or.inr ⟨first, hsimilar fun ⟨_, h, _⟩ => he h, rfl⟩

/-- A candidate gives a choice exactly when a saved step of it is in reach. -/
theorem stepChoice_some (cfg : CacheConfig) (c : Candidate) (s : Score) (score : Option Score) (ch : Choice) :
    (if cfg.determineSkipStep c.savedSteps score ≤ 0 then none
      else some ⟨c, s, cfg.determineSkipStep c.savedSteps score⟩) = some ch ↔
      ch.result = c ∧ ch.hitScore = s ∧ Deepest cfg cfg.applied score c.savedSteps ch.skipStep := by
  rcases determineSkipStep_eq cfg score c.savedSteps with ⟨k, hk, hkeq⟩ | ⟨hno, hzero⟩
  · rw [hkeq, if_neg (not_le.mpr (deepest_pos hk)), Option.some.injEq]
    constructor
    · rintro rfl
      exact ⟨rfl, rfl, hk⟩
    · obtain ⟨result, hitScore, skipStep⟩ := ch
      rintro ⟨rfl, rfl, hdeep⟩
      exact congrArg (Choice.mk result hitScore) (hk.unique hdeep)
  · rw [hzero, if_pos (le_refl _)]
    exact ⟨fun h => (nomatch h), fun ⟨_, _, h⟩ => absurd ⟨_, h⟩ hno⟩

/-- The code's choice: what it goes for, at its step under the applied limits, and an exception
where it has no threshold to compare with. -/
theorem choose_cases (hm : Matching S) (query : CacheQuery) (answers : List Candidate) :
    ((∃ exc, choose S query.prompt (mostSimilar S.config answers) = .error exc) ↔
      S.config.videoSimilarityThreshold = none ∧ ∃ c, Chosen S query answers c none) ∧
    ((¬ ∃ exc, choose S query.prompt (mostSimilar S.config answers) = .error exc) →
      ∀ ch, choose S query.prompt (mostSimilar S.config answers) = .ok (some ch) ↔
        ∃ score, Picked S query answers ch.result score ∧
          Deepest S.config S.config.applied score ch.result.savedSteps ch.skipStep ∧
          ch.hitScore = score.getD ch.result.similarity) := by
  rcases choose_eq hm query answers with ⟨rfl, he⟩ | ⟨c, s, hr, hpick, he⟩ | ⟨c, hc, he⟩
  · rw [he]
    refine ⟨⟨fun ⟨_, h⟩ => (nomatch h), fun ⟨_, c, h⟩ => absurd h not_chosen_nil⟩, fun _ ch => ?_⟩
    refine ⟨fun h => (nomatch h), ?_⟩
    rintro ⟨score, h, _⟩
    cases h with
    | ungated h => exact absurd h not_ungated_nil
    | reached _ h => exact absurd h not_chosen_nil
  · rw [he]
    refine ⟨⟨fun ⟨_, h⟩ => (nomatch h), fun ⟨_, c', h⟩ => absurd hr (chosen_not_reranked h)⟩, fun _ ch => ?_⟩
    rw [Except.ok.injEq]
    constructor
    · intro h
      split at h
      · cases h
      · rename_i hlow
        obtain ⟨hresult, hscore, hdeep⟩ := (stepChoice_some S.config c s (some s) ch).mp h
        rw [hresult]
        exact ⟨some s, (hpick c (some s)).mpr ⟨rfl, rfl, hlow⟩, hdeep, hscore⟩
    · rintro ⟨score, h, hdeep, hscore⟩
      obtain ⟨hresult, rfl, hlow⟩ := (hpick _ _).mp h
      rw [hresult] at hdeep
      rw [if_neg hlow]
      exact (stepChoice_some S.config c s (some s) ch).mpr ⟨hresult, hscore, hdeep⟩
  · rw [he]
    unfold chooseBySimilarity
    cases hthr : S.config.videoSimilarityThreshold with
    | none => exact ⟨⟨fun _ => ⟨rfl, c, hc⟩, fun _ => ⟨_, rfl⟩⟩, fun h => absurd ⟨_, rfl⟩ h⟩
    | some t =>
      have hpick := picked_similar hc hthr
      dsimp only
      constructor
      · refine ⟨?_, fun ⟨h, _⟩ => (nomatch h)⟩
        rintro ⟨exc, h⟩
        split at h
        · cases h
        · split at h <;> cases h
      · intro _ ch
        constructor
        · intro h
          split at h
          · cases h
          · rename_i hlow
            have hstep : (if S.config.determineSkipStep c.savedSteps none ≤ 0 then none
                else some ⟨c, c.similarity, S.config.determineSkipStep c.savedSteps none⟩) = some ch := by
              split at h
              · cases h
              · rename_i hpos
                rw [if_neg hpos]
                exact Except.ok.inj h
            obtain ⟨hresult, hscore, hdeep⟩ := (stepChoice_some S.config c c.similarity none ch).mp hstep
            rw [hresult]
            exact ⟨none, (hpick c none).mpr ⟨rfl, rfl, hlow⟩, hdeep, hscore⟩
        · rintro ⟨score, h, hdeep, hscore⟩
          obtain ⟨hresult, rfl, hlow⟩ := (hpick _ _).mp h
          rw [hresult] at hdeep hscore
          have hstep := (stepChoice_some S.config c c.similarity none ch).mpr ⟨hresult, hscore, hdeep⟩
          rw [if_neg hlow]
          split at hstep
          · cases hstep
          · rename_i hpos
            rw [if_neg hpos, Option.some.inj hstep]

def allReturn : Faults := fun _ _ => .returns

theorem call_allReturn (w : World) (c : BackendCall) (effect : Stores → Stores) :
    w.call allReturn c effect = (.ok (), { w with stores := effect w.stores, calls := w.calls + 1 }) := rfl

/-- Serving a choice is a hit exactly when the step is stored. -/
theorem serve_allReturn (query : CacheQuery) (ch : Choice) (w : World) :
    ∃ r : LookupResult T, (serve S allReturn query ch w).1 = .ok r ∧
      (r.hit = true ↔ (w.stores.kv.get? (kvKey ch.result.cacheId ch.skipStep)).isSome = true) ∧
      (r.hit = true → r.resumeHint = some (.skipStep ch.skipStep) ∧
        r.matchedCacheId = some ch.result.cacheId ∧ r.matchedScore = some ch.hitScore) := by
  unfold serve loadPayload
  simp only [World.kvGet, call_allReturn, id]
  cases hkv : w.stores.kv.get? (kvKey ch.result.cacheId ch.skipStep) with
  | none =>
    refine ⟨.miss, rfl, ?_, fun h => by cases h⟩
    exact ⟨fun h => (by cases h), fun h => (by cases h)⟩
  | some data =>
    refine ⟨_, rfl, ?_, fun _ => ⟨rfl, rfl, rfl⟩⟩
    exact ⟨fun _ => rfl, fun _ => rfl⟩

/-- Without a query vector there is no search. -/
theorem not_asked_miss (search : List Rat → Nat → List Candidate) (query : CacheQuery) (w : World)
    (h : ¬ ∃ queryVec, Asked S query queryVec) : (lookup S allReturn search query w).1 = .ok .miss := by
  unfold lookup
  split
  · rfl
  · rename_i hprompt
    split
    · rfl
    · rename_i hstore
      have hstore : S.hasVectorStore = true := by simpa using hstore
      cases hencode : S.promptEncoder with
      | none => rfl
      | some encode =>
        simp only [call_allReturn]
        split
        · rfl
        · rename_i hvec
          cases hres : encode query.prompt with
          | none =>
            rw [hres] at hvec
            exact absurd rfl hvec
          | some queryVec =>
            rw [hres] at hvec
            refine absurd ⟨queryVec, hprompt, hstore, ⟨encode, hencode, hres⟩, ?_⟩ h
            rintro rfl
            exact hvec rfl

/-- A lookup that asks the store decides by its answers alone. -/
theorem asked_lookup (search : List Rat → Nat → List Candidate) {query : CacheQuery} (w : World)
    {queryVec : List Rat} (h : Asked S query queryVec) (hord : Comparable (search queryVec S.config.limit)) :
    ∃ w', w'.stores = w.stores ∧ (lookup S allReturn search query w).1 =
      match choose S query.prompt (mostSimilar S.config (search queryVec S.config.limit)) with
      | .error exc => .error exc
      | .ok none => .ok .miss
      | .ok (some ch) => (serve S allReturn query ch w').1 := by
  obtain ⟨encode, hencode, hres⟩ := h.encoded
  refine ⟨{ w with calls := w.calls + 1 + 1 }, rfl, ?_⟩
  have hvec : ¬ queryVec.isEmpty = true := fun he => h.vector (List.isEmpty_iff.mp he)
  unfold lookup
  simp only [if_neg h.prompt, h.store, Bool.not_true, Bool.false_eq_true, if_false, hencode,
    call_allReturn, hres, Option.getD_some, if_neg hvec, vectorSearch_eq search queryVec hord, id]
  cases choose S query.prompt (mostSimilar S.config (search queryVec S.config.limit)) with
  | error exc => rfl
  | ok ch =>
    cases ch with
    | none => rfl
    | some ch => rfl

theorem asked_unique {query : CacheQuery} {v v' : List Rat} (h : Asked S query v) (h' : Asked S query v') :
    v = v' := by
  obtain ⟨encode, he, hv⟩ := h.encoded
  obtain ⟨encode', he', hv'⟩ := h'.encoded
  rw [he] at he'
  cases he'
  rw [hv] at hv'
  exact Option.some.inj hv'

structure Taken (S : VideoBasedApproximateCache T F) (search : List Rat → Nat → List Candidate)
    (query : CacheQuery) (kv : Dict String Bytes) (c : Candidate) (score : Option Score) (k : Int) : Prop where
  picked : ∃ queryVec, Asked S query queryVec ∧ Picked S query (search queryVec S.config.limit) c score
  deepest : Deepest S.config S.config.applied score c.savedSteps k
  stored : (kv.get? (kvKey c.cacheId k)).isSome = true

/-- The code raises on a candidate without a threshold, else it hits with what it goes for. -/
theorem lookup_applied (hm : Matching S) (search : List Rat → Nat → List Candidate) (query : CacheQuery)
    (hord : ∀ queryVec, Asked S query queryVec → Comparable (search queryVec S.config.limit)) (w : World) :
    (S.config.videoSimilarityThreshold = none ∧ (∃ queryVec c, Asked S query queryVec ∧
        Chosen S query (search queryVec S.config.limit) c none) ∧
      ∃ exc, (lookup S allReturn search query w).1 = .error exc) ∨
    (S.config.videoSimilarityThreshold = none → ∀ queryVec, Asked S query queryVec →
        ∀ c, ¬ Chosen S query (search queryVec S.config.limit) c none) ∧
    ∃ r, (lookup S allReturn search query w).1 = .ok r ∧
      (r.hit = true ↔ ∃ c score k, Taken S search query w.stores.kv c score k) ∧
      ∀ c score k, Taken S search query w.stores.kv c score k →
        r.resumeHint = some (.skipStep k) ∧ r.matchedCacheId = some c.cacheId ∧
          r.matchedScore = some (score.getD c.similarity) := by
  by_cases hasked : ∃ queryVec, Asked S query queryVec
  swap
  · right
    have hno : ∀ c score k, ¬ Taken S search query w.stores.kv c score k := by
      intro c score k h
      obtain ⟨v, hv, _⟩ := h.picked
      exact hasked ⟨v, hv⟩
    refine ⟨fun _ v hv => absurd ⟨v, hv⟩ hasked, .miss, not_asked_miss search query w hasked, ?_, ?_⟩
    · exact ⟨fun h => (nomatch h), fun ⟨c, score, k, h⟩ => absurd h (hno c score k)⟩
    · exact fun c score k h => absurd h (hno c score k)
  obtain ⟨v, hv⟩ := hasked
  obtain ⟨w', hw', hlookup⟩ := asked_lookup search w hv (hord v hv)
  obtain ⟨herr, hok⟩ := choose_cases hm query (search v S.config.limit)
  rw [hlookup]
  cases hch : choose S query.prompt (mostSimilar S.config (search v S.config.limit)) with
  | error exc =>
    left
    obtain ⟨hnone, c, hc⟩ := herr.mp ⟨exc, hch⟩
    exact ⟨hnone, ⟨v, c, hv, hc⟩, exc, rfl⟩
  | ok ch =>
    right
    have hraises : ¬ ∃ exc, choose S query.prompt (mostSimilar S.config (search v S.config.limit)) = .error exc := by
      rw [hch]
      exact fun ⟨_, h⟩ => nomatch h
    have hok := hok hraises
    refine ⟨?_, ?_⟩
    · intro hnone v' hv' c hc
      rw [asked_unique hv' hv] at hc
      exact hraises (herr.mpr ⟨hnone, c, hc⟩)
    have htaken : ∀ c score k, Taken S search query w.stores.kv c score k →
        ch = some ⟨c, score.getD c.similarity, k⟩ := by
      intro c score k h
      obtain ⟨v', hv', hc⟩ := h.picked
      rw [asked_unique hv' hv] at hc
      have := (hok ⟨c, score.getD c.similarity, k⟩).mpr ⟨score, hc, h.deepest, rfl⟩
      rw [hch] at this
      exact Except.ok.inj this
    cases ch with
    | none =>
      have hno : ∀ c score k, ¬ Taken S search query w.stores.kv c score k :=
        fun c score k h => nomatch htaken c score k h
      refine ⟨.miss, rfl, ⟨fun h => (nomatch h), fun ⟨c, score, k, h⟩ => absurd h (hno c score k)⟩, ?_⟩
      exact fun c score k h => absurd h (hno c score k)
    | some ch =>
      obtain ⟨score, hc, hdeep, _⟩ := (hok ch).mp hch
      obtain ⟨r, hr, hhit, hhint⟩ := serve_allReturn (S := S) query ch w'
      rw [hw'] at hhit
      refine ⟨r, hr, ?_, ?_⟩
      · rw [hhit]
        constructor
        · exact fun hkv => ⟨ch.result, score, ch.skipStep, ⟨v, hv, hc⟩, hdeep, hkv⟩
        · rintro ⟨c, score', k, h⟩
          cases htaken c score' k h
          exact h.stored
      · intro c score' k h
        cases htaken c score' k h
        exact hhint (hhit.mpr h.stored)

theorem deepest_congr {l l' : Limits} (hl : l.skip = l'.skip) {score : Option Score} {savedSteps : List Int}
    {k : Int} (h : Deepest cfg l score savedSteps k) : Deepest cfg l' score savedSteps k := by
  unfold Deepest Allowed at h ⊢
  rw [← hl]
  exact h

theorem skipCap_eq (h : cfg.maxSkipStep ≠ 0) : cfg.applied.skip = cfg.limits.skip := if_neg h

/-- A NaN that passes the gates is not served: the lookup does not hit, and nothing else is to be. -/
theorem ungated_settled {search : List Rat → Nat → List Candidate} {query : CacheQuery} {kv : Dict String Bytes}
    {r : LookupResult T}
    (hfloor : S.config.videoSimilarityThreshold = none → ∀ queryVec, Asked S query queryVec →
      ∀ c, ¬ Chosen S query (search queryVec S.config.limit) c none)
    (hhit : r.hit = true ↔ ∃ c score k, Serves S S.config.limits search query kv c score k)
    (hhint : ∀ c score k, Serves S S.config.limits search query kv c score k →
      r.matchedScore = some (score.getD c.similarity))
    (hhit' : r.hit = true ↔ ∃ c score k, Taken S search query kv c score k)
    (hhint' : ∀ c score k, Taken S search query kv c score k → r.matchedScore = some (score.getD c.similarity))
    {queryVec : List Rat} (hv : Asked S query queryVec) {c : Candidate} {score : Option Score}
    (h : Ungated S query (search queryVec S.config.limit) c score) :
    (∀ k, Deepest S.config S.config.applied score c.savedSteps k → kv.get? (kvKey c.cacheId k) = none) ∧
      ∀ c score k, ¬ Serves S S.config.limits search query kv c score k := by
  have hnan : score.getD c.similarity = .nan := by
    cases h with
    | reranked => rfl
    | similar _ _ hnan => exact hnan
  have hno : ∀ c score k, ¬ Serves S S.config.limits search query kv c score k := by
    intro c' score' k' hs
    obtain ⟨c'', score'', k'', ht⟩ := hhit'.mp (hhit.mpr ⟨c', score', k', hs⟩)
    obtain ⟨v, hv', hp⟩ := ht.picked
    rw [asked_unique hv' hv] at hp
    obtain ⟨rfl, rfl⟩ := hp.eq_ungated h
    have hscore := hhint' _ _ _ ht
    rw [hhint c' score' k' hs, hnan, Option.some.injEq] at hscore
    have hreached := hs.reached
    cases score' with
    | some s => exact Score.ne_nan_of_le hreached hscore
    | none =>
      cases hthr : S.config.videoSimilarityThreshold with
      | none =>
        obtain ⟨v, hv, hc⟩ := hs.chosen
        exact hfloor hthr v hv c' hc
      | some t => exact Score.ne_nan_of_le (hreached t hthr) hscore
  refine ⟨fun k hk => ?_, hno⟩
  cases hkv : kv.get? (kvKey c.cacheId k) with
  | none => rfl
  | some data =>
    have ht : Taken S search query kv c score k := ⟨⟨queryVec, hv, .ungated h⟩, hk, by rw [hkv]; rfl⟩
    obtain ⟨c', score', k', hs⟩ := hhit.mp (hhit'.mpr ⟨c, score, k, ht⟩)
    exact absurd hs (hno c' score' k')

/-- Without a NaN to pass the gates, what the code goes for reaches the applied limits. -/
theorem taken_iff_serves {search : List Rat → Nat → List Candidate} {query : CacheQuery} {kv : Dict String Bytes}
    (hno : ¬ ∃ queryVec c score, Asked S query queryVec ∧ Ungated S query (search queryVec S.config.limit) c score)
    (c : Candidate) (score : Option Score) (k : Int) :
    Taken S search query kv c score k ↔ Serves S S.config.applied search query kv c score k := by
  have hno : ∀ queryVec, Asked S query queryVec → ∀ c score,
      ¬ Ungated S query (search queryVec S.config.limit) c score :=
    fun v hv c score h => hno ⟨v, c, score, hv, h⟩
  constructor
  · intro h
    obtain ⟨v, hv, hp⟩ := h.picked
    obtain ⟨hc, hr⟩ := hp.of_not_ungated (hno v hv)
    exact ⟨⟨v, hv, hc⟩, hr, h.deepest, h.stored⟩
  · intro h
    obtain ⟨v, hv, hc⟩ := h.chosen
    exact ⟨⟨v, hv, .reached (hno v hv) hc h.reached⟩, h.deepest, h.stored⟩

/-- Where the condition holds and no NaN passes the gates, the substituted limits serve what the
configured ones do. -/
theorem settled_serves_iff {search : List Rat → Nat → List Candidate} {query : CacheQuery} {kv : Dict String Bytes}
    (hset : Settled S search query kv)
    (hno : ¬ ∃ queryVec c score, Asked S query queryVec ∧ Ungated S query (search queryVec S.config.limit) c score)
    (c : Candidate) (score : Option Score) (k : Int) :
    Serves S S.config.limits search query kv c score k ↔ Serves S S.config.applied search query kv c score k := by
  constructor
  · intro h
    have hskip : S.config.maxSkipStep ≠ 0 := by
      have hle : k ≤ S.config.maxSkipStep := h.deepest.1.2.2.1
      have := deepest_pos h.deepest
      omega
    refine ⟨h.chosen, ?_, deepest_congr (skipCap_eq hskip).symm h.deepest, h.stored⟩
    cases score with
    | none => exact h.reached
    | some s =>
      change (S.config.rerankThreshold : Score) ≤ s
      unfold CacheConfig.rerankThreshold
      split
      · rename_i hzero
        rw [← Score.not_lt_iff (Score.ne_nan_of_le h.reached) (Score.coe_ne_nan _)]
        exact fun hs => hno (hset.rerank hzero hskip c s k hs h)
      · exact h.reached
  · intro h
    have hskip : S.config.maxSkipStep ≠ 0 := fun hzero => hno (hset.skip hzero c score k h)
    refine ⟨h.chosen, ?_, deepest_congr (skipCap_eq hskip) h.deepest, h.stored⟩
    cases score with
    | none => exact h.reached
    | some s =>
      have hreached : (S.config.rerankThreshold : Score) ≤ s := h.reached
      change (S.config.rerankScoreThreshold : Score) ≤ s
      unfold CacheConfig.rerankThreshold at hreached
      split at hreached
      · rename_i hzero
        rw [hzero]
        exact Score.le_trans (by decide +kernel) hreached
      · exact hreached

/-- `lookup` decides as configured exactly where no NaN passes its gates and none of its default
substitutions, and no missing threshold, gets in the way. -/
theorem lookup_decides_iff (S : VideoBasedApproximateCache T F) (hm : Matching S)
    (search : List Rat → Nat → List Candidate) (query : CacheQuery)
    (hord : ∀ queryVec, Asked S query queryVec → Comparable (search queryVec S.config.limit)) (w : World) :
    Decides S search query w.stores.kv (lookup S allReturn search query w).1 ↔
      Settled S search query w.stores.kv := by
  constructor
  · rintro ⟨r, hr, hhit, hhint⟩
    rcases lookup_applied hm search query hord w with ⟨_, _, exc, he⟩ | ⟨hfloor, r', hr', hhit', hhint'⟩
    · rw [he] at hr
      cases hr
    · rw [hr] at hr'
      cases hr'
      refine ⟨hfloor, ?_, ?_, ?_⟩
      · intro v hv c score h
        exact ungated_settled hfloor hhit (fun c s k h => (hhint c s k h).2.2) hhit'
          (fun c s k h => (hhint' c s k h).2.2) hv h
      · intro hskip c score k h
        by_contra hno
        obtain ⟨c', score', k', h'⟩ := hhit.mp (hhit'.mpr ⟨c, score, k, (taken_iff_serves hno c score k).mpr h⟩)
        have hle : k' ≤ S.config.maxSkipStep := h'.deepest.1.2.2.1
        have := deepest_pos h'.deepest
        omega
      · intro hzero _ c s k hs h
        by_contra hno
        obtain ⟨c', score', k', ht⟩ := hhit'.mp (hhit.mpr ⟨c, some s, k, h⟩)
        have h' := (taken_iff_serves hno c' score' k').mp ht
        obtain ⟨v, hv, hc⟩ := h.chosen
        obtain ⟨v', hv', hc'⟩ := h'.chosen
        rw [asked_unique hv' hv] at hc'
        obtain ⟨rfl, rfl⟩ := chosen_unique hc hc'
        have hreached : (S.config.rerankThreshold : Score) ≤ s := h'.reached
        rw [CacheConfig.rerankThreshold, if_pos hzero] at hreached
        exact Score.not_le_of_lt hs hreached
  · intro hset
    rcases lookup_applied hm search query hord w with ⟨hnone, ⟨v, c, hv, hc⟩, _⟩ | ⟨_, r, hr, hhit, hhint⟩
    · exact absurd hc (hset.floor hnone v hv c)
    refine ⟨r, hr, ?_⟩
    by_cases hung : ∃ queryVec c score, Asked S query queryVec ∧
        Ungated S query (search queryVec S.config.limit) c score
    · obtain ⟨v, c, score, hv, h⟩ := hung
      obtain ⟨hlost, hno⟩ := hset.nan v hv c score h
      refine ⟨⟨fun hr => ?_, fun ⟨c, score, k, h⟩ => absurd h (hno c score k)⟩,
        fun c score k h => absurd h (hno c score k)⟩
      obtain ⟨c', score', k', ht⟩ := hhit.mp hr
      obtain ⟨v', hv', hp⟩ := ht.picked
      rw [asked_unique hv' hv] at hp
      obtain ⟨rfl, rfl⟩ := hp.eq_ungated h
      have hstored := ht.stored
      rw [hlost k' ht.deepest] at hstored
      cases hstored
    have hiff : ∀ c score k, Serves S S.config.limits search query w.stores.kv c score k ↔
        Taken S search query w.stores.kv c score k := fun c score k =>
      (settled_serves_iff hset hung c score k).trans (taken_iff_serves hung c score k).symm
    rw [hhit]
    simp only [hiff]
    exact ⟨trivial, hhint⟩

/-- Two donors; the one with the text of the query is the less similar. -/
def demoDonors : List Candidate :=
  [⟨"aa", (9 / 10 : Rat), "a cat", [5], ⟨"a cat", [5], "t2v"⟩⟩,
    ⟨"bb", (4 / 5 : Rat), "a dog", [5, 10], ⟨"a dog", [5, 10], "t2v"⟩⟩]

def demoAnswers : List Rat → Nat → List Candidate := fun _ _ => demoDonors

def demoWorld : World :=
  { stores := { kv := ((∅ : Dict String Bytes).set (kvKey "aa" 5) [5]).set (kvKey "bb" 5) [6] } }

def sameText : Reranker := fun query documents =>
  .ok (documents.map fun d => if d = some query then ((19 / 20 : Rat) : Score) else ((1 / 2 : Rat) : Score))

def noNumber : Reranker := fun _ documents => .ok (documents.map fun _ => .nan)

/-- The reranker gives 0.95 where prompt and document agree, else 0.5. -/
theorem lookup_decides_on_defaults :
    let S := { demoCache {} with reranker := some sameText }
    Matching S ∧ (∀ queryVec, Asked S ⟨"a dog", "t2v"⟩ queryVec →
        Comparable (demoAnswers queryVec S.config.limit)) ∧
      Settled S demoAnswers ⟨"a dog", "t2v"⟩ demoWorld.stores.kv ∧
      Decides S demoAnswers ⟨"a dog", "t2v"⟩ demoWorld.stores.kv
        (lookup S allReturn demoAnswers ⟨"a dog", "t2v"⟩ demoWorld).1 ∧
      (lookup S allReturn demoAnswers ⟨"a dog", "t2v"⟩ demoWorld).1.toOption.map
        (fun r => (r.hit, r.resumeHint, r.matchedCacheId, r.matchedScore)) =
        some (true, some (.skipStep 5), some "bb", some ((19 / 20 : Rat) : Score)) := by
  intro S
  have hm : Matching S := by
    rintro scoreMm h query documents
    cases h
    exact ⟨_, rfl, List.length_map _⟩
  have hord : ∀ queryVec, Asked S ⟨"a dog", "t2v"⟩ queryVec →
      Comparable (demoAnswers queryVec S.config.limit) := by
    intro _ _
    have hnum : ∀ r ∈ demoDonors, r.similarity ≠ .nan := by decide +kernel
    exact Or.inr hnum
  have hset : Settled S demoAnswers ⟨"a dog", "t2v"⟩ demoWorld.stores.kv := by
    refine ⟨fun h => (nomatch h), ?_, fun h => absurd h (by decide), fun h => absurd h (by decide +kernel)⟩
    intro queryVec _ c score h
    cases h with
    | reranked scores hr c hfirst =>
      obtain ⟨_, _, scoreMm, hsome, hok⟩ := hr
      cases hsome
      have hscores : scores = [((1 / 2 : Rat) : Score), ((19 / 20 : Rat) : Score)] := by
        have hok : sameText "a dog" (rerankDocuments (mostSimilar {} demoDonors)) = .ok scores := hok
        have hanswer : sameText "a dog" (rerankDocuments (mostSimilar {} demoDonors)) =
            .ok [((1 / 2 : Rat) : Score), ((19 / 20 : Rat) : Score)] := by
          unfold sameText
          exact congrArg Except.ok (by decide +kernel)
        rw [hanswer] at hok
        exact (Except.ok.inj hok).symm
      rw [hscores] at hfirst
      have hfirst : ((mostSimilar {} demoDonors).zip [((1 / 2 : Rat) : Score), ((19 / 20 : Rat) : Score)]).head? =
          some (c, .nan) := hfirst
      have hscore : ((mostSimilar {} demoDonors).zip
          [((1 / 2 : Rat) : Score), ((19 / 20 : Rat) : Score)]).head?.map Prod.snd = some ((1 / 2 : Rat) : Score) := by
        decide +kernel
      rw [hfirst] at hscore
      cases hscore
    | similar c hc =>
      have htext : ∃ c ∈ mostSimilar {} demoDonors, candidateText c ≠ "" :=
        ⟨⟨"aa", (9 / 10 : Rat), "a cat", [5], ⟨"a cat", [5], "t2v"⟩⟩, by decide +kernel, by decide +kernel⟩
      exact absurd ⟨_, rfl, htext, sameText, rfl, rfl⟩ (chosen_not_reranked hc)
  refine ⟨hm, hord, hset, ?_, by decide +kernel⟩
  exact (lookup_decides_iff S hm demoAnswers ⟨"a dog", "t2v"⟩ hord demoWorld).mpr hset

/-- Without a similarity threshold the lookup raises, with `max_skip_step = 0` it skips 5 steps, and
it hits on a score that is no number. -/
theorem missing_floor_and_zero_cap :
    (¬ Decides (demoCache { rerankEnabled := false, videoSimilarityThreshold := none }) demoAnswers
      ⟨"a dog", "t2v"⟩ demoWorld.stores.kv
      (lookup (demoCache { rerankEnabled := false, videoSimilarityThreshold := none }) allReturn demoAnswers
        ⟨"a dog", "t2v"⟩ demoWorld).1) ∧
    (¬ Decides (demoCache { rerankEnabled := false, maxSkipStep := 0 }) demoAnswers
      ⟨"a dog", "t2v"⟩ demoWorld.stores.kv
      (lookup (demoCache { rerankEnabled := false, maxSkipStep := 0 }) allReturn demoAnswers
        ⟨"a dog", "t2v"⟩ demoWorld).1) ∧
    ¬ Decides { demoCache {} with reranker := some noNumber } demoAnswers ⟨"a dog", "t2v"⟩ demoWorld.stores.kv
      (lookup { demoCache {} with reranker := some noNumber } allReturn demoAnswers ⟨"a dog", "t2v"⟩
        demoWorld).1 := by
  refine ⟨?_, ?_, ?_⟩
  · rintro ⟨r, hr, _⟩
    have hlookup : (lookup (demoCache { rerankEnabled := false, videoSimilarityThreshold := none }) allReturn
        demoAnswers ⟨"a dog", "t2v"⟩ demoWorld).1.toOption.isSome = false := by decide +kernel
    rw [hr] at hlookup
    cases hlookup
  · rintro ⟨r, hr, hhit, _⟩
    have hlookup : (lookup (demoCache { rerankEnabled := false, maxSkipStep := 0 }) allReturn demoAnswers
        ⟨"a dog", "t2v"⟩ demoWorld).1.toOption.map LookupResult.hit = some true := by decide +kernel
    rw [hr] at hlookup
    obtain ⟨c, score, k, h⟩ := hhit.mp (Option.some.inj hlookup)
    have hle : k ≤ 0 := h.deepest.1.2.2.1
    have := deepest_pos h.deepest
    omega
  · rintro ⟨r, hr, hhit, hhint⟩
    have hlookup : (lookup { demoCache {} with reranker := some noNumber } allReturn demoAnswers
        ⟨"a dog", "t2v"⟩ demoWorld).1.toOption.map (fun r => (r.hit, r.matchedScore)) =
        some (true, some .nan) := by decide +kernel
    rw [hr] at hlookup
    obtain ⟨hit, hscore⟩ := Prod.mk.inj (Option.some.inj hlookup)
    obtain ⟨c, score, k, h⟩ := hhit.mp hit
    have hnan := (hhint c score k h).2.2
    rw [hscore, Option.some.injEq] at hnan
    have hreached := h.reached
    cases score with
    | some s => exact Score.ne_nan_of_le hreached hnan.symm
    | none => exact Score.ne_nan_of_le (hreached (1 / 10) rfl) hnan.symm

end CacheSeek.Proofs.LookupDecision
