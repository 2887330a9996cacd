import CacheSeek.Approximate.Lookup
import Mathlib.Algebra.Order.Ring.Rat
import Mathlib.Order.Bounds.Basic

namespace CacheSeek.Approximate
open CacheSeek.Lib CacheSeek.Prefix

structure Limits where
  similarity : Option Rat
  rerank : Rat
  skip : Int

namespace CacheConfig

variable (cfg : CacheConfig)

def limits : Limits := ⟨cfg.videoSimilarityThreshold, cfg.rerankScoreThreshold, cfg.maxSkipStep⟩

/-- With the defaults that `or` puts in the place of 0. -/
def applied : Limits := ⟨cfg.videoSimilarityThreshold, cfg.rerankThreshold, cfg.skipCap⟩

def limit : Nat := if cfg.rerankEnabled then (max 1 cfg.rerankTopK).toNat else 1

end CacheConfig

/-- The candidate reaches the threshold of its regime: the rerank score's, or the similarity's. -/
def Limits.Reached (l : Limits) (c : Candidate) : Option Score → Prop
  | some s => (l.rerank : Score) ≤ s
  | none => ∀ t : Rat, l.similarity = some t → (t : Score) ≤ c.similarity

/-- The deepest step a score allows. -/
def Tier (cfg : CacheConfig) (s : Score) (tier : Int) : Prop :=
  IsGreatest {K | ∃ tau : Rat, (K, tau) ∈ cfg.skipStepTauTable ∧ (tau : Score) ≤ s} tier

/-- The step is in reach: within the cap, and within the tier of a rerank score under the staircase. -/
def Allowed (cfg : CacheConfig) (l : Limits) (score : Option Score) (k : Int) : Prop :=
  0 < k ∧ k ≤ l.skip ∧
    ∀ s tier, score = some s → cfg.staircaseSkipEnabled = true → Tier cfg s tier → k ≤ tier

def Deepest (cfg : CacheConfig) (l : Limits) (score : Option Score) (savedSteps : List Int) (k : Int) : Prop :=
  IsGreatest {k | k ∈ savedSteps ∧ Allowed cfg l score k} k

variable {T F : Type} (S : VideoBasedApproximateCache T F)

structure Asked (query : CacheQuery) (queryVec : List Rat) : Prop where
  prompt : query.prompt ≠ ""
  store : S.hasVectorStore = true
  encoded : ∃ encode, S.promptEncoder = some encode ∧ encode query.prompt = some queryVec
  vector : queryVec ≠ []

/-- The most similar of the answers, the earlier first among equals; a NaN is the least similar. -/
def mostSimilar (cfg : CacheConfig) (answers : List Candidate) : List Candidate :=
  normalizeSearchResults ((answers.insertionSort fun a b => b.similarity.rank ≤ a.similarity.rank).take cfg.limit)

/-- The scores of the candidates, if there is a reranker and any text for it. -/
def Reranked (query : CacheQuery) (answers : List Candidate) (scores : List Score) : Prop :=
  S.config.rerankEnabled = true ∧ (∃ c ∈ mostSimilar S.config answers, candidateText c ≠ "") ∧
    ∃ scoreMm, S.reranker = some scoreMm ∧
      scoreMm query.prompt (rerankDocuments (mostSimilar S.config answers)) = .ok scores

/-- The chosen candidate and its rerank score, if it has one; a NaN is chosen only where no number is. -/
inductive Chosen (query : CacheQuery) (answers : List Candidate) : Candidate → Option Score → Prop
  | reranked (scores : List Score) (h : Reranked S query answers scores) (c : Candidate) (s : Score)
      (hmax : FirstMax (fun e => e.2.rank) ((mostSimilar S.config answers).zip scores) (c, s)) :
      Chosen query answers c (some s)
  | similar (h : ¬ ∃ scores, Reranked S query answers scores) (r : Candidate)
      (hmax : FirstMax (fun r : Candidate => r.similarity.rank) answers r) :
      Chosen query answers { r with cacheId := normalizeCacheId r.cacheId } none

/-- Under the limits `l` the candidate `c` with the score `score` is to be served at step `k`. -/
structure Serves (l : Limits) (search : List Rat → Nat → List Candidate) (query : CacheQuery)
    (kv : Dict String Bytes) (c : Candidate) (score : Option Score) (k : Int) : Prop where
  chosen : ∃ queryVec, Asked S query queryVec ∧
    Chosen S query (search queryVec S.config.limit) c score
  reached : l.Reached c score
  deepest : Deepest S.config l score c.savedSteps k
  stored : (kv.get? (kvKey c.cacheId k)).isSome = true

/-- The lookup has decided as configured: it has not raised, and it hits exactly with what is to be
served, at its step and with its score. -/
def Decides (search : List Rat → Nat → List Candidate) (query : CacheQuery) (kv : Dict String Bytes)
    (res : Except Failure (LookupResult T)) : Prop :=
  ∃ r, res = .ok r ∧
    (r.hit = true ↔ ∃ c score k, Serves S S.config.limits search query kv c score k) ∧
    ∀ c score k, Serves S S.config.limits search query kv c score k →
      r.resumeHint = some (.skipStep k) ∧ r.matchedCacheId = some c.cacheId ∧
        r.matchedScore = some (score.getD c.similarity)

def Comparable (answers : List Candidate) : Prop :=
  answers.length ≤ 1 ∨ ∀ r ∈ answers, r.similarity ≠ .nan

/-- A NaN that no gate stops: the first rerank score, or the similarity that is compared. -/
inductive Ungated (query : CacheQuery) (answers : List Candidate) : Candidate → Option Score → Prop
  | reranked (scores : List Score) (h : Reranked S query answers scores) (c : Candidate)
      (hfirst : ((mostSimilar S.config answers).zip scores).head? = some (c, .nan)) :
      Ungated query answers c (some .nan)
  | similar (c : Candidate) (h : Chosen S query answers c none) (hnan : c.similarity = .nan) :
      Ungated query answers c none

/-- The configurations and inputs on which `lookup` does so. -/
structure Settled (search : List Rat → Nat → List Candidate) (query : CacheQuery)
    (kv : Dict String Bytes) : Prop where
  floor : S.config.videoSimilarityThreshold = none → ∀ queryVec, Asked S query queryVec →
    ∀ c, ¬ Chosen S query (search queryVec S.config.limit) c none
  nan : ∀ queryVec, Asked S query queryVec → ∀ c score,
    Ungated S query (search queryVec S.config.limit) c score →
      (∀ k, Deepest S.config S.config.applied score c.savedSteps k → kv.get? (kvKey c.cacheId k) = none) ∧
      ∀ c score k, ¬ Serves S S.config.limits search query kv c score k
  skip : S.config.maxSkipStep = 0 → ∀ c score k, Serves S S.config.applied search query kv c score k →
    ∃ queryVec c score, Asked S query queryVec ∧ Ungated S query (search queryVec S.config.limit) c score
  rerank : S.config.rerankScoreThreshold = 0 → S.config.maxSkipStep ≠ 0 → ∀ c s k,
    s < ((4 / 5 : Rat) : Score) → Serves S S.config.limits search query kv c (some s) k →
    ∃ queryVec c score, Asked S query queryVec ∧ Ungated S query (search queryVec S.config.limit) c score

end CacheSeek.Approximate
