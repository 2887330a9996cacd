import CacheSeek.Approximate.Backends
import CacheSeek.Backends.Faiss

namespace CacheSeek.Approximate
open CacheSeek.Lib CacheSeek.Prefix

abbrev Candidate := Backends.VectorSearchResult VectorPayload Score

inductive ResumeHint where
  | skipStep (k : Int)
  | noOp (reason : String)
  | other (typeName : String)
  deriving DecidableEq, Repr

structure LookupResult (T : Type) where
  hit : Bool
  payload : Option (VideoApproxPayload T) := none
  resumeHint : Option ResumeHint := none
  matchedCacheId : Option String := none
  matchedScore : Option Score := none
  matchedSimilarity : Option Score := none
  cachedPrompt : Option String := none
  missReason : Option String := none

namespace LookupResult

variable {T : Type}

def miss : LookupResult T := { hit := false }

def hitSkipStep (payload : VideoApproxPayload T) (k : Int) (cacheId : String) (score similarity : Score)
    (cachedPrompt : String) : LookupResult T :=
  { hit := true, payload := some payload, resumeHint := some (.skipStep k),
    matchedCacheId := some cacheId, matchedScore := some score,
    matchedSimilarity := some similarity, cachedPrompt := some cachedPrompt }

end LookupResult

def normalizeCacheId (cacheId : String) : String := String.ofList (cacheId.toList.filter (· ≠ '-'))

def normalizeSearchResults (results : List Candidate) : List Candidate :=
  results.map fun r => { r with cacheId := normalizeCacheId r.cacheId }

def candidateText (r : Candidate) : String := if r.prompt = "" then r.payload.prompt else r.prompt

/-- The documents of `_build_rerank_documents`; a candidate without a text has none. -/
def rerankDocuments (results : List Candidate) : List (Option String) :=
  results.map fun r => if candidateText r = "" then none else some (candidateText r)

namespace CacheConfig

variable (cfg : CacheConfig)

/-- `rerank_top_k` as `lookup` passes it on. -/
def topK : Int :=
  if cfg.rerankEnabled then (if cfg.rerankTopK = 0 then 1 else cfg.rerankTopK) else 1

/-- `float(config.rerank_score_threshold or 0.80)`. -/
def rerankThreshold : Rat := if cfg.rerankScoreThreshold = 0 then 4 / 5 else cfg.rerankScoreThreshold

/-- `int(config.max_skip_step or 5)`. -/
def skipCap : Int := if cfg.maxSkipStep = 0 then 5 else cfg.maxSkipStep

def selectKByScore (rerankScore : Score) : Option Int :=
  if !cfg.staircaseSkipEnabled then none
  else if cfg.skipStepTauTable.isEmpty then none
  else ((cfg.skipStepTauTable.filter fun e => (e.2 : Score) ≤ rerankScore).map Prod.fst).max?

/-- The `cap` of `_determine_skip_step`. -/
def stepCap : Option Score → Int
  | none => cfg.skipCap
  | some rerankScore =>
    match cfg.selectKByScore rerankScore with
    | none => cfg.skipCap
    | some tierK => min cfg.skipCap tierK

def determineSkipStep (savedSteps : List Int) (rerankScore : Option Score) : Int :=
  if savedSteps.isEmpty then 0
  else ((savedSteps.filter fun s => 0 < s ∧ s ≤ cfg.stepCap rerankScore).max?).getD 0

end CacheConfig

/-- `_vector_search` on what the store answers. With a NaN among several similarities this is one of the
orders that `sort` may give. -/
def vectorSearch (search : List Rat → Nat → List Candidate) (queryVec : List Rat) (topK : Int) :
    List Candidate :=
  let topK := (max 1 (if topK = 0 then 1 else topK)).toNat
  let res := search queryVec topK
  (res.insertionSort fun a b => ¬ a.similarity < b.similarity).take topK

structure Choice where
  result : Candidate
  hitScore : Score
  skipStep : Int

variable {T F : Type} (S : VideoBasedApproximateCache T F)

def chooseBySimilarity (cfg : CacheConfig) (result : Candidate) : Except Failure (Option Choice) :=
  match cfg.videoSimilarityThreshold with
  | none => .error ⟨"TypeError", "'<' not supported between instances of 'float' and 'NoneType'"⟩
  | some threshold =>
    if result.similarity < (threshold : Score) then .ok none
    else
      let skipStep := cfg.determineSkipStep result.savedSteps none
      if skipStep ≤ 0 then .ok none else .ok (some ⟨result, result.similarity, skipStep⟩)

def rerankScores (query : String) (results : List Candidate) : Except Failure (Option (List Score)) :=
  match S.reranker with
  | none => .ok none
  | some scoreMm =>
    let documents := rerankDocuments results
    if !documents.any Option.isSome then .ok none
    else
      match scoreMm query documents with
      | .error exc => .error ⟨"RuntimeError", "VideoBasedApproximateCache text rerank failed err_type=" ++
          exc.errType ++ " err=" ++ exc.err⟩
      | .ok scores =>
        if scores.isEmpty || scores.length ≠ results.length then
          .error ⟨"ValueError", "VideoBasedApproximateCache rerank invalid scores size=" ++
            Nat.repr scores.length ++ " expected=" ++ Nat.repr results.length⟩
        else .ok (some scores)

def chooseByRerank (cfg : CacheConfig) (results : List Candidate) (scores : List Score) : Option Choice :=
  if scores.length ≠ results.length then none
  else
    match results.zip scores with
    | [] => none
    | first :: rest =>
      let best := rest.foldl (keepMax Prod.snd) first
      if best.2 < (cfg.rerankThreshold : Score) then none
      else
        let skipStep := cfg.determineSkipStep best.1.savedSteps (some best.2)
        if skipStep ≤ 0 then none else some ⟨best.1, best.2, skipStep⟩

def choose (query : String) (results : List Candidate) : Except Failure (Option Choice) :=
  match results with
  | [] => .ok none
  | first :: _ =>
    if S.config.rerankEnabled then
      match rerankScores S query results with
      | .error exc => .error exc
      | .ok none => chooseBySimilarity S.config first
      | .ok (some scores) => .ok (chooseByRerank S.config results scores)
    else chooseBySimilarity S.config first

variable (faults : Faults)

/-- `_lazy_evict_stale_entry`: exceptions are logged only. -/
def lazyEvictStaleEntry (cacheId : String) (w : World) : World :=
  let w := if S.hasVectorStore then (w.vectorDelete faults cacheId).2 else w
  (w.removeCache faults cacheId).2

/-- `_load_payload` of the step. -/
def loadPayload (cacheId : String) (step : Int) (w : World) :
    Except Failure (Option (VideoApproxPayload T)) × World :=
  match w.kvGet faults (kvKey cacheId step) with
  | (.error exc, w) => (.error ⟨"RuntimeError", "Cache payload load failed cache_id=" ++ cacheId ++
      " steps=(" ++ pyInt step ++ ",) type=" ++ exc.errType ++ " err=" ++ exc.err⟩, w)
  | (.ok data, w) =>
    let payload := VideoApproxPayload.fromKvLoader cacheId (fun _ => data) (.single step)
    if payload.stepToLatents.entries.isEmpty then (.ok none, w) else (.ok (some payload), w)

def serve (query : CacheQuery) (c : Choice) (w : World) : Except Failure (LookupResult T) × World :=
  match loadPayload faults c.result.cacheId c.skipStep w with
  | (.error exc, w) => (.error exc, w)
  | (.ok none, w) =>
    let w := w.auditEmit
      (.kvMissingAfterVectorHit c.result.cacheId c.skipStep c.result.similarity c.hitScore)
    (.ok .miss, lazyEvictStaleEntry S faults c.result.cacheId w)
  | (.ok (some payload), w) =>
    match w.recordAccess faults c.result.cacheId with
    | (.error exc, w) => (.error exc, w)
    | (.ok _, w) =>
      (.ok (.hitSkipStep payload c.skipStep c.result.cacheId c.hitScore c.result.similarity
        c.result.prompt),
        w.auditEmit (.lookupHit c.result.cacheId query.task c.skipStep c.result.similarity c.hitScore))

/-- `lookup`; `search` is what the vector store answers. -/
def lookup (search : List Rat → Nat → List Candidate) (query : CacheQuery) (w : World) :
    Except Failure (LookupResult T) × World :=
  if query.prompt = "" then (.ok .miss, w)
  else if !S.hasVectorStore then (.ok .miss, w)
  else
    match S.promptEncoder with
    | none => (.ok .miss, w)
    | some encode =>
      match w.call faults .encodePrompt id with
      | (.error exc, w) => (.error exc, w)
      | (.ok _, w) =>
        let queryVec := (encode query.prompt).getD []
        if queryVec.isEmpty then (.ok .miss, w)
        else
          match w.call faults .vectorSearch id with
          | (.error exc, w) => (.error exc, w)
          | (.ok _, w) =>
            let results := normalizeSearchResults (vectorSearch search queryVec S.config.topK)
            match choose S query.prompt results with
            | .error exc => (.error exc, w)
            | .ok none => (.ok .miss, w)
            | .ok (some c) => serve S faults query c w

structure LatentData (T : Type) where
  hit : Bool
  skipStep : Int
  cachedLatent : Option T
  savedSteps : List Int

/-- `_extract_latent`: a missing step is no latent. -/
def extractLatent (io : TorchIO T) (r : LookupResult T) (k : Int) : Except Failure (Option T) :=
  match r.payload with
  | none => .ok none
  | some payload =>
    match payload.getLatentAtStep io k with
    | .ok t => .ok (some t)
    | .error exc => if exc.errType = "KeyError" then .ok none else .error exc

/-- `_extract_saved_steps`; this payload has no `saved_steps`. -/
def extractSavedSteps (defaultSavedSteps : List Int) (r : LookupResult T) : List Int :=
  match r.payload with
  | none => defaultSavedSteps
  | some payload =>
    if payload.stepToLatents.entries.isEmpty then defaultSavedSteps
    else payload.stepToLatents.keys.insertionSort (· ≤ ·)

def missDict (defaultSavedSteps : List Int) : LatentData T := ⟨false, 0, none, defaultSavedSteps⟩

def applyResume (io : TorchIO T) (defaultSavedSteps : List Int) (r : LookupResult T) :
    Except Failure (LatentData T) :=
  if !r.hit then .ok (missDict defaultSavedSteps)
  else
    match r.resumeHint with
    | none => .ok (missDict defaultSavedSteps)
    | some (.skipStep k) =>
      match extractLatent io r k with
      | .error exc => .error exc
      | .ok latent => .ok ⟨true, k, latent, extractSavedSteps defaultSavedSteps r⟩
    | some (.noOp _) => .ok (missDict defaultSavedSteps)
    | some (.other typeName) => .error ⟨"UnsupportedResumeHint",
        "FrameworkAdapter 'telefuser' does not support " ++ typeName ++ "; supported: ['SkipStep', 'NoOp']"⟩

end CacheSeek.Approximate
