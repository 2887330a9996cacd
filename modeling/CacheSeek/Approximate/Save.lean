import CacheSeek.Approximate.Backends

namespace CacheSeek.Approximate
open CacheSeek.Lib CacheSeek.Prefix

variable {T F : Type} (S : VideoBasedApproximateCache T F) (faults : Faults)

def serializeValue (io : TorchIO T) (w : World) (step : Int) :
    LatentValue T → Except Failure Bytes × World
  | .tensor t =>
    match w.call faults (.serialize step) id with
    | (.error exc, w) => (.error exc, w)
    | (.ok _, w) => (.ok (io.save t), w)
  | .bytes b => (.ok b, w)
  | value => (.error ⟨"TypeError", "VideoApproxPayload.step_to_latents value must be Tensor or bytes; " ++
      "got step=" ++ pyInt step ++ " type=" ++ value.typeName⟩, { w with raised := w.raised + 1 })

/-- The loop over `to_kv_entries`: an entry is serialized when the one before it is stored.
`savedSteps` are those stored so far. -/
def putLatents (io : TorchIO T) (cacheId : String) :
    List (Int × LatentValue T) → List Int → World → Except Failure Unit × List Int × World
  | [], savedSteps, w => (.ok (), savedSteps, w)
  | (step, value) :: entries, savedSteps, w =>
    match serializeValue faults io w step value with
    | (.error exc, w) => (.error exc, savedSteps, w)
    | (.ok blob, w) =>
      match w.kvPut faults (kvKey cacheId step) blob with
      | (.error exc, w) => (.error exc, savedSteps, w)
      | (.ok _, w) =>
        match stepOfKey (kvKey cacheId step) with
        | none => (.error ⟨"ValueError", "invalid literal for int() with base 10"⟩, savedSteps, w)
        | some saved => putLatents io cacheId entries (savedSteps ++ [saved]) w

def removeEach (cacheId : String) : List Int → World → List String × World
  | [], w => ([], w)
  | step :: steps, w =>
    match w.kvRemove faults (kvKey cacheId step) with
    | (.ok _, w) => removeEach cacheId steps w
    | (.error exc, w) =>
      let (errors, w) := removeEach cacheId steps w
      (("kv remove failed cache_id=" ++ cacheId ++ " step=" ++ pyInt step ++ " type=" ++ exc.errType ++
        " err=" ++ exc.err) :: errors, w)

def removeSavedLatents (cacheId : String) (savedSteps : List Int) (w : World) :
    Except Failure Unit × World :=
  match removeEach faults cacheId savedSteps w with
  | ([], w) => (.ok (), w)
  | (errors, w) => (.error ⟨"RuntimeError", "VideoBasedApproximateCache latent cleanup failed: " ++
      "; ".intercalate errors⟩, w)

def rollbackVector (collection cacheId : String) (removeVector : Bool) (w : World) :
    List String × World :=
  if removeVector && S.hasVectorStore then
    match w.vectorDelete faults cacheId with
    | (.ok _, w) => ([], w)
    | (.error exc, w) => (["vector rollback failed collection=" ++ collection ++ " cache_id=" ++ cacheId ++
        " type=" ++ exc.errType ++ " err=" ++ exc.err], w)
  else ([], w)

def rollbackMetadata (cacheId : String) (removeMetadata : Bool) (w : World) : List String × World :=
  if removeMetadata then
    match w.removeCache faults cacheId with
    | (.ok _, w) => ([], w)
    | (.error exc, w) => (["metadata rollback failed cache_id=" ++ cacheId ++ " type=" ++ exc.errType ++
        " err=" ++ exc.err], w)
  else ([], w)

def rollbackCacheEntry (cacheId : String) (savedSteps : List Int) (collection : String)
    (removeVector removeMetadata : Bool) (w : World) : Except Failure Unit × World :=
  let (errors, w) := rollbackVector S faults collection cacheId removeVector w
  let (errors', w) := rollbackMetadata faults cacheId removeMetadata w
  let (res, w) := removeSavedLatents faults cacheId savedSteps w
  let errors := errors ++ errors' ++ (match res with | .ok _ => [] | .error exc => [exc.err])
  if errors = [] then (.ok (), w)
  else (.error ⟨"RuntimeError", "VideoBasedApproximateCache rollback failed cache_id=" ++ cacheId ++ ": " ++
    "; ".intercalate errors⟩, w)

/-- What the try block around the vector and metadata writes leaves: its result, and the flags
`vector_written` and `metadata_attempted`. -/
structure EmbedEnd where
  res : Except Failure Unit
  vectorWritten : Bool := false
  metadataAttempted : Bool := false
  world : World

def embedAndRegister (encodeVideo : List F → String → Option (List Rat)) (cacheId : String)
    (query : CacheQuery) (frames : List F) (savedSteps : List Int) (sizeMb : Rat) (numFrames : Int)
    (w : World) : EmbedEnd :=
  if frames.isEmpty then
    let (res, w) := removeSavedLatents faults cacheId savedSteps w
    { res := res, world := w }
  else
    match w.call faults .encodeVideo id with
    | (.error exc, w) => { res := .error exc, world := w }
    | (.ok _, w) =>
      let videoVec := (encodeVideo frames query.prompt).getD []
      if videoVec.isEmpty then
        let (res, w) := removeSavedLatents faults cacheId savedSteps w
        { res := res, world := w }
      else
        match w.call faults .ensureCollection id with
        | (.error exc, w) => { res := .error exc, world := w }
        | (.ok _, w) =>
          match w.upsert faults cacheId videoVec ⟨query.prompt, savedSteps, query.task⟩ with
          | (.error exc, w) => { res := .error exc, world := w }
          | (.ok _, w) =>
            let (res, w) := w.registerCache faults cacheId query.prompt savedSteps sizeMb numFrames
              "video_approximate_cache"
            { res := res, vectorWritten := true, metadataAttempted := true, world := w }

def saveEmbedding (cacheId : String) (query : CacheQuery) (outputs : ModelOutputs T F)
    (savedSteps : List Int) (sizeMb : Rat) (w : World) : Except Failure Unit × World :=
  let w := w.auditEmit (.saveStored cacheId query.task savedSteps sizeMb outputs.numFrames)
  if !S.hasVectorStore then removeSavedLatents faults cacheId savedSteps w
  else if (outputs.embeddingVideoFrames.getD []).isEmpty then
    removeSavedLatents faults cacheId savedSteps w
  else
    match S.videoEncoder with
    | none => removeSavedLatents faults cacheId savedSteps w
    | some encodeVideo =>
      let frames := outputs.embeddingVideoFrames.getD []
      let done := embedAndRegister faults encodeVideo cacheId query frames savedSteps sizeMb
        outputs.numFrames w
      match done.res with
      | .ok _ => (.ok (), done.world)
      | .error exc =>
        let collection := S.config.videoVectorCollection
        match rollbackCacheEntry S faults cacheId savedSteps collection done.vectorWritten
            done.metadataAttempted done.world with
        | (.error rollbackExc, w) => (.error ⟨"RuntimeError", "VideoBasedApproximateCache.save failed cache_id=" ++
            cacheId ++ " collection=" ++ collection ++ " err=" ++ exc.err ++ "; rollback_err=" ++
            rollbackExc.err⟩, w)
        | (.ok _, w) => (.error ⟨"RuntimeError", "VideoBasedApproximateCache.save failed cache_id=" ++ cacheId ++
            " collection=" ++ collection ++ " err=" ++ exc.err⟩, w)

/-- The latents to save: the requested steps in order, without those that have none. -/
def validLatents (outputs : ModelOutputs T F) : List (Int × LatentValue T) :=
  (sortedSet outputs.savedSteps).filterMap fun step =>
    match outputs.latentStatesDict.get? step with
    | none => none
    | some .none => none
    | some value => some (step, value)

def payloadToSave (cacheId : String) (latents : List (Int × LatentValue T)) : VideoApproxPayload T :=
  { cacheId := cacheId, stepToLatents := latents.foldl (fun d e => d.set e.1 e.2) ∅ }

/-- `save`; `cacheId` is what `_generate_cache_id` gives. -/
def save (cacheId : String) (query : CacheQuery) (outputs : ModelOutputs T F) (w : World) :
    Except Failure Unit × World :=
  if query.prompt = "" then (.ok (), w)
  else if outputs.latentStatesDict.entries.isEmpty || outputs.savedSteps.isEmpty then (.ok (), w)
  else
    let latents := validLatents outputs
    if latents.isEmpty then (.ok (), w)
    else
      match putLatents faults S.io cacheId latents [] w with
      | (.error exc, savedSteps, w) =>
        if savedSteps.isEmpty then
          (.error ⟨"RuntimeError", "VideoBasedApproximateCache.save failed during latent persistence cache_id=" ++
            cacheId ++ " err=" ++ exc.err⟩, w)
        else
          match removeSavedLatents faults cacheId savedSteps w with
          | (.error cleanupExc, w) => (.error ⟨"RuntimeError",
              "VideoBasedApproximateCache.save failed during latent persistence cache_id=" ++ cacheId ++
              " err=" ++ exc.err ++ "; cleanup_err=" ++ cleanupExc.err⟩, w)
          | (.ok _, w) => (.error ⟨"RuntimeError",
              "VideoBasedApproximateCache.save failed during latent persistence cache_id=" ++ cacheId ++
              " err=" ++ exc.err⟩, w)
      | (.ok _, savedSteps, w) =>
        if savedSteps.isEmpty then (.ok (), w)
        else
          let totalBytes := (payloadToSave cacheId latents).estimatedSizeBytes S.io
          saveEmbedding S faults cacheId query outputs savedSteps ((totalBytes : Rat) / (1024 * 1024)) w

end CacheSeek.Approximate
