import CacheSeek.Service.Connections

namespace CacheSeek.Service
open CacheSeek.Lib CacheSeek.Lib.LazyFields CacheSeek.Approximate

namespace ConnectionManager

variable (config : ConnectionConfig) (storageDir : Option Path) {construct : Constructors}

def SharesEncoder : Prop :=
  (config.textEmbeddingModelPath = "" ∨ config.videoEmbeddingModelPath = "" ∨
    config.textEmbeddingModelPath = config.videoEmbeddingModelPath) ∧
  config.textEmbeddingDeviceId = config.videoEmbeddingDeviceId

instance : Decidable (SharesEncoder config) := inferInstanceAs (Decidable (_ ∧ _))

/-- The object that the constructor called for `field` gave. -/
def Constructed (construct : Constructors) (field : Field) (backend : Backend) (r : Option Handle) : Prop :=
  ∃ serial, construct field = .ok serial ∧ r = some ⟨serial, backend⟩

/-- What the configuration asks for, made by these constructors. A shared encoder has the settings
for text; only a reranker may be missing because its constructor raised. -/
def Fits (construct : Constructors) : Field → Option Handle → Prop
  | .vectorStore, r =>
    match vectorBackend config storageDir with
    | some backend => Constructed construct .vectorStore backend r
    | none => r = none
  | .kvStore, r => Constructed construct .kvStore (kvBackend config storageDir) r
  | .promptEncoder, r =>
    if config.textEmbeddingModelPath ≠ "" ∨ config.videoEmbeddingEnabled then
      Constructed construct .promptEncoder (promptEncoderBackend config) r
    else r = none
  | .videoEncoder, r =>
    if config.videoEmbeddingEnabled then
      if SharesEncoder config then Constructed construct .promptEncoder (promptEncoderBackend config) r
      else Constructed construct .videoEncoder (videoEncoderBackend config) r
    else r = none
  | .reranker, r =>
    if config.rerankEnabled then
      Constructed construct .reranker (rerankerBackend config) r ∨
        (∃ exc, construct .reranker = .error exc) ∧ r = none
    else r = none

variable {config storageDir}

theorem object_ok {field : Field} {backend : Backend} {h : Handle} (ho : object construct field backend = .ok h) :
    Constructed construct field backend (some h) := by
  simp only [object] at ho
  cases hc : construct field with
  | error e =>
    rw [hc] at ho
    cases ho
  | ok serial =>
    rw [hc] at ho
    cases ho
    exact ⟨serial, hc, rfl⟩

theorem map_object_ok {field : Field} {backend : Backend} {r : Option Handle}
    (ho : (object construct field backend).map some = .ok r) : Constructed construct field backend r := by
  cases hc : object construct field backend with
  | error e =>
    rw [hc] at ho
    cases ho
  | ok h =>
    rw [hc] at ho
    cases ho
    exact object_ok hc

theorem createVectorStore_fits {r : Option Handle} (h : createVectorStore config storageDir construct = .ok r) :
    Fits config storageDir construct .vectorStore r := by
  simp only [createVectorStore] at h
  simp only [Fits]
  cases hb : vectorBackend config storageDir with
  | none =>
    rw [hb] at h
    cases h
    rfl
  | some backend =>
    rw [hb] at h
    exact map_object_ok h

theorem createKvStore_fits {r : Option Handle} (h : createKvStore config storageDir construct = .ok r) :
    Fits config storageDir construct .kvStore r := by
  simp only [createKvStore] at h
  simp only [Fits]
  cases hc : construct .kvStore with
  | error exc =>
    rw [hc] at h
    split at h <;> simp_all
  | ok serial =>
    rw [hc] at h
    split at h
    · simp_all
    · simp_all
    · rename_i hserial
      cases hserial
      cases h
      exact ⟨_, hc, rfl⟩

theorem createPromptEncoder_fits {r : Option Handle} (h : createPromptEncoder config construct = .ok r) :
    Fits config storageDir construct .promptEncoder r := by
  simp only [createPromptEncoder] at h
  simp only [Fits]
  split at h
  · rename_i hc
    rw [if_pos hc]
    exact map_object_ok h
  · rename_i hc
    cases h
    rw [if_neg hc]

theorem servesVideo_prompt {h : Handle} (hb : h.backend = promptEncoderBackend config) :
    servesVideo config h = true ↔ SharesEncoder config := by
  simp only [servesVideo, hb, promptEncoderBackend, videoModelPath, orElse, Bool.and_eq_true,
    decide_eq_true_eq]
  refine and_congr_left fun _ => ?_
  by_cases ht : config.textEmbeddingModelPath = ""
  · by_cases hv : config.videoEmbeddingModelPath = "" <;> simp [ht, hv]
  · by_cases hv : config.videoEmbeddingModelPath = "" <;> simp [ht, hv]

theorem createVideoEncoder_fits {p r : Option Handle} (hp : createPromptEncoder config construct = .ok p)
    (h : createVideoEncoder config construct p = .ok r) : Fits config storageDir construct .videoEncoder r := by
  simp only [createVideoEncoder] at h
  simp only [Fits]
  split at h
  · rename_i hv
    have hprompt : Constructed construct .promptEncoder (promptEncoderBackend config) p := by
      simpa [Fits, hv] using @createPromptEncoder_fits _ storageDir _ _ hp
    obtain ⟨serial, hserial, rfl⟩ := hprompt
    rw [if_pos hv]
    have hserves := @servesVideo_prompt config ⟨serial, promptEncoderBackend config⟩ rfl
    by_cases hshare : SharesEncoder config
    · rw [if_pos hshare]
      simp only [Option.filter_some, hserves.mpr hshare, if_true, Except.ok.injEq] at h
      exact ⟨serial, hserial, h.symm⟩
    · rw [if_neg hshare]
      have hno := Bool.eq_false_iff.mpr (mt hserves.mp hshare)
      simp only [Option.filter_some, hno, Bool.false_eq_true, if_false] at h
      exact map_object_ok h
  · rename_i hv
    cases h
    rw [if_neg hv]

theorem createReranker_fits : Fits config storageDir construct .reranker (createReranker config construct) := by
  simp only [createReranker, Fits]
  split
  · cases ho : object construct .reranker (rerankerBackend config) with
    | error e =>
      refine .inr ⟨?_, rfl⟩
      cases hc : construct .reranker with
      | error exc => exact ⟨exc, rfl⟩
      | ok serial =>
        simp only [object, hc] at ho
        cases ho
    | ok h => exact .inl (object_ok ho)
  · rfl

theorem createEncoders_ok {p v k : Option Handle} (h : createEncoders config construct = .ok (p, v, k)) :
    createPromptEncoder config construct = .ok p ∧ createVideoEncoder config construct p = .ok v ∧
      createReranker config construct = k := by
  simp only [createEncoders] at h
  cases hp : createPromptEncoder config construct with
  | error e =>
    rw [hp] at h
    cases h
  | ok p' =>
    rw [hp] at h
    dsimp only at h
    cases hv : createVideoEncoder config construct p' with
    | error e =>
      rw [hv] at h
      cases h
    | ok v' =>
      rw [hv] at h
      cases h
      exact ⟨rfl, hv, rfl⟩

/-- What is created under the flag of an attribute is what the configuration asks for. -/
theorem create_fits {a : Field} {out : Field → Option Handle}
    (h : create config storageDir (flag a) construct = .ok out) : Fits config storageDir construct a (out a) := by
  cases a with
  | vectorStore =>
    cases hc : createVectorStore config storageDir construct with
    | error e =>
      simp only [flag, create, hc] at h
      cases h
    | ok r =>
      simp only [flag, create, hc] at h
      cases h
      exact createVectorStore_fits hc
  | kvStore =>
    cases hc : createKvStore config storageDir construct with
    | error e =>
      simp only [flag, create, hc] at h
      cases h
    | ok r =>
      simp only [flag, create, hc] at h
      cases h
      exact createKvStore_fits hc
  | promptEncoder | videoEncoder | reranker =>
    cases hc : createEncoders config construct with
    | error e =>
      simp only [flag, create, hc] at h
      cases h
    | ok r =>
      obtain ⟨p, v, k⟩ := r
      obtain ⟨hp, hv, rfl⟩ := createEncoders_ok hc
      simp only [flag, create, hc] at h
      cases h
      first
        | exact createPromptEncoder_fits hp
        | exact createVideoEncoder_fits hp hv
        | exact createReranker_fits

variable {θ : Type} [DecidableEq θ] {m m' : ConnectionManager θ}

theorem sound (hm : Reachable (step config storageDir) (init θ) m) : Sound layout m := sound_of_reachable hm

/-- What was built under a flag is what the configuration asks for, made in that step. -/
theorem built_fits {es : List (ConnectionEvent θ)} (hm : run (step config storageDir) (init θ) es = some m)
    {g : Flag} {out : Field → Option Handle} (hb : (g, out) ∈ m.built) :
    ∃ construct out', Builds (θ := θ) layout (create config storageDir) es g construct out' ∧
      ∀ a, flag a = g → Fits config storageDir construct a (out a) := by
  obtain ⟨construct, out', hbuilds, rfl⟩ := builds_of_built hm hb
  refine ⟨construct, out', hbuilds, ?_⟩
  rintro a rfl
  obtain ⟨_, _, _, _, _, _, _, _, _, hcreate⟩ := hbuilds
  change Fits config storageDir construct a (if layout.group a = flag a then out' a else none)
  rw [if_pos (show layout.group a = flag a from rfl)]
  exact create_fits hcreate

/-- While no shutdown is called, every getter returns what the one build of its
flag made, as the configuration asks, and nothing is built twice. -/
theorem getters_share_backends {fs es : List (ConnectionEvent θ)}
    (hm : run (step config storageDir) (init θ) fs = some m) (hopen : Open m)
    (hes : ∀ e ∈ es, e.opens = true) (hrun : run (step config storageDir) m es = some m') :
    (∀ t a b r, .get t b ∈ es → m'.phase t = .returned a r → r = m'.memory.value a ∧
      ∃ construct out, Builds layout (create config storageDir) (fs ++ es) (flag a) construct out ∧
        Fits config storageDir construct a r) ∧
    ∃ new, m'.built = m.built ++ new ∧ (new.map Prod.fst).Nodup := by
  have hs := sound ⟨fs, hm⟩
  constructor
  · intro t a b r hget hr
    obtain ⟨hvalue, out, hbuilt, hout⟩ := calls_agree hs hopen hes hrun hget hr
    obtain ⟨construct, out', hbuilds, hfits⟩ := built_fits (run_append.mpr ⟨m, hm, hrun⟩) hbuilt
    refine ⟨hvalue, construct, out', hbuilds, ?_⟩
    rw [hvalue, hout a rfl]
    exact hfits a rfl
  · obtain ⟨new, hnew, hnodup, -⟩ := built_run hs hopen hes hrun
    exact ⟨new, hnew, hnodup⟩

def noReranker : Constructors
  | .reranker => .error ⟨"OSError", "no weights"⟩
  | _ => .ok 1

/-- The manager's default configuration: two threads read the encoder and the missing reranker. -/
theorem getters_share_backends_local :
    ∃ m' : ConnectionManager Nat,
      run (step {} none) (init Nat) (.get 0 .promptEncoder :: List.replicate 11 (.step 0 noReranker) ++
        .get 1 .reranker :: List.replicate 2 (.step 1 noReranker)) = some m' ∧
      m'.phase 0 = .returned .promptEncoder (some ⟨1, promptEncoderBackend {}⟩) ∧
      m'.phase 1 = .returned .reranker none ∧
      (∀ t a b r, .get t b ∈ (.get 0 .promptEncoder :: List.replicate 11 (.step 0 noReranker) ++
          .get 1 .reranker :: List.replicate 2 (.step 1 noReranker) : List (ConnectionEvent Nat)) →
        m'.phase t = .returned a r → r = m'.memory.value a ∧
        ∃ construct out, Builds layout (create {} none) (.get 0 .promptEncoder ::
          List.replicate 11 (.step 0 noReranker) ++ .get 1 .reranker :: List.replicate 2 (.step 1 noReranker))
          (flag a) construct out ∧ Fits {} none construct a r) :=
  ⟨_, rfl, rfl, rfl, (@getters_share_backends _ _ _ _ _ _ [] _ rfl (fun _ => rfl) (by simp [Event.opens]) rfl).1⟩

/-- With video embedding on, the two encoders that getters return are one object
exactly when they are to run one model on one device. -/
theorem encoders_shared_iff {es : List (ConnectionEvent θ)}
    (hm : Reachable (step config storageDir) (init θ) m) (hopen : Open m)
    (hes : ∀ e ∈ es, e.opens = true) (hrun : run (step config storageDir) m es = some m')
    (hvideo : config.videoEmbeddingEnabled = true) {t u : θ} {p v : Option Handle} {a b : Field}
    (ht : .get t a ∈ es) (hp : m'.phase t = .returned .promptEncoder p)
    (hu : .get u b ∈ es) (hv : m'.phase u = .returned .videoEncoder v) :
    p = v ↔ (config.textEmbeddingModelPath = "" ∨ config.videoEmbeddingModelPath = "" ∨
        config.textEmbeddingModelPath = config.videoEmbeddingModelPath) ∧
      config.textEmbeddingDeviceId = config.videoEmbeddingDeviceId := by
  obtain ⟨hpm, out, hbuilt, hout⟩ := calls_agree (sound hm) hopen hes hrun ht hp
  obtain ⟨hvm, -⟩ := calls_agree (sound hm) hopen hes hrun hu hv
  rw [hout .promptEncoder rfl] at hpm
  rw [hout .videoEncoder rfl] at hvm
  obtain ⟨fs, hfs⟩ := hm
  obtain ⟨construct, _, _, hfits⟩ := built_fits (run_append.mpr ⟨m, hfs, hrun⟩) hbuilt
  have hpfits := hfits .promptEncoder rfl
  have hvfits := hfits .videoEncoder rfl
  rw [← hpm] at hpfits
  rw [← hvm] at hvfits
  simp only [Fits, hvideo, or_true, ↓reduceIte] at hpfits hvfits
  obtain ⟨serial, hserial, rfl⟩ := hpfits
  change _ ↔ SharesEncoder config
  split at hvfits
  · rename_i hshare
    obtain ⟨serial', hserial', rfl⟩ := hvfits
    rw [hserial] at hserial'
    cases hserial'
    exact iff_of_true rfl hshare
  · rename_i hshare
    obtain ⟨serial', _, rfl⟩ := hvfits
    refine iff_of_false ?_ hshare
    intro h
    have hb : promptEncoderBackend config = videoEncoderBackend config :=
      congrArg Handle.backend (Option.some.inj h)
    apply hshare
    rw [← servesVideo_prompt (h := ⟨serial, videoEncoderBackend config⟩) hb.symm]
    simp [servesVideo, videoEncoderBackend]

def twoDevices : ConnectionConfig := { textEmbeddingDeviceId := some 0, videoEmbeddingDeviceId := some 1 }

def distinct : Constructors
  | .promptEncoder => .ok 1
  | .videoEncoder => .ok 2
  | _ => .ok 3

def readEncoders : List (ConnectionEvent Nat) :=
  .get 0 .promptEncoder :: List.replicate 11 (.step 0 distinct) ++
    .get 1 .videoEncoder :: List.replicate 2 (.step 1 distinct)

theorem encoders_shared_iff_default :
    (∃ (m' : ConnectionManager Nat) (p v : Option Handle), run (step {} none) (init Nat) readEncoders = some m' ∧
      m'.phase 0 = .returned .promptEncoder p ∧ m'.phase 1 = .returned .videoEncoder v ∧ p = v) ∧
    ∃ (m' : ConnectionManager Nat) (p v : Option Handle),
      run (step twoDevices none) (init Nat) readEncoders = some m' ∧
      m'.phase 0 = .returned .promptEncoder p ∧ m'.phase 1 = .returned .videoEncoder v ∧ p ≠ v := by
  constructor
  · refine ⟨_, some ⟨1, promptEncoderBackend {}⟩, some ⟨1, promptEncoderBackend {}⟩, rfl, rfl, rfl, ?_⟩
    exact (encoders_shared_iff (t := 0) (u := 1) (a := .promptEncoder) (b := .videoEncoder)
      (Reachable.init _) (fun _ => rfl) (by decide) (show run (step {} none) (init Nat) readEncoders = some _ from rfl)
      rfl (by simp [readEncoders]) rfl (by simp [readEncoders]) rfl).mpr (by decide)
  · refine ⟨_, some ⟨1, promptEncoderBackend twoDevices⟩, some ⟨2, videoEncoderBackend twoDevices⟩, rfl, rfl, rfl, ?_⟩
    exact (encoders_shared_iff (t := 0) (u := 1) (a := .promptEncoder) (b := .videoEncoder)
      (Reachable.init _) (fun _ => rfl) (by decide)
      (show run (step twoDevices none) (init Nat) readEncoders = some _ from rfl)
      rfl (by simp [readEncoders]) rfl (by simp [readEncoders]) rfl).not.mpr (by decide)

/-- No store is lost or closed twice, whatever the order of getters and shutdowns: each that was
created is in use or was released by one shutdown, which closed it if it could be. -/
theorem stores_closed_once (hm : Reachable (step config storageDir) (init θ) m) :
    (m.released ++ m.held layout).Nodup ∧
    (∀ h, h ∈ m.builtHandles layout ↔ h ∈ m.released ∨ h ∈ m.held layout) ∧
    (closeCalls m).Nodup ∧ (∀ h, h ∈ closeCalls m ↔ h ∈ m.released ∧ hasClose h.backend = true) ∧
    (m.owner = none → m.held layout = [Field.vectorStore, .kvStore].filterMap m.memory.value) ∧
    (m.owner = none → m.memory.created .vectorStoreCreated = false →
      m.memory.created .kvStoreCreated = false → m.held layout = []) := by
  have hs := sound hm
  have hfree : m.owner = none → m.held layout = [Field.vectorStore, .kvStore].filterMap m.memory.value := by
    intro hfree
    rw [held_free hfree, settled_free hfree]
    rfl
  have hnodup : (m.released ++ m.held layout).Nodup := hs.accounted.nodup_iff.mp hs.fresh
  refine ⟨hnodup, fun h => ?_, (List.nodup_append.mp hnodup).1.filter _, fun h => List.mem_filter, hfree,
    fun ho hvector hkv => ?_⟩
  · rw [hs.accounted.mem_iff, List.mem_append]
  · have hset := settled_free ho
    have hv := hs.blank .vectorStore
    have hk := hs.blank .kvStore
    rw [hset] at hv hk
    rw [hfree ho]
    simp [hv hvector, hk hkv]

/-- Both stores are created, then a shutdown closes the one and drops the other. -/
def readStores : List (ConnectionEvent Nat) :=
  .get 0 .vectorStore :: List.replicate 9 (.step 0 fun _ => .ok 1) ++
    .get 0 .kvStore :: List.replicate 9 (.step 0 fun _ => .ok 2) ++
    .shutdown 1 :: List.replicate 11 (.step 1 fun _ => .ok 1)

theorem stores_closed_once_local :
    ∃ m : ConnectionManager Nat,
      run (step { vectorStoreType := "qdrant" } none) (init Nat) readStores = some m ∧
      m.released = [⟨1, .qdrant "" none⟩, ⟨2, .localFile "storage"⟩] ∧
      closeCalls m = [⟨1, .qdrant "" none⟩] ∧ (m.released ++ m.held layout).Nodup :=
  ⟨_, rfl, rfl, rfl, (stores_closed_once
    (show Reachable (step { vectorStoreType := "qdrant" } none) (init Nat) _ from ⟨readStores, rfl⟩)).1⟩

theorem rank_le (hm : Reachable (step config storageDir) (init θ) m) (t : θ) :
    (m.phase t).rank layout ≤ 11 := by
  refine hm.invariant (I := fun m => ∀ t, (m.phase t).rank layout ≤ 11) ?_
    (fun t => by simp [init, State.init, Phase.rank]) t
  intro m e m' hm he u
  have hfields : ∀ a, (layout.fields (layout.group a)).length ≤ 3 := by
    intro a
    cases a <;> decide
  cases step_cases he with
  | get t a hf =>
    by_cases hut : u = t
    · subst u
      have := hfields a
      simp only [State.move_phase, Function.update_self, Phase.rank]
      omega
    · simpa [Function.update_of_ne hut] using hm u
  | shutdown t hf =>
    by_cases hut : u = t
    · subst u
      simp [Phase.rank, layout]
    · simpa [Function.update_of_ne hut] using hm u
  | step t input _ hadv =>
    obtain ⟨hlt, hother⟩ := rank_advance rfl hadv
    by_cases hut : u = t
    · subst u
      exact hlt.le.trans (hm _)
    · rw [hother u hut]
      exact hm u

/-- When every constructor raises, there is nothing that could have been created. -/
theorem create_all_raise {e : Failure} {g : Flag} {out : Field → Option Handle}
    (h : create config storageDir g (fun _ => .error e) = .ok out) : ∀ a, out a = none := by
  have hraise : ∀ (field : Field) (backend : Backend) (r : Option Handle),
      (object (fun _ => .error e) field backend).map some ≠ .ok r := by
    intro field backend r hr
    cases hr
  cases g with
  | vectorStoreCreated =>
    simp only [create, createVectorStore] at h
    cases hb : vectorBackend config storageDir with
    | none =>
      rw [hb] at h
      cases h
      exact fun _ => rfl
    | some backend =>
      rw [hb] at h
      cases h
  | kvStoreCreated =>
    simp only [create, createKvStore] at h
    split at h
    · cases h
    · cases h
    · rename_i hserial
      cases hserial
  | encodersCreated =>
    cases hc : createEncoders config fun _ => .error e with
    | error e' =>
      simp only [create, hc] at h
      cases h
    | ok r =>
      obtain ⟨p, v, k⟩ := r
      obtain ⟨hp, hv, rfl⟩ := createEncoders_ok hc
      simp only [create, hc] at h
      cases h
      simp only [createPromptEncoder] at hp
      split at hp
      · exact absurd hp (hraise _ _ _)
      · rename_i hno
        have hvideo : config.videoEmbeddingEnabled = false := by
          rw [Bool.eq_false_iff]
          exact fun h => hno (.inr h)
        simp only [createVideoEncoder, hvideo, Bool.false_eq_true, ↓reduceIte] at hv
        cases hp
        cases hv
        have hk : createReranker config (fun _ => .error e) = none := by
          simp only [createReranker, object]
          split <;> rfl
        intro a
        cases a <;> simp [hk]

omit [DecidableEq θ] in
theorem create_accepts (hs : Sound layout m) (g : Flag) :
    ∃ construct : Constructors, Accepts layout (create config storageDir) m g construct := by
  refine ⟨fun _ => .error ⟨"RuntimeError", ""⟩, ?_⟩
  unfold Accepts
  cases hc : create config storageDir g fun _ => .error ⟨"RuntimeError", ""⟩ with
  | error e => trivial
  | ok out =>
    have hnone : (fun b => if layout.group b = g then out b else none) = fun _ => none := by
      funext b
      rw [create_all_raise hc b, ite_self]
    dsimp only
    rw [hnone]
    simpa [Layout.handles] using hs.fresh

/-- Getters and shutdowns never wait for each other forever: each call takes at
most eleven steps, in any order, and all of them can be brought to an end. -/
theorem calls_finish (hm : Reachable (step config storageDir) (init θ) m) {ts : List θ}
    (hts : ∀ t, (m.phase t).finished = false → t ∈ ts) :
    (∀ (es : List (θ × Constructors)) m', run (step config storageDir) m (es.map fun e => .step e.1 e.2) = some m' →
      es.length ≤ 11 * ts.length ∧ ∀ t, es.countP (fun e => e.1 = t) ≤ 11) ∧
    ∃ (es : List (θ × Constructors)) (m' : ConnectionManager θ),
      run (step config storageDir) m (es.map fun e => .step e.1 e.2) = some m' ∧
      ∀ t, (m'.phase t).finished = true := by
  constructor
  · intro es m' hrun
    have hlen := (steps_bounded hts hrun).1
    have hrem : m.remaining layout ts ≤ 11 * ts.length := by
      have := List.sum_le_card_nsmul (ts.map fun t => (m.phase t).rank layout) 11 (by
        intro n hn
        obtain ⟨t, -, rfl⟩ := List.mem_map.mp hn
        exact rank_le hm t)
      simpa [State.remaining, Nat.mul_comm] using this
    refine ⟨by omega, fun t => ?_⟩
    have hcount := thread_steps_bounded t hrun
    have hrank := rank_le hm t
    omega
  · exact calls_end (fun s hs g => create_accepts hs g) (sound hm) hts

/-- Two readers of the store have called; the first one builds it while the other waits. -/
def twoReaders : List (Nat × Constructors) :=
  (1, fun _ => .ok 1) :: List.replicate 9 (0, fun _ => .ok 1) ++ List.replicate 4 (1, fun _ => .ok 2)

theorem calls_finish_one :
    let m := ((init Nat).move 0 (.check .kvStore)).move 1 (.check .kvStore)
    (∃ m' : ConnectionManager Nat, run (step {} none) m (twoReaders.map fun e => .step e.1 e.2) = some m' ∧
      twoReaders.length ≤ 11 * 2 ∧ twoReaders.countP (fun e => e.1 = 0) ≤ 11 ∧
      twoReaders.countP (fun e => e.1 = 1) ≤ 11 ∧
      m'.phase 0 = .returned .kvStore (some ⟨1, .localFile "storage"⟩) ∧
      m'.phase 1 = .returned .kvStore (some ⟨1, .localFile "storage"⟩)) ∧
    ∃ (es : List (Nat × Constructors)) (m' : ConnectionManager Nat),
      run (step {} none) m (es.map fun e => .step e.1 e.2) = some m' ∧ ∀ t, (m'.phase t).finished = true := by
  intro m
  have hm : Reachable (step {} none) (init Nat) m := ⟨[.get 0 .kvStore, .get 1 .kvStore], rfl⟩
  have hts : ∀ t, (m.phase t).finished = false → t ∈ [0, 1] := by
    intro t ht
    match t with
    | 0 | 1 => simp
    | _ + 2 => cases ht
  obtain ⟨hbound, hend⟩ := calls_finish hm hts
  have hb := hbound twoReaders _ rfl
  exact ⟨⟨_, rfl, hb.1, hb.2 0, hb.2 1, rfl, rfl⟩, hend⟩

end ConnectionManager

end CacheSeek.Service
