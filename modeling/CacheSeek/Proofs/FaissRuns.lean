import CacheSeek.Proofs.FaissMap

namespace CacheSeek.Proofs.FaissRuns
open CacheSeek.Lib CacheSeek.Backends CacheSeek.Proofs.FaissMap

variable {V P : Type} {cfg : FaissConfig V P} {st : FaissStore V P} {c : String} {ix : Index V}
  {m : Metadata P}

structure Absent (st : FaissStore V P) (c : String) : Prop where
  index : st.memory.indices.get? c = none
  indexFile : st.disk.indexFiles.get? c = none
  metaFile : st.disk.metaFiles.get? c = none

/-- The collection is on disk, with its metadata or before it has any, and in memory the same or not. -/
structure Present (st : FaissStore V P) (c : String) (ix : Index V) (m : Metadata P) : Prop where
  indexFile : st.disk.indexFiles.get? c = some (.index ix)
  metaFile : st.disk.metaFiles.get? c = some (.metadata m) ∨ st.disk.metaFiles.get? c = none ∧ m = {}
  memory : st.memory.indices.get? c = none ∨
    st.memory.indices.get? c = some ix ∧ st.memory.metadata.get? c = some m

structure Loaded (st : FaissStore V P) (c : String) (ix : Index V) (m : Metadata P) : Prop where
  index : st.memory.indices.get? c = some ix
  metadata : st.memory.metadata.get? c = some m

structure SameAt (st st' : FaissStore V P) (c : String) : Prop where
  index : st'.memory.indices.get? c = st.memory.indices.get? c
  metadata : st'.memory.metadata.get? c = st.memory.metadata.get? c
  indexFile : st'.disk.indexFiles.get? c = st.disk.indexFiles.get? c
  metaFile : st'.disk.metaFiles.get? c = st.disk.metaFiles.get? c

theorem SameAt.refl (st : FaissStore V P) (c : String) : SameAt st st c := ⟨rfl, rfl, rfl, rfl⟩

theorem SameAt.trans {st' st'' : FaissStore V P} (h : SameAt st st' c) (h' : SameAt st' st'' c) :
    SameAt st st'' c :=
  ⟨h'.index.trans h.index, h'.metadata.trans h.metadata, h'.indexFile.trans h.indexFile,
    h'.metaFile.trans h.metaFile⟩

theorem Absent.sameAt {st' : FaissStore V P} (h : Absent st c) (hs : SameAt st st' c) : Absent st' c :=
  ⟨hs.index.trans h.index, hs.indexFile.trans h.indexFile, hs.metaFile.trans h.metaFile⟩

theorem Present.sameAt {st' : FaissStore V P} (h : Present st c ix m) (hs : SameAt st st' c) :
    Present st' c ix m := by
  refine ⟨hs.indexFile.trans h.indexFile, ?_, ?_⟩
  · rw [hs.metaFile]
    exact h.metaFile
  · rw [hs.index, hs.metadata]
    exact h.memory

theorem Present.metadata_eq {ix' : Index V} {m' : Metadata P} (h : Present st c ix m)
    (h' : Present st c ix' m') : m = m' := by
  rcases h.metaFile with hm | ⟨hm, rfl⟩ <;> rcases h'.metaFile with hm' | ⟨hm', rfl⟩
  · rw [hm] at hm'
    cases hm'
    rfl
  · rw [hm] at hm'
    cases hm'
  · rw [hm] at hm'
    cases hm'
  · rfl

/-- Reopening loses the memory, not the files. -/
theorem Present.forget (h : Present st c ix m) : Present { st with memory := {} } c ix m :=
  ⟨h.indexFile, h.metaFile, Or.inl rfl⟩

theorem Absent.forget (h : Absent st c) : Absent { st with memory := {} } c :=
  ⟨rfl, h.indexFile, h.metaFile⟩

theorem sameAt_setIndex {c' : String} (h : c' ≠ c) : SameAt st (st.setIndex c ix) c' :=
  ⟨Dict.get?_set_ne _ _ h, rfl, rfl, rfl⟩

theorem sameAt_setMetadata {c' : String} (h : c' ≠ c) : SameAt st (st.setMetadata c m) c' :=
  ⟨rfl, Dict.get?_set_ne _ _ h, rfl, rfl⟩

structure LoadedFrom (st st' : FaissStore V P) (c : String) (ix : Index V) (m : Metadata P) : Prop where
  loaded : Loaded st' c ix m
  disk : st'.disk = st.disk
  other : ∀ c', c' ≠ c → SameAt st st' c'

theorem loadIndex_absent (cfg : FaissConfig V P) (h : Absent st c) : loadIndex cfg st c = (.ok none, st) := by
  simp only [loadIndex, h.index, h.indexFile]

theorem loadIndex_loaded (cfg : FaissConfig V P) (h : Loaded st c ix m) : loadIndex cfg st c = (.ok (some ix), st) := by
  simp only [loadIndex, h.index]

/-- Loading changes the memory only. -/
theorem loadIndex_present (cfg : FaissConfig V P) (h : Present st c ix m) :
    ∃ st', loadIndex cfg st c = (.ok (some ix), st') ∧ LoadedFrom st st' c ix m := by
  rcases h.memory with hnone | ⟨hindex, hmeta⟩
  · have hset : ∀ m, LoadedFrom st ((st.setIndex c ix).setMetadata c m) c ix m := fun m =>
      ⟨⟨Dict.get?_set_self _ _ _, Dict.get?_set_self _ _ _⟩, rfl,
        fun c' hc => (sameAt_setIndex hc).trans (sameAt_setMetadata hc)⟩
    have hfile : ∀ ix : Index V, (st.setIndex c ix).disk = st.disk := fun _ => rfl
    rcases h.metaFile with hm | ⟨hm, rfl⟩
    · exact ⟨_, by simp only [loadIndex, hnone, h.indexFile, hfile, hm], hset m⟩
    · exact ⟨_, by simp only [loadIndex, hnone, h.indexFile, hfile, hm], hset {}⟩
  · exact ⟨st, loadIndex_loaded cfg ⟨hindex, hmeta⟩, ⟨hindex, hmeta⟩, rfl, fun c' _ => SameAt.refl st c'⟩

def LoadsAs (cfg : FaissConfig V P) (st : FaissStore V P) (c : String) (ix : Index V) (m : Metadata P) : Prop :=
  ∃ st1, loadIndex cfg st c = (.ok (some ix), st1) ∧ LoadedFrom st st1 c ix m

theorem Loaded.loads (cfg : FaissConfig V P) (h : Loaded st c ix m) : LoadsAs cfg st c ix m :=
  ⟨st, loadIndex_loaded cfg h, h, rfl, fun c' _ => SameAt.refl st c'⟩

theorem Present.loadedFrom {st' : FaissStore V P} (h : Present st c ix m)
    (hl : LoadedFrom st st' c ix m) : Present st' c ix m := by
  refine ⟨?_, ?_, Or.inr ⟨hl.loaded.index, hl.loaded.metadata⟩⟩
  · rw [hl.disk]
    exact h.indexFile
  · rw [hl.disk]
    exact h.metaFile

/-- How far a save came: not at all, the index only, or both files. -/
inductive Saved (st st' : FaissStore V P) (c : String) (ix : Index V) (m : Metadata P) :
    Option SaveStep → Prop where
  | none (stop : SaveStep) (h : stop ≠ .replaceMeta)
      (index : st'.disk.indexFiles.get? c = st.disk.indexFiles.get? c)
      (metaFile : st'.disk.metaFiles.get? c = st.disk.metaFiles.get? c) : Saved st st' c ix m (some stop)
  | index (index : st'.disk.indexFiles.get? c = some (.index ix))
      (metaFile : st'.disk.metaFiles.get? c = st.disk.metaFiles.get? c) :
      Saved st st' c ix m (some .replaceMeta)
  | both (index : st'.disk.indexFiles.get? c = some (.index ix))
      (metaFile : st'.disk.metaFiles.get? c = some (.metadata m)) : Saved st st' c ix m none

theorem saveIndex_cases (stop : Option SaveStep) (hl : Loaded st c ix m)
    (hdumps : ∀ {p x}, m.payload.get? p = some x → cfg.reader.dumps x = true) :
    ∃ res st', saveIndex cfg stop st c ix = (res, st') ∧ st'.memory = st.memory ∧
      (∀ c', c' ≠ c → SameAt st st' c') ∧ Saved st st' c ix m stop ∧
      (stop = none → res = .ok ()) ∧ (stop ≠ none → ∃ e, res = .error e) := by
  have hany : m.payload.values.any (fun p => !cfg.reader.dumps p) = false := by
    rw [List.any_eq_false]
    intro x hx
    obtain ⟨p, hp⟩ := Dict.mem_values.mp hx
    simp [hdumps hp]
  have hm : (st.memory.metadata.get? c).getD {} = m := by rw [hl.metadata, Option.getD_some]
  simp only [saveIndex, hm, hany]
  cases stop with
  | none =>
    refine ⟨_, _, rfl, rfl, ?_, .both (Dict.get?_set_self _ _ _) (Dict.get?_set_self _ _ _), fun _ => rfl,
      fun h => absurd rfl h⟩
    intro c' hc
    exact ⟨rfl, rfl, Dict.get?_set_ne _ _ hc, Dict.get?_set_ne _ _ hc⟩
  | some stop =>
    cases stop with
    | writeIndex => exact ⟨_, _, rfl, rfl, fun c' _ => SameAt.refl st c', .none _ (by decide) rfl rfl,
        (fun h => by cases h), fun _ => ⟨_, rfl⟩⟩
    | writeMeta => exact ⟨_, _, rfl, rfl, fun c' _ => SameAt.refl st c', .none _ (by decide) rfl rfl,
        (fun h => by cases h), fun _ => ⟨_, rfl⟩⟩
    | replaceIndex => exact ⟨_, _, rfl, rfl, fun c' _ => SameAt.refl st c', .none _ (by decide) rfl rfl,
        (fun h => by cases h), fun _ => ⟨_, rfl⟩⟩
    | replaceMeta =>
      refine ⟨_, _, rfl, rfl, ?_, .index (Dict.get?_set_self _ _ _) rfl, (fun h => by cases h),
        fun _ => ⟨_, rfl⟩⟩
      intro c' hc
      exact ⟨rfl, rfl, Dict.get?_set_ne _ _ hc, rfl⟩

theorem Saved.congr {st' st'' : FaissStore V P} {stop : Option SaveStep} (h : Saved st' st'' c ix m stop)
    (hd : st'.disk = st.disk) : Saved st st'' c ix m stop := by
  cases h with
  | none stop h h1 h2 => exact .none stop h (by rw [h1, hd]) (by rw [h2, hd])
  | index h1 h2 => exact .index h1 (by rw [h2, hd])
  | both h1 h2 => exact .both h1 h2

/-- What an operation made of the collection `c`: `ix` and `m` in memory, and saved as far as `stop`. -/
structure Done (cfg : FaissConfig V P) (st st' : FaissStore V P) (c : String) (ix : Index V)
    (m : Metadata P) (stop : Option SaveStep) : Prop where
  loaded : Loaded st' c ix m
  other : ∀ c', c' ≠ c → SameAt st st' c'
  saved : Saved st st' c ix m stop

theorem saveIndex_done (cfg : FaissConfig V P) {st1 : FaissStore V P} (stop : Option SaveStep)
    (hl : LoadedFrom st st1 c ix m)
    (hdumps : ∀ {p x}, m.payload.get? p = some x → cfg.reader.dumps x = true) :
    ∃ res st', saveIndex cfg stop st1 c ix = (res, st') ∧ Done cfg st st' c ix m stop ∧
      (stop = none → res = .ok ()) ∧ (stop ≠ none → ∃ e, res = .error e) := by
  obtain ⟨res, st', he, hmem, hother, hsaved, hok, herr⟩ := saveIndex_cases stop hl.loaded hdumps
  refine ⟨res, st', he, ⟨⟨?_, ?_⟩, fun c' hc => (hl.other c' hc).trans (hother c' hc),
    hsaved.congr hl.disk⟩, hok, herr⟩
  · rw [hmem]
    exact hl.loaded.index
  · rw [hmem]
    exact hl.loaded.metadata

theorem loadedFrom_set {st1 : FaissStore V P} {ix0 : Index V} {m0 : Metadata P}
    (hl : LoadedFrom st st1 c ix0 m0) (ix : Index V) (m : Metadata P) :
    LoadedFrom st ((st1.setIndex c ix).setMetadata c m) c ix m :=
  ⟨⟨Dict.get?_set_self _ _ _, Dict.get?_set_self _ _ _⟩, hl.disk, fun c' hc =>
    (hl.other c' hc).trans ((sameAt_setIndex hc).trans (sameAt_setMetadata hc))⟩

theorem loadedFrom_new (st : FaissStore V P) (c : String) (ix : Index V) (m : Metadata P) :
    LoadedFrom st ((st.setIndex c ix).setMetadata c m) c ix m :=
  ⟨⟨Dict.get?_set_self _ _ _, Dict.get?_set_self _ _ _⟩, rfl, fun _ hc =>
    (sameAt_setIndex hc).trans (sameAt_setMetadata hc)⟩

def claimed (m : Metadata P) (ix : Index V) (p : String) : Int × Metadata P × Index V :=
  match m.idMap.get? p with
  | some i => (i, m, ix.removeIds [i])
  | none => (m.nextId, { m with nextId := m.nextId + 1, idMap := m.idMap.set p m.nextId }, ix)

/-- FAISS takes the selector, or there is nothing to remove for the point. -/
def Taken (cfg : FaissConfig V P) (m : Metadata P) (p : String) : Prop :=
  cfg.selectorTakesArrays = true ∨ m.idMap.get? p = none

theorem claimId_taken {p : String} (h : Taken cfg m p) (ix : Index V) :
    claimId cfg m ix p = .ok (claimed m ix p) := by
  unfold claimId claimed
  cases hp : m.idMap.get? p with
  | none => rfl
  | some i =>
    rcases h with htakes | hnone
    · simp only [removeIds, htakes, if_true, Except.map]
    · rw [hp] at hnone
      cases hnone

/-- A faiss that takes no array refuses the id of a known point. -/
theorem claimId_refused {p : String} (h : ¬ Taken cfg m p) (ix : Index V) :
    claimId cfg m ix p = .error .typeError := by
  rw [Taken, not_or, Bool.not_eq_true] at h
  unfold claimId
  cases hp : m.idMap.get? p with
  | none => exact absurd hp h.2
  | some i => simp only [removeIds, h.1, Bool.false_eq_true, if_false, Except.map]

def putIndex (cfg : FaissConfig V P) (ix : Index V) (m : Metadata P) (p : String) (v : V) : Index V :=
  (claimed m ix p).2.2.addWithId (claimed m ix p).1 (cfg.prepare v)

def putMetadata (ix : Index V) (m : Metadata P) (p : String) (payload : P) : Metadata P :=
  { (claimed m ix p).2.1 with payload := (claimed m ix p).2.1.payload.set p payload }

theorem claimed_d (m : Metadata P) (ix : Index V) (p : String) : (claimed m ix p).2.2.d = ix.d := by
  unfold claimed
  split <;> rfl

theorem claimed_payload (m : Metadata P) (ix : Index V) (p : String) :
    (claimed m ix p).2.1.payload = m.payload := by
  unfold claimed
  split <;> rfl

theorem upsertLoaded_done {st1 : FaissStore V P} (stop : Option SaveStep)
    (hl : LoadedFrom st st1 c ix m) (hd : ix.d = cfg.vectorDim)
    (hdumps : ∀ {p x}, m.payload.get? p = some x → cfg.reader.dumps x = true) {p : String}
    (htaken : Taken cfg m p) {v : V} (hv : cfg.space.dim v = cfg.vectorDim) {payload : P}
    (hpay : cfg.reader.dumps payload = true) :
    ∃ res st', upsertLoaded cfg stop st1 c p v payload ix = (res, st') ∧
      Done cfg st st' c (putIndex cfg ix m p v) (putMetadata ix m p payload) stop ∧
      (stop = none → res = .ok ()) ∧ (stop ≠ none → ∃ e, res = .error e) := by
  have hm : (st1.memory.metadata.get? c).getD {} = m := by rw [hl.loaded.metadata, Option.getD_some]
  have hd' : ¬ (claimed m ix p).2.2.d ≠ cfg.vectorDim := by rw [claimed_d, hd]; exact fun h => h rfl
  simp only [upsertLoaded, hm, claimId_taken htaken]
  rw [if_neg (by rw [hv]; exact fun h => h rfl), if_neg hd']
  have hset : LoadedFrom st (st1.setMetadata c m) c ix m :=
    ⟨⟨hl.loaded.index, Dict.get?_set_self _ _ _⟩, hl.disk, fun c' hc =>
      (hl.other c' hc).trans (sameAt_setMetadata hc)⟩
  refine saveIndex_done cfg stop (loadedFrom_set (loadedFrom_set hset _ _) (putIndex cfg ix m p v)
    (putMetadata ix m p payload)) ?_
  intro q x hq
  simp only [putMetadata, claimed_payload] at hq
  rw [Dict.get?_set] at hq
  split at hq
  · cases hq
    exact hpay
  · exact hdumps hq

/-- A vector of another dimension is refused, and so is a point whose vector cannot be removed. -/
theorem upsertLoaded_refused {st1 : FaissStore V P} (stop : Option SaveStep)
    (hl : LoadedFrom st st1 c ix m) {p : String} {v : V}
    (h : cfg.space.dim v ≠ cfg.vectorDim ∨ ¬ Taken cfg m p) (payload : P) :
    ∃ e st', upsertLoaded cfg stop st1 c p v payload ix = (.error e, st') ∧ LoadedFrom st st' c ix m := by
  have hm : (st1.memory.metadata.get? c).getD {} = m := by rw [hl.loaded.metadata, Option.getD_some]
  have hset : LoadedFrom st (st1.setMetadata c m) c ix m :=
    ⟨⟨hl.loaded.index, Dict.get?_set_self _ _ _⟩, hl.disk, fun c' hc =>
      (hl.other c' hc).trans (sameAt_setMetadata hc)⟩
  by_cases hv : cfg.space.dim v ≠ cfg.vectorDim
  · simp only [upsertLoaded, hm]
    rw [if_pos hv]
    exact ⟨_, _, rfl, hset⟩
  · have htaken := h.resolve_left hv
    simp only [upsertLoaded, hm, claimId_refused htaken]
    rw [if_neg hv]
    exact ⟨_, _, rfl, hset⟩

@[simp] theorem removeIds_nil (ix : Index V) : ix.removeIds [] = ix := by
  simp [Index.removeIds]

/-- A delete of unknown points removes no id. -/
theorem popPoints_ids (m : Metadata P) (ps : List String) :
    (popPoints m ps).2 = [] ↔ ∀ p ∈ ps, m.idMap.get? p = none := by
  have hmem := (popPoints_spec m ps).2.2.2
  rw [List.eq_nil_iff_forall_not_mem]
  constructor
  · intro h p hp
    by_contra hne
    obtain ⟨i, hi⟩ := Option.ne_none_iff_exists'.mp hne
    exact h i ((hmem i).mpr ⟨p, hp, hi⟩)
  · intro h i hi
    obtain ⟨p, hp, hpi⟩ := (hmem i).mp hi
    rw [h p hp] at hpi
    cases hpi

theorem popPoints_dumps (hdumps : ∀ {p x}, m.payload.get? p = some x → cfg.reader.dumps x = true)
    (ps : List String) {p : String} {x : P} (h : (popPoints m ps).1.payload.get? p = some x) :
    cfg.reader.dumps x = true := by
  rw [(popPoints_spec m ps).2.2.1] at h
  split at h
  · cases h
  · exact hdumps h

theorem delete_loads (stop : Option SaveStep) (h : LoadsAs cfg st c ix m)
    (hdumps : ∀ {p x}, m.payload.get? p = some x → cfg.reader.dumps x = true) {ps : List String}
    (htaken : ∀ p ∈ ps, Taken cfg m p) :
    ∃ res st', delete cfg stop st c ps = (res, st') ∧
      Done cfg st st' c (ix.removeIds (popPoints m ps).2) (popPoints m ps).1 stop ∧
      (stop = none → res = .ok ()) ∧ (stop ≠ none → ∃ e, res = .error e) := by
  obtain ⟨st1, hload, hl⟩ := h
  simp only [delete, hload, hl.loaded.metadata]
  by_cases hids : (popPoints m ps).2 = []
  · rw [if_pos hids, hids, removeIds_nil]
    refine saveIndex_done cfg stop ⟨⟨hl.loaded.index, Dict.get?_set_self _ _ _⟩, hl.disk, ?_⟩
      (popPoints_dumps hdumps ps)
    exact fun c' hc => (hl.other c' hc).trans (sameAt_setMetadata hc)
  · have htakes : cfg.selectorTakesArrays = true := by
      by_contra hno
      refine hids ((popPoints_ids m ps).mpr fun p hp => ?_)
      exact (htaken p hp).resolve_left hno
    simp only [if_neg hids, removeIds, htakes, if_true]
    refine saveIndex_done cfg stop ⟨⟨Dict.get?_set_self _ _ _, Dict.get?_set_self _ _ _⟩, hl.disk, ?_⟩
      (popPoints_dumps hdumps ps)
    exact fun c' hc => (hl.other c' hc).trans ((sameAt_setMetadata hc).trans (sameAt_setIndex hc))

/-- A delete that is refused has popped its points from memory, as one whose save fails at once. -/
theorem delete_refused (stop : Option SaveStep) (h : LoadsAs cfg st c ix m) {ps : List String}
    (hrefused : ∃ p ∈ ps, ¬ Taken cfg m p) :
    ∃ st', delete cfg stop st c ps = (.error .typeError, st') ∧
      Done cfg st st' c ix (popPoints m ps).1 (some .writeIndex) := by
  obtain ⟨st1, hload, hl⟩ := h
  obtain ⟨p, hp, hno⟩ := hrefused
  rw [Taken, not_or, Bool.not_eq_true] at hno
  have hids : (popPoints m ps).2 ≠ [] := fun h => hno.2 ((popPoints_ids m ps).mp h p hp)
  simp only [delete, hload, hl.loaded.metadata, if_neg hids, removeIds, hno.1, Bool.false_eq_true,
    if_false]
  refine ⟨_, rfl, ⟨hl.loaded.index, Dict.get?_set_self _ _ _⟩, ?_, .none _ (by decide) ?_ ?_⟩
  · exact fun c' hc => (hl.other c' hc).trans (sameAt_setMetadata hc)
  · exact congrArg (fun d : FaissDisk V P => d.indexFiles.get? c) hl.disk
  · exact congrArg (fun d : FaissDisk V P => d.metaFiles.get? c) hl.disk

theorem delete_done (cfg : FaissConfig V P) (stop : Option SaveStep) (h : Present st c ix m)
    (hdumps : ∀ {p x}, m.payload.get? p = some x → cfg.reader.dumps x = true) {ps : List String}
    (htaken : ∀ p ∈ ps, Taken cfg m p) :
    ∃ res st', delete cfg stop st c ps = (res, st') ∧
      Done cfg st st' c (ix.removeIds (popPoints m ps).2) (popPoints m ps).1 stop := by
  obtain ⟨res, st', he, hdone, _⟩ := delete_loads stop (loadIndex_present cfg h) hdumps htaken
  exact ⟨res, st', he, hdone⟩

theorem ensure_absent (cfg : FaissConfig V P) (stop : Option SaveStep) (h : Absent st c) :
    (cfg.supported = false ∧ ∃ e, ensureCollection cfg stop st c cfg.vectorDim = (.error e, st)) ∨
    (cfg.supported = true ∧ ∃ res st', ensureCollection cfg stop st c cfg.vectorDim = (res, st') ∧
      Done cfg st st' c ⟨cfg.vectorDim, []⟩ {} stop ∧
      (stop = none → res = .ok ()) ∧ (stop ≠ none → ∃ e, res = .error e)) := by
  have hsave := saveIndex_done cfg stop (loadedFrom_new st c ⟨cfg.vectorDim, []⟩ {})
    (fun hp => nomatch hp)
  simp only [ensureCollection, loadIndex_absent cfg h, FaissConfig.supported]
  cases cfg.indexType with
  | unsupported name => exact Or.inl ⟨rfl, _, rfl⟩
  | cosine => exact Or.inr ⟨rfl, hsave⟩
  | ip => exact Or.inr ⟨rfl, hsave⟩
  | l2 => exact Or.inr ⟨rfl, hsave⟩

/-- The collection `c` is what `pts` says. -/
def Holds (cfg : FaissConfig V P) (st : FaissStore V P) (c : String) (pts : Points V P) : Prop :=
  (Absent st c ∧ pts = fun _ => none) ∨
    ∃ ix m, Present st c ix m ∧ cfg.supported = true ∧ Represents cfg ix m pts

def Refines (cfg : FaissConfig V P) (st : FaissStore V P) (a : String → Points V P) : Prop :=
  ∀ c, Holds cfg st c (a c)

variable {a : String → Points V P} {pts : Points V P}

theorem Holds.sameAt {st' : FaissStore V P} (h : Holds cfg st c pts) (hs : SameAt st st' c) :
    Holds cfg st' c pts := by
  rcases h with ⟨h, hp⟩ | ⟨ix, m, h, hsup, hr⟩
  · exact Or.inl ⟨h.sameAt hs, hp⟩
  · exact Or.inr ⟨ix, m, h.sameAt hs, hsup, hr⟩

/-- A collection holds after reopening what its files held. -/
theorem Holds.forget (h : Holds cfg st c pts) : Holds cfg { st with memory := {} } c pts := by
  rcases h with ⟨h, hp⟩ | ⟨ix, m, h, hsup, hr⟩
  · exact Or.inl ⟨h.forget, hp⟩
  · exact Or.inr ⟨ix, m, h.forget, hsup, hr⟩

theorem refines_empty (cfg : FaissConfig V P) : Refines cfg ({} : FaissStore V P) fun _ _ => none :=
  fun _ => Or.inl ⟨⟨rfl, rfl, rfl⟩, rfl⟩

theorem Refines.forget (h : Refines cfg st a) : Refines cfg { st with memory := {} } a :=
  fun c => (h c).forget

/-- Loading shows what is stored already. -/
theorem Refines.load (h : Refines cfg st a) (c : String) : Refines cfg (loadIndex cfg st c).2 a := by
  intro c'
  rcases h c with ⟨hc, _⟩ | ⟨ix, m, hc, hsup, hr⟩
  · rw [loadIndex_absent cfg hc]
    exact h c'
  · obtain ⟨st', hload, hl⟩ := loadIndex_present cfg hc
    rw [hload]
    by_cases he : c' = c
    · subst c'
      exact Or.inr ⟨ix, m, hc.loadedFrom hl, hsup, hr⟩
    · exact (h c').sameAt (hl.other c' he)

/-- A finished operation, seen from memory and from disk. -/
theorem Done.present {st' : FaissStore V P} (h : Done cfg st st' c ix m none) : Present st' c ix m := by
  cases h.saved with
  | both h1 h2 => exact ⟨h1, Or.inl h2, Or.inr ⟨h.loaded.index, h.loaded.metadata⟩⟩

/-- What a crash leaves of a collection that was there: the old files, the new index with the old
metadata, or the new files. -/
theorem Done.crash {st' : FaissStore V P} {ix0 : Index V} {m0 : Metadata P} {stop : Option SaveStep}
    (h : Done cfg st st' c ix m stop) (h0 : Present st c ix0 m0) :
    (stop ≠ none ∧ stop ≠ some .replaceMeta ∧ Present { st' with memory := {} } c ix0 m0) ∨
    (stop = some .replaceMeta ∧ Present { st' with memory := {} } c ix m0) ∨
    (stop = none ∧ Present { st' with memory := {} } c ix m) := by
  cases h.saved with
  | none stop hne h1 h2 =>
    refine Or.inl ⟨Option.some_ne_none stop, fun he => hne (Option.some.inj he), ?_, ?_, Or.inl rfl⟩
    · exact h1.trans h0.indexFile
    · rw [h2]
      exact h0.metaFile
  | index h1 h2 =>
    refine Or.inr (Or.inl ⟨rfl, h1, ?_, Or.inl rfl⟩)
    rw [h2]
    exact h0.metaFile
  | both h1 h2 => exact Or.inr (Or.inr ⟨rfl, h1, Or.inl h2, Or.inl rfl⟩)

/-- The same for a collection that was not there. -/
theorem Done.crash_new {st' : FaissStore V P} {stop : Option SaveStep}
    (h : Done cfg st st' c ix {} stop) (h0 : Absent st c) :
    Absent { st' with memory := {} } c ∨ Present { st' with memory := {} } c ix {} := by
  cases h.saved with
  | none stop hne h1 h2 => exact Or.inl ⟨rfl, h1.trans h0.indexFile, h2.trans h0.metaFile⟩
  | index h1 h2 => exact Or.inr ⟨h1, Or.inr ⟨h2.trans h0.metaFile, rfl⟩, Or.inl rfl⟩
  | both h1 h2 => exact Or.inr ⟨h1, Or.inl h2, Or.inl rfl⟩

theorem Refines.update {st' : FaissStore V P} (h : Refines cfg st a)
    (hother : ∀ c', c' ≠ c → SameAt st st' c') (hc : Holds cfg st' c pts) :
    Refines cfg st' (Function.update a c pts) := by
  intro c'
  by_cases he : c' = c
  · subst c'
    rw [Function.update_self]
    exact hc
  · rw [Function.update_of_ne he]
    exact (h c').sameAt (hother c' he)

theorem Refines.same {st' : FaissStore V P} (h : Refines cfg st a)
    (hother : ∀ c', c' ≠ c → SameAt st st' c') (hc : Holds cfg st' c (a c)) : Refines cfg st' a := by
  have := h.update hother hc
  rwa [Function.update_eq_self] at this

/-- The vector of a point, with its new payload. -/
theorem represents_put (h : Represents cfg ix m pts) (p : String) (v : V) {payload : P}
    (hpay : cfg.reader.dumps payload = true) :
    Represents cfg (putIndex cfg ix m p v) (putMetadata ix m p payload)
      (Function.update pts p (some (v, payload))) := by
  have hget : ∀ d : Dict String P, ((d.set p payload).get? p).getD cfg.reader.empty = payload := fun d => by
    rw [Dict.get?_set_self, Option.getD_some]
  have hother : ∀ (d : Dict String P) q, q ≠ p → (d.set p payload).get? q = d.get? q := fun d q hq =>
    Dict.get?_set_ne _ _ hq
  have hdumps : ∀ (d : Dict String P) x, (d.set p payload).get? p = some x → cfg.reader.dumps x = true := by
    intro d x hx
    rw [Dict.get?_set_self] at hx
    cases hx
    exact hpay
  cases hp : m.idMap.get? p with
  | some i =>
    simp only [putIndex, putMetadata, claimed, hp]
    exact h.put hp v (hget _) (hother _) (hdumps _)
  | none =>
    -- the new id is dead until its vector is added
    have hclaim := h.claim hp
    have hremove : ix.removeIds [m.nextId] = ix := by
      unfold Index.removeIds
      rw [List.filter_eq_self.mpr]
      intro e he
      obtain ⟨q, _, _, hq, _⟩ := h.live (i := e.1) (u := e.2) he
      have := (h.fresh hq).2
      simp only [List.mem_singleton, decide_eq_true_eq]
      omega
    have hput := hclaim.put (p := p) (i := m.nextId) (Dict.get?_set_self _ _ _) v (hget m.payload)
      (hother m.payload) (hdumps m.payload)
    rw [hremove] at hput
    simp only [putIndex, putMetadata, claimed, hp]
    exact hput

theorem represents_delete (h : Represents cfg ix m pts) (ps : List String) :
    Represents cfg (ix.removeIds (popPoints m ps).2) (popPoints m ps).1
      (fun p => if p ∈ ps then none else pts p) := by
  obtain ⟨h1, h2, h3, _⟩ := popPoints_spec m ps
  refine h.remove ps h1 ?_ ?_ ?_ ?_
  · intro q i hq
    rw [h2] at hq
    split at hq
    · cases hq
    · exact hq
  · intro q hq
    rw [h2, if_neg hq]
  · intro q hq
    rw [h3, if_neg hq]
  · intro q x hq
    rw [h3] at hq
    split at hq
    · cases hq
    · exact hq

/-- A delete of which only the index was saved. -/
theorem represents_torn_delete (h : Represents cfg ix m pts) (ps : List String) :
    Represents cfg (ix.removeIds (popPoints m ps).2) m (fun p => if p ∈ ps then none else pts p) :=
  h.remove ps rfl id (fun _ _ => rfl) (fun _ _ => rfl) id

/-- A vector of the wrong dimension changes nothing. -/
theorem upsert_loads (stops : Option SaveStep × Option SaveStep) (h : LoadsAs cfg st c ix m)
    (hr : Represents cfg ix m pts) {p : String} {v : V}
    (htaken : cfg.space.dim v = cfg.vectorDim → Taken cfg m p) {payload : P} (hpay : cfg.reader.dumps payload = true) :
    (cfg.space.dim v ≠ cfg.vectorDim ∧ ∃ e st', upsert cfg stops st c p v payload = (.error e, st') ∧
      LoadedFrom st st' c ix m) ∨
    (cfg.space.dim v = cfg.vectorDim ∧ ∃ res st', upsert cfg stops st c p v payload = (res, st') ∧
      Done cfg st st' c (putIndex cfg ix m p v) (putMetadata ix m p payload) stops.2) := by
  obtain ⟨st1, hload, hl⟩ := h
  simp only [upsert, hload]
  by_cases hv : cfg.space.dim v = cfg.vectorDim
  · obtain ⟨res, st', he, hd, _⟩ := upsertLoaded_done stops.2 hl hr.size hr.dumps (htaken hv) hv hpay
    exact Or.inr ⟨hv, res, st', he, hd⟩
  · exact Or.inl ⟨hv, upsertLoaded_refused stops.2 hl (Or.inl hv) payload⟩

/-- An upsert that is refused only loads the collection. -/
theorem upsert_refused (stops : Option SaveStep × Option SaveStep) (h : LoadsAs cfg st c ix m)
    {p : String} {v : V} (hrefused : cfg.space.dim v ≠ cfg.vectorDim ∨ ¬ Taken cfg m p) (payload : P) :
    ∃ e st', upsert cfg stops st c p v payload = (.error e, st') ∧ LoadedFrom st st' c ix m := by
  obtain ⟨st1, hload, hl⟩ := h
  simp only [upsert, hload]
  exact upsertLoaded_refused stops.2 hl hrefused payload

theorem upsert_present (stops : Option SaveStep × Option SaveStep) (h : Present st c ix m)
    (hr : Represents cfg ix m pts) {p : String} {v : V}
    (htaken : cfg.space.dim v = cfg.vectorDim → Taken cfg m p) {payload : P} (hpay : cfg.reader.dumps payload = true) :
    (cfg.space.dim v ≠ cfg.vectorDim ∧ ∃ e st', upsert cfg stops st c p v payload = (.error e, st') ∧
      LoadedFrom st st' c ix m) ∨
    (cfg.space.dim v = cfg.vectorDim ∧ ∃ res st', upsert cfg stops st c p v payload = (res, st') ∧
      Done cfg st st' c (putIndex cfg ix m p v) (putMetadata ix m p payload) stops.2) :=
  upsert_loads stops (loadIndex_present cfg h) hr htaken hpay

/-- A collection that is missing is made first. -/
theorem upsert_absent (stop : Option SaveStep) (h : Absent st c) (hsup : cfg.supported = true) (p : String)
    (v : V) (payload : P) :
    ∃ st1, Done cfg st st1 c ⟨cfg.vectorDim, []⟩ {} none ∧
      upsert cfg (none, stop) st c p v payload = upsert cfg (none, stop) st1 c p v payload := by
  rcases ensure_absent cfg none h with ⟨hno, _⟩ | ⟨_, res, st1, he, hdone, hok, _⟩
  · rw [hsup] at hno
    cases hno
  · have hload := loadIndex_loaded cfg hdone.loaded
    refine ⟨st1, hdone, ?_⟩
    rw [hok rfl] at he
    simp only [upsert, loadIndex_absent cfg h, he, hload]

theorem Refines.ensured (h : Refines cfg st a) {st1 : FaissStore V P} (hc : Absent st c)
    (hsup : cfg.supported = true) (hd : Done cfg st st1 c ⟨cfg.vectorDim, []⟩ {} none) :
    Refines cfg st1 a := by
  apply h.same hd.other
  rcases h c with ⟨_, hpts⟩ | ⟨ix, m, hp, _⟩
  · rw [hpts]
    exact Or.inr ⟨_, _, hd.present, hsup, represents_empty⟩
  · exact absurd (hc.indexFile.symm.trans hp.indexFile) (by simp)

theorem loadedIds_loads (h : LoadsAs cfg st c ix m) : loadedIds cfg st c = m.idMap := by
  obtain ⟨st1, hload, hl⟩ := h
  simp only [loadedIds, hload, hl.loaded.metadata, Option.getD_some]

theorem taken_upsert (h : LoadsAs cfg st c ix m) {p : String} {v : V} {payload : P}
    (hfree : ¬ st.Refused cfg (.upsert c p v payload)) (hv : cfg.space.dim v = cfg.vectorDim) :
    Taken cfg m p := by
  by_contra hno
  rw [Taken, not_or, Bool.not_eq_true] at hno
  refine hfree ⟨hno.1, hv, ?_⟩
  rw [loadedIds_loads h]
  exact hno.2

theorem taken_delete (h : LoadsAs cfg st c ix m) {ps : List String}
    (hfree : ¬ st.Refused cfg (.delete c ps)) : ∀ p ∈ ps, Taken cfg m p := by
  intro p hp
  by_contra hno
  rw [Taken, not_or, Bool.not_eq_true] at hno
  refine hfree ⟨hno.1, p, hp, ?_⟩
  rw [loadedIds_loads h]
  exact hno.2

/-- In a new collection there is nothing to remove. -/
theorem taken_empty (cfg : FaissConfig V P) (p : String) : Taken cfg {} p := Or.inr rfl

/-- An upsert of a collection that is there. -/
theorem upsert_refines (h : Refines cfg st a) (hc : Present st c ix m) (hsup : cfg.supported = true)
    (hr : Represents cfg ix m (a c)) {p : String} {v : V}
    (htaken : cfg.space.dim v = cfg.vectorDim → Taken cfg m p) {payload : P}
    (hpay : cfg.reader.dumps payload = true) :
    Refines cfg (upsert cfg (none, none) st c p v payload).2
      (absStep cfg a (.upsert c p v payload)) := by
  rcases upsert_present (none, none) hc hr htaken hpay with ⟨hv, e, st', he, hl⟩ | ⟨hv, res, st', he, hd⟩
  · rw [he, absStep, if_neg (fun hn => hv hn.1)]
    exact h.same hl.other (Or.inr ⟨ix, m, hc.loadedFrom hl, hsup, hr⟩)
  · rw [he, absStep, if_pos ⟨hv, hsup⟩]
    exact h.update hd.other (Or.inr ⟨_, _, hd.present, hsup, represents_put hr p v hpay⟩)

/-- An operation that is not refused does to the collections what it should. -/
theorem step_refines (h : Refines cfg st a) {op : VectorOp V P} (hop : op.Json cfg)
    (hfree : ¬ st.Refused cfg op) : Refines cfg (st.step cfg op) (absStep cfg a op) := by
  cases op with
  | ensure c =>
    simp only [FaissStore.step, FaissStore.apply, absStep]
    rcases h c with ⟨hc, _⟩ | ⟨ix, m, hc, _⟩
    · rcases ensure_absent cfg none hc with ⟨_, e, he⟩ | ⟨hsup, res, st1, he, hd, _⟩
      · rw [he]
        exact h
      · rw [he]
        exact h.ensured hc hsup hd
    · obtain ⟨st', hload, _⟩ := loadIndex_present cfg hc
      have := h.load c
      simp only [hload] at this
      simp only [ensureCollection, hload]
      exact this
  | upsert c p v payload =>
    simp only [FaissStore.step, FaissStore.apply]
    rcases h c with ⟨hc, hpts⟩ | ⟨ix, m, hc, hsup, hr⟩
    · rcases ensure_absent cfg none hc with ⟨hno, e, he⟩ | ⟨hsup, _⟩
      · have hfalse : ¬ (cfg.space.dim v = cfg.vectorDim ∧ cfg.supported = true) := by simp [hno]
        simp only [upsert, loadIndex_absent cfg hc, he, absStep, if_neg hfalse]
        exact h
      · obtain ⟨st1, hd, heq⟩ := upsert_absent none hc hsup p v payload
        rw [heq]
        exact upsert_refines (h.ensured hc hsup hd) hd.present hsup (hpts ▸ represents_empty)
          (fun _ => taken_empty cfg p) hop
    · exact upsert_refines h hc hsup hr (taken_upsert (loadIndex_present cfg hc) hfree) hop
  | delete c ps =>
    simp only [FaissStore.step, FaissStore.apply, absStep]
    rcases h c with ⟨hc, hpts⟩ | ⟨ix, m, hc, hsup, hr⟩
    · have hsame : (fun p => if p ∈ ps then none else a c p) = a c := by
        funext p
        rw [hpts]
        split <;> rfl
      rw [hsame, Function.update_eq_self]
      simp only [Backends.delete, loadIndex_absent cfg hc]
      exact h
    · obtain ⟨res, st', he, hd⟩ := delete_done cfg none hc hr.dumps
        (taken_delete (loadIndex_present cfg hc) hfree)
      rw [he]
      exact h.update hd.other (Or.inr ⟨_, _, hd.present, hsup, represents_delete hr ps⟩)
  | search c v limit t =>
    have hload := h.load c
    simp only [FaissStore.step, FaissStore.apply, absStep, Backends.search]
    generalize loadIndex cfg st c = x at hload
    obtain ⟨e | _ | ix, st'⟩ := x
    · exact hload
    · exact hload
    · dsimp only
      split
      · exact hload
      · split
        · exact hload
        · exact hload
  | reopen => exact h.forget

/-- By the step lemma, along the list of calls. -/
theorem run_refines (h : Refines cfg st a) {ops : List (VectorOp V P)} (hops : ∀ op ∈ ops, op.Json cfg)
    (hfree : Unrefused cfg st ops) :
    Refines cfg (ops.foldl (FaissStore.step cfg) st) (ops.foldl (absStep cfg) a) := by
  induction ops generalizing st a with
  | nil => exact h
  | cons op ops ih =>
    obtain ⟨hop, hfree⟩ := hfree
    exact ih (step_refines h (hops op List.mem_cons_self) hop)
      (fun o ho => hops o (List.mem_cons_of_mem op ho)) hfree

/-- Whether a call is refused depends on the calls before it. -/
theorem unrefused_append {ops later : List (VectorOp V P)} :
    Unrefused cfg st (ops ++ later) ↔
      Unrefused cfg st ops ∧ Unrefused cfg (ops.foldl (FaissStore.step cfg) st) later := by
  induction ops generalizing st with
  | nil => simp [Unrefused]
  | cons op ops ih => simp only [List.cons_append, Unrefused, List.foldl_cons, ih, and_assoc]

/-- Where FAISS takes the selector nothing is refused. -/
theorem unrefused_of_takes (htakes : cfg.selectorTakesArrays = true) (st : FaissStore V P)
    (ops : List (VectorOp V P)) : Unrefused cfg st ops := by
  induction ops generalizing st with
  | nil => trivial
  | cons op ops ih =>
    refine ⟨fun hrefused => ?_, ih _⟩
    rw [hrefused.1] at htakes
    cases htakes

theorem search_present (hc : Present st c ix m) (hd : ix.d = cfg.vectorDim) {q : V}
    (hq : cfg.space.dim q = cfg.vectorDim) {limit : Nat} (hl : 0 < limit) (t : Option Rat)
    (hits : List (Int × V)) :
    (search cfg st c q limit t hits).1 = .ok (hits.filterMap (toResult cfg m (cfg.prepare q) t)) := by
  obtain ⟨st', hload, hlo⟩ := loadIndex_present cfg hc
  simp only [search, hload, hlo.loaded.metadata, Option.getD_some]
  rw [if_neg (by rw [hq]; exact fun h => h rfl), if_neg (by rw [hd]; omega)]

theorem Holds.search_ok {pts : Points V P} (h : Holds cfg st c pts) {q : V}
    (hq : cfg.space.dim q = cfg.vectorDim) {limit : Nat} (hl : 0 < limit) (t : Option Rat)
    (hits : List (Int × V)) : ∃ res, (search cfg st c q limit t hits).1 = .ok res := by
  rcases h with ⟨hc, _⟩ | ⟨ix, m, hc, _, hr⟩
  · exact ⟨[], by simp only [search, loadIndex_absent cfg hc]⟩
  · exact ⟨_, search_present hc hr.size hq hl t hits⟩

/-- A store that holds the points answers as they do. -/
theorem Holds.answers (h : Holds cfg st c pts) {q : V} (hq : cfg.space.dim q = cfg.vectorDim)
    {limit : Nat} (hl : 0 < limit) (t : Option Rat) (res : List (VectorSearchResult P)) :
    Answers cfg st c q limit t res ↔ PointsAnswer cfg pts q limit t res := by
  rcases h with ⟨hc, rfl⟩ | ⟨ix, m, hc, _, hr⟩
  · have hload := loadIndex_absent cfg hc
    have hempty : Best (cfg.closer q) limit (fun x : String × V × P => none = some x.2) [] :=
      ⟨List.nodup_nil, (fun x hx => nomatch hx), Nat.zero_le _, List.Pairwise.nil, fun y hy => nomatch hy⟩
    constructor
    · rintro ⟨hits, _, hres⟩
      simp only [search, hload, Except.ok.injEq] at hres
      exact ⟨[], hempty, hres.symm⟩
    · rintro ⟨picked, hbest, rfl⟩
      have hnil : picked = [] := List.eq_nil_iff_forall_not_mem.mpr fun x hx => nomatch hbest.mem x hx
      refine ⟨[], ?_, ?_⟩
      · intro ix hix
        rw [hload] at hix
        cases hix
      · simp only [search, hload, hnil, List.filterMap_nil]
  · obtain ⟨st', hload, _⟩ := loadIndex_present cfg hc
    rw [← hr.answer q limit t res]
    constructor
    · rintro ⟨hits, hhits, hres⟩
      rw [search_present hc hr.size hq hl, Except.ok.injEq] at hres
      exact ⟨hits, hhits ix (by rw [hload]), hres.symm⟩
    · rintro ⟨hits, hhits, hres⟩
      refine ⟨hits, ?_, by rw [search_present hc hr.size hq hl, hres]⟩
      intro ix' hix
      rw [hload, Except.ok.injEq, Option.some.injEq] at hix
      exact hix ▸ hhits

theorem Refines.follows (h : Refines cfg st a) : Follows cfg st a := by
  intro ops hops hfree c q limit t hl hq res
  exact (run_refines h hops hfree c).answers hq hl t res

end CacheSeek.Proofs.FaissRuns
