import CacheSeek.Proofs.FaissStoreMap

namespace CacheSeek.Proofs.FaissFailedLoad
open CacheSeek.Lib CacheSeek.Backends CacheSeek.Proofs.FaissRuns CacheSeek.Proofs.FaissStoreMap

variable {V P : Type} {cfg : FaissConfig V P} {st st' : FaissStore V P} {c : String}

/-- A call, with what the index would answer and the steps at which its saves fail. -/
inductive FaissCall (V P : Type) where
  | search (collection : String) (vector : V) (limit : Nat) (scoreThreshold : Option Rat) (hits : List (Int × V))
  | upsert (collection pointId : String) (vector : V) (payload : P) (stops : Option SaveStep × Option SaveStep)
  | delete (collection : String) (pointIds : List String) (stop : Option SaveStep)
  | ensure (collection : String) (vectorDim : Nat) (stop : Option SaveStep)
  | getVectorSize (collection : String)

inductive FaissAnswer (P : Type) where
  | done
  | results (results : List (VectorSearchResult P))
  | size (size : Option Nat)

def FaissCall.collection : FaissCall V P → String
  | .search c _ _ _ _ => c
  | .upsert c _ _ _ _ => c
  | .delete c _ _ => c
  | .ensure c _ _ => c
  | .getVectorSize c => c

def FaissCall.run (cfg : FaissConfig V P) (st : FaissStore V P) :
    FaissCall V P → Except VectorStoreError (FaissAnswer P) × FaissStore V P
  | .search c v limit t hits =>
    let r := Backends.search cfg st c v limit t hits
    (r.1.map .results, r.2)
  | .upsert c p v payload stops =>
    let r := Backends.upsert cfg stops st c p v payload
    (r.1.map fun _ => .done, r.2)
  | .delete c ps stop =>
    let r := Backends.delete cfg stop st c ps
    (r.1.map fun _ => .done, r.2)
  | .ensure c dim stop =>
    let r := ensureCollection cfg stop st c dim
    (r.1.map fun _ => .done, r.2)
  | .getVectorSize c =>
    let r := Backends.getVectorSize cfg st c
    (r.1.map .size, r.2)

/-- Every call loads its collection first. -/
theorem run_load_error {call : FaissCall V P} {e : VectorStoreError} (hc : call.collection = c)
    (hload : loadIndex cfg st c = (.error e, st')) : call.run cfg st = (.error e, st') := by
  cases call <;> subst hc <;>
    simp only [FaissCall.collection] at hload <;>
    simp only [FaissCall.run, Backends.search, Backends.upsert, Backends.delete, ensureCollection,
      Backends.getVectorSize, hload, Except.map]

theorem sameAt_set (st : FaissStore V P) {c' : String} (h : c ≠ c') (ix : Index V) (m : Metadata P) :
    SameAt st ((st.setIndex c' ix).setMetadata c' m) c :=
  (sameAt_setIndex h).trans (sameAt_setMetadata h)

theorem loadIndex_other (cfg : FaissConfig V P) (st : FaissStore V P) {c' : String} (h : c ≠ c') :
    SameAt st (loadIndex cfg st c').2 c := by
  unfold loadIndex
  split
  · exact SameAt.refl st c
  · split
    · exact SameAt.refl st c
    · exact SameAt.refl st c
    · dsimp only
      split
      · exact sameAt_set st h _ _
      · exact sameAt_setIndex h
      · exact sameAt_setIndex h
      · exact sameAt_setIndex h
      · exact sameAt_setIndex h
      · exact sameAt_set st h _ _

theorem saveIndex_other (cfg : FaissConfig V P) (stop : Option SaveStep) (st : FaissStore V P) {c' : String}
    (h : c ≠ c') (ix : Index V) :
    SameAt st (saveIndex cfg stop st c' ix).2 c := by
  unfold saveIndex
  dsimp only
  split
  · exact SameAt.refl st c
  · split
    · exact SameAt.refl st c
    · split
      · exact SameAt.refl st c
      · split
        · exact ⟨rfl, rfl, Dict.get?_set_ne _ _ h, rfl⟩
        · exact ⟨rfl, rfl, Dict.get?_set_ne _ _ h, Dict.get?_set_ne _ _ h⟩

theorem ensureCollection_other (cfg : FaissConfig V P) (stop : Option SaveStep) (st : FaissStore V P) {c' : String}
    (h : c ≠ c') (dim : Nat) :
    SameAt st (ensureCollection cfg stop st c' dim).2 c := by
  have hload := loadIndex_other cfg st h
  unfold ensureCollection
  split
  · rename_i hl
    rw [hl] at hload
    exact hload
  · rename_i hl
    rw [hl] at hload
    exact hload
  · rename_i st1 hl
    rw [hl] at hload
    split
    · exact hload
    · exact hload.trans ((sameAt_set st1 h _ _).trans (saveIndex_other cfg stop _ h _))

theorem upsertLoaded_other (cfg : FaissConfig V P) (stop : Option SaveStep) (st : FaissStore V P) {c' : String}
    (h : c ≠ c') (p : String) (v : V)
    (payload : P) (ix : Index V) : SameAt st (upsertLoaded cfg stop st c' p v payload ix).2 c := by
  unfold upsertLoaded
  dsimp only
  split
  · exact sameAt_setMetadata h
  · split
    · exact sameAt_setMetadata h
    · split
      · exact (sameAt_setMetadata h).trans (sameAt_set _ h _ _)
      · exact ((sameAt_setMetadata h).trans (sameAt_set _ h _ _)).trans
          ((sameAt_set _ h _ _).trans (saveIndex_other cfg stop _ h _))

theorem delete_other (cfg : FaissConfig V P) (stop : Option SaveStep) (st : FaissStore V P) {c' : String} (h : c ≠ c')
    (ps : List String) : SameAt st (Backends.delete cfg stop st c' ps).2 c := by
  have hload := loadIndex_other cfg st h
  unfold Backends.delete
  generalize loadIndex cfg st c' = x at hload
  obtain ⟨e | _ | ix, st1⟩ := x
  · exact hload
  · exact hload
  · dsimp only
    split
    · exact hload.trans (saveIndex_other cfg stop st1 h ix)
    · rename_i m _
      have hset : SameAt st (st1.setMetadata c' (popPoints m ps).1) c := hload.trans (sameAt_setMetadata h)
      split
      · exact hset.trans (saveIndex_other cfg stop _ h ix)
      · split
        · exact hset
        · exact hset.trans ((sameAt_setIndex h).trans (saveIndex_other cfg stop _ h _))

/-- A call reads and writes its own collection. -/
theorem run_other (cfg : FaissConfig V P) {call : FaissCall V P} (st : FaissStore V P) (h : c ≠ call.collection) :
    SameAt st (call.run cfg st).2 c := by
  have hload := loadIndex_other cfg st h
  cases call with
  | search c' v limit t hits =>
    simp only [FaissCall.run, Backends.search]
    simp only [FaissCall.collection] at hload
    generalize loadIndex cfg st c' = x at hload
    obtain ⟨e | _ | ix, st1⟩ := x
    · exact hload
    · exact hload
    · dsimp only
      split
      · exact hload
      · split
        · exact hload
        · exact hload
  | upsert c' p v payload stops =>
    simp only [FaissCall.run, Backends.upsert]
    simp only [FaissCall.collection] at hload h
    generalize loadIndex cfg st c' = x at hload
    obtain ⟨e | _ | ix, st1⟩ := x
    · exact hload
    · have hensure := hload.trans (ensureCollection_other cfg stops.1 st1 h cfg.vectorDim)
      dsimp only
      generalize ensureCollection cfg stops.1 st1 c' cfg.vectorDim = y at hensure
      obtain ⟨e | _, st2⟩ := y
      · exact hensure
      · have hload' := hensure.trans (loadIndex_other cfg st2 h)
        dsimp only
        generalize loadIndex cfg st2 c' = z at hload'
        obtain ⟨e | _ | ix, st3⟩ := z
        · exact hload'
        · exact hload'
        · exact hload'.trans (upsertLoaded_other cfg stops.2 st3 h p v payload ix)
    · exact hload.trans (upsertLoaded_other cfg stops.2 st1 h p v payload ix)
  | delete c' ps stop => exact delete_other cfg stop st h ps
  | ensure c' dim stop => exact ensureCollection_other cfg stop st h dim
  | getVectorSize c' =>
    simp only [FaissCall.run, Backends.getVectorSize]
    simp only [FaissCall.collection] at hload
    generalize loadIndex cfg st c' = x at hload
    obtain ⟨e | _ | ix, st1⟩ := x <;> exact hload

theorem sameAt_setIndex_both (h : SameAt st st' c) (ix : Index V) : SameAt (st.setIndex c ix) (st'.setIndex c ix) c :=
  ⟨by rw [FaissStore.setIndex, FaissStore.setIndex, Dict.get?_set_self, Dict.get?_set_self], h.metadata, h.indexFile,
    h.metaFile⟩

theorem sameAt_setMetadata_both (h : SameAt st st' c) (m : Metadata P) :
    SameAt (st.setMetadata c m) (st'.setMetadata c m) c :=
  ⟨h.index, by rw [FaissStore.setMetadata, FaissStore.setMetadata, Dict.get?_set_self, Dict.get?_set_self],
    h.indexFile, h.metaFile⟩

def Agree {α : Type} (c : String) (r r' : α × FaissStore V P) : Prop := r'.1 = r.1 ∧ SameAt r.2 r'.2 c

/-- Both calls return the same and differ in other collections only. -/
theorem Agree.split {α : Type} {r r' : α × FaissStore V P} (h : Agree c r r') :
    ∃ x t t', r = (x, t) ∧ r' = (x, t') ∧ SameAt t t' c :=
  ⟨r.1, r.2, r'.2, rfl, Prod.ext h.1 rfl, h.2⟩

theorem loadIndex_agree (cfg : FaissConfig V P) (h : SameAt st st' c) :
    Agree c (loadIndex cfg st c) (loadIndex cfg st' c) := by
  have hset : ∀ (ix : Index V) m, SameAt ((st.setIndex c ix).setMetadata c m) ((st'.setIndex c ix).setMetadata c m) c :=
    fun ix m => sameAt_setMetadata_both (sameAt_setIndex_both h ix) m
  unfold loadIndex
  rw [h.index]
  cases st.memory.indices.get? c with
  | some ix => exact ⟨rfl, h⟩
  | none =>
    rw [h.indexFile]
    cases st.disk.indexFiles.get? c with
    | none => exact ⟨rfl, h⟩
    | some file =>
      cases file with
      | unreadable errType err => exact ⟨rfl, h⟩
      | index ix =>
        have hfiles : (st'.setIndex c ix).disk.metaFiles.get? c = (st.setIndex c ix).disk.metaFiles.get? c := h.metaFile
        dsimp only
        rw [hfiles]
        cases (st.setIndex c ix).disk.metaFiles.get? c with
        | none => exact ⟨rfl, hset ix {}⟩
        | some file =>
          cases file with
          | metadata m => exact ⟨rfl, hset ix m⟩
          | _ => exact ⟨rfl, sameAt_setIndex_both h ix⟩

theorem saveIndex_agree (cfg : FaissConfig V P) (stop : Option SaveStep) (h : SameAt st st' c) (ix : Index V) :
    Agree c (saveIndex cfg stop st c ix) (saveIndex cfg stop st' c ix) := by
  unfold saveIndex
  rw [h.metadata]
  dsimp only
  split
  · exact ⟨rfl, h⟩
  · split
    · exact ⟨rfl, h⟩
    · split
      · exact ⟨rfl, h⟩
      · split
        · exact ⟨rfl, h.index, h.metadata, by rw [Dict.get?_set_self, Dict.get?_set_self], h.metaFile⟩
        · exact ⟨rfl, h.index, h.metadata, by rw [Dict.get?_set_self, Dict.get?_set_self],
            by rw [Dict.get?_set_self, Dict.get?_set_self]⟩

theorem ensureCollection_agree (cfg : FaissConfig V P) (stop : Option SaveStep) (h : SameAt st st' c) (dim : Nat) :
    Agree c (ensureCollection cfg stop st c dim) (ensureCollection cfg stop st' c dim) := by
  obtain ⟨res, st1, st1', hload, hload', hsame⟩ := (loadIndex_agree cfg h).split
  unfold ensureCollection
  rw [hload, hload']
  obtain e | _ | ix := res
  · exact ⟨rfl, hsame⟩
  · dsimp only
    split
    · exact ⟨rfl, hsame⟩
    · exact saveIndex_agree cfg stop (sameAt_setMetadata_both (sameAt_setIndex_both hsame _) _) _
  · exact ⟨rfl, hsame⟩

theorem upsertLoaded_agree (cfg : FaissConfig V P) (stop : Option SaveStep) (h : SameAt st st' c) (p : String) (v : V)
    (payload : P)
    (ix : Index V) :
    Agree c (upsertLoaded cfg stop st c p v payload ix) (upsertLoaded cfg stop st' c p v payload ix) := by
  unfold upsertLoaded
  rw [h.metadata]
  dsimp only
  have hset := sameAt_setMetadata_both h ((st.memory.metadata.get? c).getD {})
  split
  · exact ⟨rfl, hset⟩
  · split
    · exact ⟨rfl, hset⟩
    · split
      · exact ⟨rfl, sameAt_setMetadata_both (sameAt_setIndex_both hset _) _⟩
      · exact saveIndex_agree cfg stop
          (sameAt_setMetadata_both
            (sameAt_setIndex_both (sameAt_setMetadata_both (sameAt_setIndex_both hset _) _) _) _) _

theorem upsert_agree (cfg : FaissConfig V P) (stops : Option SaveStep × Option SaveStep) (h : SameAt st st' c)
    (p : String) (v : V) (payload : P) :
    Agree c (Backends.upsert cfg stops st c p v payload) (Backends.upsert cfg stops st' c p v payload) := by
  obtain ⟨res, st1, st1', hload, hload', hsame⟩ := (loadIndex_agree cfg h).split
  unfold Backends.upsert
  rw [hload, hload']
  obtain e | _ | ix := res
  · exact ⟨rfl, hsame⟩
  · obtain ⟨res, st2, st2', hensure, hensure', hsame⟩ := (ensureCollection_agree cfg stops.1 hsame cfg.vectorDim).split
    dsimp only
    rw [hensure, hensure']
    obtain e | _ := res
    · exact ⟨rfl, hsame⟩
    · obtain ⟨res, st3, st3', hload, hload', hsame⟩ := (loadIndex_agree cfg hsame).split
      dsimp only
      rw [hload, hload']
      obtain e | _ | ix := res
      · exact ⟨rfl, hsame⟩
      · exact ⟨rfl, hsame⟩
      · exact upsertLoaded_agree cfg stops.2 hsame p v payload ix
  · exact upsertLoaded_agree cfg stops.2 hsame p v payload ix

theorem delete_agree (cfg : FaissConfig V P) (stop : Option SaveStep) (h : SameAt st st' c) (ps : List String) :
    Agree c (Backends.delete cfg stop st c ps) (Backends.delete cfg stop st' c ps) := by
  obtain ⟨res, st1, st1', hload, hload', hsame⟩ := (loadIndex_agree cfg h).split
  unfold Backends.delete
  rw [hload, hload']
  obtain e | _ | ix := res
  · exact ⟨rfl, hsame⟩
  · exact ⟨rfl, hsame⟩
  · dsimp only
    rw [hsame.metadata]
    split
    · exact saveIndex_agree cfg stop hsame ix
    · rename_i m _
      have hset := sameAt_setMetadata_both hsame (popPoints m ps).1
      split
      · exact saveIndex_agree cfg stop hset ix
      · split
        · exact ⟨rfl, hset⟩
        · exact saveIndex_agree cfg stop (sameAt_setIndex_both hset _) _

/-- A call answers by what its own collection has. -/
theorem run_agree (cfg : FaissConfig V P) {call : FaissCall V P} (hc : call.collection = c) (h : SameAt st st' c) :
    Agree c (call.run cfg st) (call.run cfg st') := by
  obtain ⟨res, st1, st1', hload, hload', hsame⟩ := (loadIndex_agree cfg h).split
  cases call with
  | search c' v limit t hits =>
    subst hc
    simp only [FaissCall.run, FaissCall.collection, Backends.search] at hload hload' hsame ⊢
    rw [hload, hload']
    obtain e | _ | ix := res
    · exact ⟨rfl, hsame⟩
    · exact ⟨rfl, hsame⟩
    · dsimp only
      rw [hsame.metadata]
      split
      · exact ⟨rfl, hsame⟩
      · split
        · exact ⟨rfl, hsame⟩
        · exact ⟨rfl, hsame⟩
  | upsert c' p v payload stops =>
    subst hc
    obtain ⟨hres, hsame⟩ := upsert_agree cfg stops h p v payload
    exact ⟨congrArg (Except.map fun _ => FaissAnswer.done) hres, hsame⟩
  | delete c' ps stop =>
    subst hc
    obtain ⟨hres, hsame⟩ := delete_agree cfg stop h ps
    exact ⟨congrArg (Except.map fun _ => FaissAnswer.done) hres, hsame⟩
  | ensure c' dim stop =>
    subst hc
    obtain ⟨hres, hsame⟩ := ensureCollection_agree cfg stop h dim
    exact ⟨congrArg (Except.map fun _ => FaissAnswer.done) hres, hsame⟩
  | getVectorSize c' =>
    subst hc
    simp only [FaissCall.run, FaissCall.collection, Backends.getVectorSize] at hload hload' hsame ⊢
    rw [hload, hload']
    obtain e | _ | ix := res <;> exact ⟨rfl, hsame⟩

structure NotLoaded (st : FaissStore V P) (c : String) : Prop where
  index : st.memory.indices.get? c = none
  metadata : st.memory.metadata.get? c = none

def runCalls (cfg : FaissConfig V P) (st : FaissStore V P) (calls : List (FaissCall V P)) : FaissStore V P :=
  calls.foldl (fun st call => (call.run cfg st).2) st

/-- Whatever is called, the collection fails as it did at first and its files stay as they
are; over other files the instance answers as a new one. -/
def Forgotten (cfg : FaissConfig V P) (st : FaissStore V P) (c : String) (e : VectorStoreError) : Prop :=
  ∀ calls : List (FaissCall V P), ∀ call : FaissCall V P, call.collection = c →
    (call.run cfg (runCalls cfg st calls)).1 = .error e ∧
    (call.run cfg (runCalls cfg st calls)).2.disk.indexFiles.get? c = st.disk.indexFiles.get? c ∧
    (call.run cfg (runCalls cfg st calls)).2.disk.metaFiles.get? c = st.disk.metaFiles.get? c ∧
    ∀ (repaired : FaissDisk V P) (later : List (FaissCall V P)),
      (call.run cfg (runCalls cfg { runCalls cfg st calls with disk := repaired } later)).1 =
        (call.run cfg (runCalls cfg { disk := repaired } later)).1

/-- Instances alike in a collection stay so, whatever both are asked. -/
theorem runCalls_alike (cfg : FaissConfig V P) (h : SameAt st st' c) (calls : List (FaissCall V P)) :
    SameAt (runCalls cfg st calls) (runCalls cfg st' calls) c := by
  induction calls generalizing st st' with
  | nil => exact h
  | cons call calls ih =>
    refine ih ?_
    by_cases hc : call.collection = c
    · exact (run_agree cfg hc h).2
    · have hst := run_other cfg st (Ne.symm hc)
      have hst' := run_other cfg st' (Ne.symm hc)
      exact ⟨(hst'.index.trans h.index).trans hst.index.symm,
        (hst'.metadata.trans h.metadata).trans hst.metadata.symm,
        (hst'.indexFile.trans h.indexFile).trans hst.indexFile.symm,
        (hst'.metaFile.trans h.metaFile).trans hst.metaFile.symm⟩

theorem loadIndex_sameAt_error {e : VectorStoreError} (h : SameAt st st' c)
    (hload : loadIndex cfg st c = (.error e, st)) (hindex : st.memory.indices.get? c = none)
    (hfile : ∃ errType err, st.disk.indexFiles.get? c = some (.unreadable errType err)) :
    loadIndex cfg st' c = (.error e, st') := by
  obtain ⟨errType, err, hfile⟩ := hfile
  simp only [loadIndex, hindex, hfile, Prod.mk.injEq, and_true] at hload
  simp only [loadIndex, h.index, h.indexFile, hindex, hfile, hload]

/-- While the index cannot be read nothing happens to the collection. -/
theorem runCalls_sameAt {e : VectorStoreError} (hload : loadIndex cfg st c = (.error e, st))
    (hindex : st.memory.indices.get? c = none)
    (hfile : ∃ errType err, st.disk.indexFiles.get? c = some (.unreadable errType err)) (calls : List (FaissCall V P)) :
    SameAt st (runCalls cfg st calls) c := by
  have hstep : ∀ (st' : FaissStore V P) (call : FaissCall V P), SameAt st st' c → SameAt st (call.run cfg st').2 c := by
    intro st' call h
    by_cases hc : call.collection = c
    · rw [run_load_error hc (loadIndex_sameAt_error h hload hindex hfile)]
      exact h
    · exact h.trans (run_other cfg st' (Ne.symm hc))
  suffices hrun : ∀ st', SameAt st st' c → SameAt st (runCalls cfg st' calls) c from hrun st (SameAt.refl st c)
  induction calls with
  | nil => exact fun st' h => h
  | cons call calls ih => exact fun st' h => ih _ (hstep st' call h)

/-- Nothing is remembered of a file that cannot be read. -/
theorem forgotten_of_unreadable {e : VectorStoreError} (hmem : NotLoaded st c)
    (hload : (loadIndex cfg st c).1 = .error e)
    (hfile : ∃ errType err, st.disk.indexFiles.get? c = some (.unreadable errType err)) : Forgotten cfg st c e := by
  have herror : loadIndex cfg st c = (.error e, st) := by
    obtain ⟨errType, err, hfile⟩ := hfile
    simp only [loadIndex, hmem.index, hfile] at hload ⊢
    rw [← hload]
  intro calls call hc
  have hsame := runCalls_sameAt herror hmem.index hfile calls
  have hrun := run_load_error hc (loadIndex_sameAt_error hsame herror hmem.index hfile)
  rw [hrun]
  refine ⟨rfl, hsame.indexFile, hsame.metaFile, fun repaired later => ?_⟩
  have hfresh : SameAt ({ disk := repaired } : FaissStore V P) { runCalls cfg st calls with disk := repaired } c :=
    ⟨hsame.index.trans hmem.index, hsame.metadata.trans hmem.metadata, rfl, rfl⟩
  exact (run_agree cfg hc (runCalls_alike cfg hfresh later)).1

/-- A load that fails on the metadata has put the index in memory. -/
theorem index_remembered {e : VectorStoreError} (hmem : st.memory.indices.get? c = none)
    (hload : (loadIndex cfg st c).1 = .error e)
    (hfile : ¬ ∃ errType err, st.disk.indexFiles.get? c = some (.unreadable errType err)) :
    ∃ ix, (loadIndex cfg st c).2.memory.indices.get? c = some ix := by
  simp only [loadIndex, hmem] at hload ⊢
  cases hindex : st.disk.indexFiles.get? c with
  | none =>
    rw [hindex] at hload
    cases hload
  | some file =>
    cases file with
    | unreadable errType err => exact absurd ⟨errType, err, hindex⟩ hfile
    | index ix =>
      have hset : (st.setIndex c ix).memory.indices.get? c = some ix := Dict.get?_set_self _ _ _
      rw [hindex] at hload
      dsimp only at hload ⊢
      refine ⟨ix, ?_⟩
      split at hload <;> exact hset

/-- What is in memory is not read again. -/
theorem loadIndex_remembered {ix : Index V} (h : st.memory.indices.get? c = some ix) :
    loadIndex cfg st c = (.ok (some ix), st) := by
  simp only [loadIndex, h]

/-- A load that fails leaves nothing behind just when it is the index file that cannot be read. -/
theorem failed_load_forgotten_iff (cfg : FaissConfig V P) (st : FaissStore V P) (c : String) (e : VectorStoreError)
    (hmem : NotLoaded st c) (hload : (loadIndex cfg st c).1 = .error e) :
    Forgotten cfg st c e ↔ ∃ errType err, st.disk.indexFiles.get? c = some (.unreadable errType err) := by
  refine ⟨fun hforgotten => ?_, forgotten_of_unreadable hmem hload⟩
  by_contra hfile
  obtain ⟨ix, hix⟩ := index_remembered hmem.index hload hfile
  have hfirst : loadIndex cfg st c = (.error e, (loadIndex cfg st c).2) := Prod.ext hload rfl
  have hsecond := (hforgotten [.getVectorSize c] (.getVectorSize c) rfl).1
  have hstate : runCalls cfg st [.getVectorSize c] = (loadIndex cfg st c).2 := by
    have hcall : FaissCall.collection (.getVectorSize c : FaissCall V P) = c := rfl
    simp only [runCalls, List.foldl_cons, List.foldl_nil, run_load_error hcall hfirst]
  rw [hstate] at hsecond
  simp only [FaissCall.run, Backends.getVectorSize, loadIndex_remembered hix] at hsecond
  cases hsecond

def brokenStore : FaissStore Int String where
  disk := {
    indexFiles := (∅ : Dict String (IndexFile Int)).set "c" (.index ⟨1, [(1, 0)]⟩)
    metaFiles := (∅ : Dict String (MetaFile String)).set "c" (.invalidJson "Unterminated string") }

def pointSearch : FaissCall Int String := .search "c" 0 1 none [(1, 0)]

/-- The second search finds nothing, and an upsert gives the id of the lost point to
another and replaces the metadata. -/
theorem failed_load_half_remembered :
    (∃ msg, (pointSearch.run lineConfig brokenStore).1 = .error (.valueError msg)) ∧
    (pointSearch.run lineConfig (runCalls lineConfig brokenStore [pointSearch])).1 = .ok (.results []) ∧
    (runCalls lineConfig brokenStore [pointSearch, .upsert "c" "b" 4 "b" (none, none)]).disk.metaFiles.get? "c" =
      some (.metadata ⟨(∅ : Dict String Int).set "b" 1, (∅ : Dict String String).set "b" "b", 2⟩) ∧
    ∃ e, (loadIndex lineConfig brokenStore "c").1 = .error e ∧ ¬ Forgotten lineConfig brokenStore "c" e := by
  refine ⟨⟨_, rfl⟩, rfl, rfl, _, rfl, fun hforgotten => ?_⟩
  have hsecond := (hforgotten [pointSearch] pointSearch rfl).1
  cases hsecond

def unreadableStore : FaissStore Int String where
  disk := { indexFiles := (∅ : Dict String (IndexFile Int)).set "c" (.unreadable "RuntimeError" "read error") }

theorem failed_load_forgotten_iff_unreadable : ∃ e,
    Forgotten lineConfig unreadableStore "c" e ↔
      ∃ errType err, unreadableStore.disk.indexFiles.get? "c" = some (.unreadable errType err) :=
  ⟨_, failed_load_forgotten_iff lineConfig unreadableStore "c" _ ⟨rfl, rfl⟩ rfl⟩

end CacheSeek.Proofs.FaissFailedLoad
