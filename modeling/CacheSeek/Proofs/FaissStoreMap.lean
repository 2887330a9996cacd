import CacheSeek.Proofs.FaissRuns
import Mathlib.Algebra.Order.Ring.Rat
import Mathlib.Algebra.Order.Ring.Int

namespace CacheSeek.Proofs.FaissStoreMap
open CacheSeek.Lib CacheSeek.Backends CacheSeek.Proofs.FaissMap CacheSeek.Proofs.FaissRuns

variable {V P : Type} {cfg : FaissConfig V P} {st st' : FaissStore V P} {c : String} {ix : Index V}
  {m : Metadata P} {a : String → Points V P}

def Reads (cfg : FaissConfig V P) (st : FaissStore V P) (c : String) (m : Metadata P) : Prop :=
  ∃ ix, (loadIndex cfg st c).1 = .ok (some ix) ∧
    (loadIndex cfg st c).2.memory.metadata.get? c = some m

theorem reads_of_present (h : Present st c ix m) : Reads cfg st c m := by
  obtain ⟨st', hload, hl⟩ := loadIndex_present cfg h
  exact ⟨ix, by rw [hload], by rw [hload]; exact hl.loaded.metadata⟩

theorem present_of_reads (h : Refines cfg st a) (hr : Reads cfg st c m) :
    ∃ ix, Present st c ix m ∧ Represents cfg ix m (a c) := by
  obtain ⟨ix, hix, hm⟩ := hr
  rcases h c with ⟨hc, _⟩ | ⟨ix', m', hc, _, hrep⟩
  · rw [loadIndex_absent cfg hc] at hix
    cases hix
  · obtain ⟨st', hload, hl⟩ := loadIndex_present cfg hc
    rw [hload, hl.loaded.metadata] at hm
    cases hm
    exact ⟨ix', hc, hrep⟩

/-- No collection goes, and the next id of none goes back. -/
def Grows (st st' : FaissStore V P) : Prop :=
  ∀ c ix m, Present st c ix m → ∃ ix' m', Present st' c ix' m' ∧ m.nextId ≤ m'.nextId

theorem Grows.trans {st'' : FaissStore V P} (h : Grows st st') (h' : Grows st' st'') : Grows st st'' := by
  intro c ix m hc
  obtain ⟨ix1, m1, hc1, hle1⟩ := h c ix m hc
  obtain ⟨ix2, m2, hc2, hle2⟩ := h' c ix1 m1 hc1
  exact ⟨ix2, m2, hc2, Int.le_trans hle1 hle2⟩

theorem grows_refl (st : FaissStore V P) : Grows st st := fun _ _ _ hc => ⟨_, _, hc, Int.le_refl _⟩

theorem grows_of_present {ix' : Index V} {m' : Metadata P} (hother : ∀ c', c' ≠ c → SameAt st st' c')
    (hc : Present st c ix m) (hc' : Present st' c ix' m') (hle : m.nextId ≤ m'.nextId) :
    Grows st st' := by
  intro d ixd md hd
  by_cases he : d = c
  · subst d
    rw [← hc.metadata_eq hd]
    exact ⟨ix', m', hc', hle⟩
  · exact ⟨ixd, md, hd.sameAt (hother d he), Int.le_refl _⟩

/-- A collection that was not there had no ids to give out. -/
theorem grows_of_absent (hother : ∀ c', c' ≠ c → SameAt st st' c') (hc : Absent st c) :
    Grows st st' := by
  intro d ixd md hd
  by_cases he : d = c
  · subst d
    have := hc.indexFile.symm.trans hd.indexFile
    cases this
  · exact ⟨ixd, md, hd.sameAt (hother d he), Int.le_refl _⟩

/-- The counter of ids never goes back. -/
theorem putMetadata_nextId (ix : Index V) (m : Metadata P) (p : String) (payload : P) :
    m.nextId ≤ (putMetadata ix m p payload).nextId := by
  simp only [putMetadata, claimed]
  split
  · exact Int.le_refl _
  · dsimp only
    omega

theorem load_grows (h : Refines cfg st a) (c : String) : Grows st (loadIndex cfg st c).2 := by
  rcases h c with ⟨hc, _⟩ | ⟨ix, m, hc, _, _⟩
  · rw [loadIndex_absent cfg hc]
    exact grows_refl st
  · obtain ⟨st', hload, hl⟩ := loadIndex_present cfg hc
    rw [hload]
    exact grows_of_present hl.other hc (hc.loadedFrom hl) (Int.le_refl _)

theorem upsert_grows (hc : Present st c ix m) (hr : Represents cfg ix m (a c)) {p : String} {v : V}
    (htaken : cfg.space.dim v = cfg.vectorDim → Taken cfg m p) {payload : P}
    (hpay : cfg.reader.dumps payload = true) :
    Grows st (upsert cfg (none, none) st c p v payload).2 := by
  rcases upsert_present (none, none) hc hr htaken hpay with ⟨_, e, st', he, hl⟩ | ⟨_, res, st', he, hd⟩
  · rw [he]
    exact grows_of_present hl.other hc (hc.loadedFrom hl) (Int.le_refl _)
  · rw [he]
    exact grows_of_present hd.other hc hd.present (putMetadata_nextId ix m p payload)

theorem step_grows (h : Refines cfg st a) {op : VectorOp V P} (hop : op.Json cfg)
    (hfree : ¬ st.Refused cfg op) : Grows st (st.step cfg op) := by
  cases op with
  | ensure c =>
    simp only [FaissStore.step, FaissStore.apply]
    rcases h c with ⟨hc, _⟩ | ⟨ix, m, hc, _⟩
    · rcases ensure_absent cfg none hc with ⟨_, e, he⟩ | ⟨_, res, st1, he, hd, _⟩
      · rw [he]
        exact grows_refl st
      · rw [he]
        exact grows_of_absent hd.other hc
    · obtain ⟨st', hload, _⟩ := loadIndex_present cfg hc
      have := load_grows h c
      simp only [hload] at this
      simp only [ensureCollection, hload]
      exact this
  | upsert c p v payload =>
    simp only [FaissStore.step, FaissStore.apply]
    rcases h c with ⟨hc, hpts⟩ | ⟨ix, m, hc, hsup, hr⟩
    · rcases ensure_absent cfg none hc with ⟨_, e, he⟩ | ⟨hsup, _⟩
      · simp only [upsert, loadIndex_absent cfg hc, he]
        exact grows_refl st
      · obtain ⟨st1, hd, heq⟩ := upsert_absent none hc hsup p v payload
        rw [heq]
        exact (grows_of_absent hd.other hc).trans
          (upsert_grows hd.present (hpts ▸ represents_empty) (fun _ => taken_empty cfg p) hop)
    · exact upsert_grows hc hr (taken_upsert (loadIndex_present cfg hc) hfree) hop
  | delete c ps =>
    simp only [FaissStore.step, FaissStore.apply]
    rcases h c with ⟨hc, _⟩ | ⟨ix, m, hc, _, hr⟩
    · simp only [Backends.delete, loadIndex_absent cfg hc]
      exact grows_refl st
    · obtain ⟨res, st', he, hd⟩ := delete_done cfg none hc hr.dumps
        (taken_delete (loadIndex_present cfg hc) hfree)
      rw [he]
      exact grows_of_present hd.other hc hd.present (popPoints_spec m ps).1.ge
  | search c v limit t =>
    have hload := load_grows h c
    simp only [FaissStore.step, FaissStore.apply, Backends.search]
    generalize loadIndex cfg st c = x at hload
    obtain ⟨e | _ | ix, st'⟩ := x
    · exact hload
    · exact hload
    · dsimp only
      split
      · exact hload
      · split
        · exact hload
        · exact hload
  | reopen => exact fun _ _ _ hc => ⟨_, _, hc.forget, Int.le_refl _⟩

theorem run_grows (h : Refines cfg st a) {ops : List (VectorOp V P)} (hops : ∀ op ∈ ops, op.Json cfg)
    (hfree : Unrefused cfg st ops) : Grows st (ops.foldl (FaissStore.step cfg) st) := by
  induction ops generalizing st a with
  | nil => exact grows_refl st
  | cons op ops ih =>
    obtain ⟨hop, hfree⟩ := hfree
    have hjson := hops op List.mem_cons_self
    exact (step_grows h hjson hop).trans
      (ih (step_refines h hjson hop) (fun o ho => hops o (List.mem_cons_of_mem op ho)) hfree)

/-- A result names its point and carries its payload. -/
theorem pointResult_spec {q : V} {t : Option Rat} {x : String × V × P} {r : VectorSearchResult P}
    (h : pointResult cfg q t x = some r) : r.cacheId = x.1 ∧ r.payload = x.2.2 := by
  simp only [pointResult] at h
  split at h
  · cases h
  · cases h
    exact ⟨rfl, rfl⟩

/-- Each point is reported once, with its payload. -/
theorem answer_points {pts : Points V P} {q : V} {limit : Nat} {t : Option Rat}
    {res : List (VectorSearchResult P)} (h : PointsAnswer cfg pts q limit t res) :
    (res.map VectorSearchResult.cacheId).Nodup ∧
      ∀ r ∈ res, ∃ v, pts r.cacheId = some (v, r.payload) := by
  obtain ⟨picked, hbest, rfl⟩ := h
  constructor
  · have hfst : (picked.map Prod.fst).Nodup := by
      apply hbest.nodup.map_on
      intro x hx y hy he
      have hx := hbest.mem x hx
      have hy := hbest.mem y hy
      rw [he, hy] at hx
      exact Prod.ext he (Option.some.inj hx).symm
    refine hfst.sublist ?_
    clear hbest hfst
    induction picked with
    | nil => exact List.Sublist.slnil
    | cons x picked ih =>
      rw [List.filterMap_cons]
      cases hx : pointResult cfg q t x with
      | none => exact ih.cons x.1
      | some r =>
        simp only [List.map_cons, (pointResult_spec hx).1]
        exact ih.cons_cons x.1
  · intro r hr
    obtain ⟨x, hx, hres⟩ := List.mem_filterMap.mp hr
    obtain ⟨hid, hpay⟩ := pointResult_spec hres
    rw [hid, hpay]
    exact ⟨x.2.1, hbest.mem x hx⟩

/-- A collection with a point in it has an answer to a search without a threshold. -/
theorem answer_ne_nil {pts : Points V P} {q : V} {limit : Nat} {p : String} {x : V × P}
    (hp : pts p = some x) (hl : 0 < limit) : ¬ PointsAnswer cfg pts q limit none [] := by
  rintro ⟨picked, hbest, hres⟩
  have hnil : picked = [] := by
    rw [List.eq_nil_iff_forall_not_mem]
    intro y hy
    have hrow := List.filterMap_eq_nil_iff.mp hres.symm y hy
    simp [pointResult] at hrow
  subst hnil
  rcases hbest.rest (p, x) hp with hin | ⟨hlen, _⟩
  · cases hin
  · rw [List.length_nil] at hlen
    omega

/-- After any history of which nothing is refused, a search gives the best points of the map the
history makes, each once with its latest payload; int ids are not shared, and the next one is above
every id ever given out. -/
theorem faiss_store_is_map (cfg : FaissConfig V P) (ops : List (VectorOp V P))
    (hops : ∀ op ∈ ops, op.Json cfg) (hfree : Unrefused cfg {} ops) (c : String) :
    let st := ops.foldl (FaissStore.step cfg) {}
    let pts := ops.foldl (absStep cfg) (fun _ _ => none) c
    (∀ q limit t, cfg.space.dim q = cfg.vectorDim → 0 < limit →
      (∀ hits, ∃ res, (search cfg st c q limit t hits).1 = .ok res) ∧
      (∀ res, Answers cfg st c q limit t res ↔ PointsAnswer cfg pts q limit t res) ∧
      ∀ res, Answers cfg st c q limit t res → (res.map VectorSearchResult.cacheId).Nodup ∧
        ∀ r ∈ res, ∃ v, pts r.cacheId = some (v, r.payload)) ∧
    (∀ m, Reads cfg st c m →
      ∀ p p' i, m.idMap.get? p = some i → m.idMap.get? p' = some i → p = p') ∧
    ∀ earlier, earlier <+: ops → ∀ m', Reads cfg (earlier.foldl (FaissStore.step cfg) {}) c m' →
      ∃ m, Reads cfg st c m ∧ ∀ p i, m'.idMap.get? p = some i → i < m.nextId := by
  intro st pts
  have href : Refines cfg st _ := run_refines (refines_empty cfg) hops hfree
  refine ⟨?_, ?_, ?_⟩
  · intro q limit t hq hl
    have hanswers := (href c).answers hq hl t
    exact ⟨(href c).search_ok hq hl t, hanswers, fun res hres => answer_points ((hanswers res).mp hres)⟩
  · intro m hm p p' i hp hp'
    obtain ⟨ix, _, hrep⟩ := present_of_reads href hm
    exact hrep.inj hp hp'
  · rintro earlier ⟨later, rfl⟩ m' hm'
    obtain ⟨hfree, hlater⟩ := unrefused_append.mp hfree
    have hearlier := run_refines (refines_empty cfg)
      (fun op ho => hops op (List.mem_append_left later ho)) hfree
    obtain ⟨ix', hc', hrep'⟩ := present_of_reads hearlier hm'
    obtain ⟨ix, m, hc, hle⟩ := run_grows hearlier
      (fun op ho => hops op (List.mem_append_right earlier ho)) hlater c ix' m' hc'
    rw [← List.foldl_append] at hc
    refine ⟨m, reads_of_present hc, ?_⟩
    intro p i hi
    have := (hrep'.fresh hi).2
    omega

def lineSpace : VectorSpace Int .l2 where
  dim _ := 1
  normalize := id
  dist q v := ((q - v) * (q - v) : Int)
  dist_nonneg _ q v := by exact_mod_cast mul_self_nonneg (q - v)

def lineConfig : FaissConfig Int String where
  indexDir := "index"
  vectorDim := 1
  indexType := .l2
  space := lineSpace
  reader := ⟨"", fun _ => true, id, fun _ => []⟩
  selectorTakesArrays := false

def takingConfig : FaissConfig Int String := { lineConfig with selectorTakesArrays := true }

theorem line_json (op : VectorOp Int String) : op.Json lineConfig := by
  cases op with
  | upsert => rfl
  | _ => exact True.intro

theorem taking_json (op : VectorOp Int String) : op.Json takingConfig := line_json op

/-- New points and a delete of none over a released FAISS, and a replaced and a deleted point over
one that takes the selector. -/
theorem faiss_store_is_map_replaced :
    let ops : List (VectorOp Int String) := [.ensure "c", .upsert "c" "a" 0 "a", .reopen, .upsert "c" "b" 4 "b",
      .delete "c" ["x"]]
    let ops' : List (VectorOp Int String) := [.ensure "c", .upsert "c" "a" 0 "old", .upsert "c" "b" 4 "b",
      .reopen, .upsert "c" "a" 9 "new", .delete "c" ["b", "x"]]
    Unrefused lineConfig {} ops ∧ Unrefused takingConfig {} ops' ∧
      (∀ res, Answers lineConfig (ops.foldl (FaissStore.step lineConfig) {}) "c" 5 3 none res →
        ∀ r ∈ res, ∃ v, ops.foldl (absStep lineConfig) (fun _ _ => none) "c" r.cacheId = some (v, r.payload)) ∧
      ∀ res, Answers takingConfig (ops'.foldl (FaissStore.step takingConfig) {}) "c" 5 3 none res →
        ∀ r ∈ res, ∃ v, ops'.foldl (absStep takingConfig) (fun _ _ => none) "c" r.cacheId = some (v, r.payload) := by
  intro ops ops'
  have hfree : Unrefused lineConfig {} ops := by
    refine ⟨fun h => h.2, fun h => h.2.2 rfl, fun h => h.2, fun h => h.2.2 rfl, ?_, trivial⟩
    rintro ⟨-, p, hp, hne⟩
    rw [List.mem_singleton] at hp
    subst hp
    exact hne rfl
  have hfree' : Unrefused takingConfig {} ops' := unrefused_of_takes rfl _ _
  refine ⟨hfree, hfree', fun res hres => ?_, fun res hres => ?_⟩
  · exact (((faiss_store_is_map lineConfig ops (fun op _ => line_json op) hfree "c").1 5 3 none rfl
      (by decide)).2.2 res hres).2
  · exact (((faiss_store_is_map takingConfig ops' (fun op _ => taking_json op) hfree' "c").1 5 3 none rfl
      (by decide)).2.2 res hres).2

/-- A search for a vector that is there may answer with it. -/
theorem line_hits {ix : Index Int} {i v : Int} {rest : List (Int × Int)} (hperm : ((i, v) :: rest).Perm ix.entries) :
    Hits lineConfig v 1 ix [(i, v)] := by
  refine ⟨List.pairwise_singleton _ _, ?_, rest, hperm, ?_⟩
  · have hlen := hperm.length_eq
    simp only [List.length_cons] at hlen
    simp only [List.length_cons, List.length_nil]
    omega
  · intro x hx y _
    rw [List.mem_singleton] at hx
    subst hx
    have hzero : lineConfig.space.dist v v = 0 := by simp [lineConfig, lineSpace]
    change lineConfig.space.dist v v ≤ lineConfig.space.dist v y.2
    rw [hzero]
    exact lineConfig.space.dist_nonneg rfl v y.2

/-- A released FAISS: "a" cannot be put again, and its old payload is reported; "b" cannot be
deleted, and its vector hides "a" from a search for one point. -/
theorem known_point_refused :
    let ops : List (VectorOp Int String) := [.upsert "c" "a" 0 "old", .upsert "c" "b" 4 "b"]
    let st := ops.foldl (FaissStore.step lineConfig) {}
    let put : VectorOp Int String := .upsert "c" "a" 0 "new"
    let drop : VectorOp Int String := .delete "c" ["b"]
    (Backends.upsert lineConfig (none, none) st "c" "a" 0 "new").1 = .error .typeError ∧
    Answers lineConfig (st.step lineConfig put) "c" 0 1 none [⟨"a", 1, "old", [], "old"⟩] ∧
    ¬ PointsAnswer lineConfig ((ops ++ [put]).foldl (absStep lineConfig) (fun _ _ => none) "c") 0 1 none
      [⟨"a", 1, "old", [], "old"⟩] ∧
    (Backends.delete lineConfig none st "c" ["b"]).1 = .error .typeError ∧
    Answers lineConfig (st.step lineConfig drop) "c" 4 1 none [] ∧
    ¬ PointsAnswer lineConfig ((ops ++ [drop]).foldl (absStep lineConfig) (fun _ _ => none) "c") 4 1 none [] := by
  intro ops st put drop
  have hput : (loadIndex lineConfig (st.step lineConfig put) "c").1 = .ok (some ⟨1, [(1, 0), (2, 4)]⟩) := rfl
  have hdrop : (loadIndex lineConfig (st.step lineConfig drop) "c").1 = .ok (some ⟨1, [(1, 0), (2, 4)]⟩) := rfl
  refine ⟨rfl, ⟨[(1, 0)], ?_, by decide +kernel⟩, fun hanswer => ?_, rfl, ⟨[(2, 4)], ?_, by decide +kernel⟩, ?_⟩
  · intro ix hix
    rw [hput, Except.ok.injEq, Option.some.injEq] at hix
    subst hix
    exact line_hits (List.Perm.refl _)
  · obtain ⟨v, hv⟩ := (answer_points hanswer).2 _ (List.mem_singleton_self _)
    have hpay : some "new" = some "old" := congrArg (Option.map Prod.snd) hv
    exact absurd hpay (by decide)
  · intro ix hix
    rw [hdrop, Except.ok.injEq, Option.some.injEq] at hix
    subst hix
    exact line_hits (List.Perm.swap _ _ _)
  · exact answer_ne_nil (p := "a") (x := (0, "old")) rfl Nat.one_pos

end CacheSeek.Proofs.FaissStoreMap
