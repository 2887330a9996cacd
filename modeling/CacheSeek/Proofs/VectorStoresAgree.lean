import CacheSeek.Proofs.FaissRuns
import CacheSeek.Proofs.QdrantMap

namespace CacheSeek.Proofs.VectorStoresAgree
open CacheSeek.Lib CacheSeek.Prefix CacheSeek.Approximate CacheSeek.Backends CacheSeek.Proofs.QdrantMap

variable {σ V P : Type} {cfg : QdrantConfig V P} {client : QdrantClient σ V P} {score : V → V → Rat}
  {R : σ → Collections V P → Prop} {Ids : String → Prop} {vectorDim : Nat}

theorem refines_empty {s : σ} (hR : R s fun _ => none) :
    QdrantMap.Refines cfg Ids R vectorDim ({ server := s } : QdrantVectorStore σ) fun _ _ => none :=
  ⟨_, hR, fun _ => .inl ⟨rfl, rfl, rfl⟩⟩

/-- After any history over a server, with restarts, a search gives the best points
of the map the history makes, each once under its caller's id. -/
theorem qdrant_store_is_map (hs : Setting cfg client score R Ids) {s : σ} (hR : R s fun _ => none)
    (ops : List (VectorOp V P)) (hops : ∀ op ∈ ops, Usual cfg vectorDim Ids op) (c : String) (q : V)
    (hq : cfg.dim q = vectorDim) (limit : Nat) (hl : 0 < limit) (t : Option Rat)
    (res : List (VectorSearchResult P)) :
    (ops.foldl (QdrantVectorStore.step cfg client vectorDim) { server := s }).Answers cfg client c q limit t res ↔
      Reports cfg score (ops.foldl pointsStep (fun _ _ => none) c) q limit t res :=
  (run_refines hs (refines_empty hR) hops).answers hs hq hl c t res

def productSpace : VectorSpace Int .cosine where
  dim _ := 1
  normalize := id
  dist q v := ((q * v : Int) : Rat)
  dist_nonneg h := nomatch h

def promptDict : PayloadDict (String × Option String) where
  empty := ("", none)
  dumps _ := true
  prompt p := p.1
  savedSteps _ := []
  cacheId p := p.2
  setCacheId p id := (p.1, some id)

def productConfig : QdrantConfig Int (String × Option String) where
  dim _ := 1
  reader := promptDict
  decimal c := if 0xff10 ≤ c.toNat ∧ c.toNat < 0xff1a then some (Fin.ofNat 10 (c.toNat - 0xff10)) else none
  sha256 := id
  reprIds _ := ""

theorem productSetting : Setting productConfig (memoryClient fun q v : Int => ((q * v : Int) : Rat))
    (fun q v => ((q * v : Int) : Rat)) (fun s m => s = m) (· = "a") where
  documented := memoryClient_documented _ _
  lawful := ⟨fun _ _ => rfl, fun _ _ => rfl, fun _ _ => rfl⟩
  distance := by decide
  apart := by
    rintro p q rfl rfl _
    rfl

def productHistory : List (VectorOp Int (String × Option String)) :=
  [.ensure "c", .upsert "c" "a" 2 ("old", none), .reopen, .upsert "c" "a" 3 ("new", none), .search "d" 1 1 none]

theorem productHistory_usual : ∀ op ∈ productHistory, Usual productConfig 1 (· = "a") op := by
  intro op hop
  simp only [productHistory, List.mem_cons, List.not_mem_nil, or_false] at hop
  rcases hop with rfl | rfl | rfl | rfl | rfl
  · exact True.intro
  · exact ⟨rfl, rfl, fun id hid => nomatch hid⟩
  · exact True.intro
  · exact ⟨rfl, rfl, fun id hid => nomatch hid⟩
  · exact rfl

def newest : VectorSearchResult (String × Option String) := ⟨"a", 3, "new", [], ("new", some "a")⟩

theorem productHistory_points {id : String} {x : Int × String × Option String}
    (h : productHistory.foldl pointsStep (fun _ _ => none) "c" id = some x) : id = "a" ∧ x = (3, "new", none) := by
  simp only [productHistory, List.foldl_cons, List.foldl_nil, pointsStep, Function.update_self] at h
  by_cases hid : id = "a"
  · subst hid
    simp only [Function.update_self, Option.some.injEq] at h
    exact ⟨rfl, h.symm⟩
  · simp [Function.update_of_ne hid] at h

theorem productHistory_reports :
    Reports productConfig (fun q v => ((q * v : Int) : Rat)) (productHistory.foldl pointsStep (fun _ _ => none) "c")
      1 2 none [newest] := by
  refine ⟨[("a", 3, "new", none)], ?_, rfl⟩
  constructor
  · simp
  · intro x hx
    rw [List.mem_singleton.mp hx]
    rfl
  · simp
  · simp
  · intro y hy
    obtain ⟨hid, hx⟩ := productHistory_points hy
    exact .inl (List.mem_singleton.mpr (Prod.ext hid hx))

theorem qdrant_store_is_map_replaced :
    (productHistory.foldl (QdrantVectorStore.step productConfig (memoryClient fun q v => ((q * v : Int) : Rat)) 1)
        { server := fun _ => none }).Answers productConfig (memoryClient fun q v => ((q * v : Int) : Rat))
        "c" 1 2 none [newest] :=
  (qdrant_store_is_map productSetting rfl productHistory productHistory_usual "c" 1 rfl 2 (by decide) none
    [newest]).mpr productHistory_reports

/-- A FAISS store and a Qdrant store are set up for the same vectors and payloads. -/
structure Alike (fcfg : FaissConfig V P) (cfg : QdrantConfig V P) (score : V → V → Rat) : Prop where
  cosine : fcfg.indexType = .cosine
  dim : cfg.dim = fcfg.space.dim
  reader : cfg.reader.toPayloadReader = fcfg.reader
  score : ∀ q v, score q v = fcfg.space.dist (fcfg.prepare q) (fcfg.prepare v)

/-- A result as Qdrant gives it: the payload names the cache. -/
def tagged (cfg : QdrantConfig V P) (r : VectorSearchResult P) : VectorSearchResult P :=
  { r with payload := cfg.reader.tag r.payload r.cacheId }

variable {fcfg : FaissConfig V P}

/-- On usual calls both abstract stores take the same step. -/
theorem absStep_usual (hal : Alike fcfg cfg score) {op : VectorOp V P} (hop : Usual cfg fcfg.vectorDim Ids op)
    (a : String → Points V P) : absStep fcfg a op = pointsStep a op := by
  cases op with
  | upsert c p v payload =>
    have hsup : fcfg.supported = true := by simp [FaissConfig.supported, hal.cosine]
    have hdim : fcfg.space.dim v = fcfg.vectorDim := by
      rw [← hal.dim]
      exact hop.2.1
    simp only [absStep, pointsStep, hdim, hsup, and_self, ↓reduceIte]
  | _ => rfl

theorem absRun_usual (hal : Alike fcfg cfg score) {ops : List (VectorOp V P)}
    (hops : ∀ op ∈ ops, Usual cfg fcfg.vectorDim Ids op) (a : String → Points V P) :
    ops.foldl (absStep fcfg) a = ops.foldl pointsStep a := by
  induction ops generalizing a with
  | nil => rfl
  | cons op ops ih =>
    rw [List.foldl_cons, List.foldl_cons, absStep_usual hal (hops op (by simp))]
    exact ih (fun o ho => hops o (by simp [ho])) _

/-- The two results differ in the payload's tag only. -/
theorem report_tagged (hal : Alike fcfg cfg score) (q : V) (t : Option Rat) (x : String × V × P) :
    report cfg score q t x = (pointResult fcfg q t x).map (tagged cfg) := by
  have hsim : ∀ d, fcfg.similarity d = d := fun d => by simp [FaissConfig.similarity, hal.cosine]
  simp only [report, pointResult, hal.score, hsim]
  split
  · rfl
  · simp [tagged, ← hal.reader]

theorem reports_iff (hal : Alike fcfg cfg score) (b : Points V P) (q : V) (limit : Nat) (t : Option Rat)
    (res : List (VectorSearchResult P)) :
    Reports cfg score b q limit t res ↔
      ∃ found, PointsAnswer fcfg b q limit t found ∧ res = found.map (tagged cfg) := by
  have hcloser : fcfg.closer q = fun x y : String × V × P => score q y.2.1 ≤ score q x.2.1 := by
    funext x y
    simp [FaissConfig.closer, FaissConfig.nearer, hal.cosine, hal.score]
  have hres : ∀ picked : List (String × V × P), picked.filterMap (report cfg score q t) =
      (picked.filterMap (pointResult fcfg q t)).map (tagged cfg) := by
    intro picked
    rw [List.map_filterMap]
    exact List.filterMap_congr fun x _ => report_tagged hal q t x
  unfold Reports PointsAnswer
  rw [hcloser]
  constructor
  · rintro ⟨picked, hbest, rfl⟩
    exact ⟨_, ⟨picked, hbest, rfl⟩, hres picked⟩
  · rintro ⟨found, ⟨picked, hbest, rfl⟩, rfl⟩
    exact ⟨picked, hbest, (hres picked).symm⟩

/-- The two vector stores can stand in for each other: after any history with restarts of which
FAISS refuses nothing, Qdrant may answer a search just as FAISS may, but for the cache named in each
payload. -/
theorem vector_stores_agree (hal : Alike fcfg cfg score) (hs : Setting cfg client score R Ids) {s : σ}
    (hR : R s fun _ => none) (ops : List (VectorOp V P)) (hjson : ∀ op ∈ ops, op.Json fcfg)
    (hfree : Unrefused fcfg {} ops) (hops : ∀ op ∈ ops, Usual cfg fcfg.vectorDim Ids op) (c : String) (q : V)
    (hq : fcfg.space.dim q = fcfg.vectorDim) (limit : Nat) (hl : 0 < limit) (t : Option Rat)
    (res : List (VectorSearchResult P)) :
    (ops.foldl (QdrantVectorStore.step cfg client fcfg.vectorDim) { server := s }).Answers cfg client c q limit t
        res ↔
      ∃ found, Answers fcfg (ops.foldl (FaissStore.step fcfg) {}) c q limit t found ∧
        res = found.map (tagged cfg) := by
  have hfaiss := FaissRuns.run_refines (FaissRuns.refines_empty fcfg) hjson hfree
  have hqdrant := (run_refines hs (refines_empty hR) hops).answers hs (by rw [hal.dim]; exact hq) hl c t res
  rw [hqdrant, reports_iff hal, ← absRun_usual hal hops]
  have hanswers : ∀ found, Answers fcfg (ops.foldl (FaissStore.step fcfg) {}) c q limit t found ↔
      PointsAnswer fcfg (ops.foldl (absStep fcfg) (fun _ _ => none) c) q limit t found :=
    fun found => (hfaiss c).answers hq hl t found
  simp only [hanswers]

def productFaiss : FaissConfig Int (String × Option String) where
  indexDir := "index"
  vectorDim := 1
  indexType := .cosine
  space := productSpace
  reader := promptDict.toPayloadReader
  selectorTakesArrays := false

def freshHistory : List (VectorOp Int (String × Option String)) :=
  [.ensure "c", .upsert "c" "a" 3 ("new", none), .reopen, .delete "d" ["a"], .search "d" 1 1 none]

theorem freshHistory_usual : ∀ op ∈ freshHistory, Usual productConfig 1 (· = "a") op := by
  intro op hop
  simp only [freshHistory, List.mem_cons, List.not_mem_nil, or_false] at hop
  rcases hop with rfl | rfl | rfl | rfl | rfl
  · exact True.intro
  · exact ⟨rfl, rfl, fun id hid => nomatch hid⟩
  · exact True.intro
  · exact fun p hp => List.mem_singleton.mp hp
  · exact rfl

theorem freshHistory_reports :
    Reports productConfig (fun q v => ((q * v : Int) : Rat)) (freshHistory.foldl pointsStep (fun _ _ => none) "c")
      1 2 none [newest] := by
  have hsame : freshHistory.foldl pointsStep (fun _ _ => none) "c" =
      productHistory.foldl pointsStep (fun _ _ => none) "c" := by
    simp only [freshHistory, productHistory, List.foldl_cons, List.foldl_nil, pointsStep, Function.update_self,
      Function.update_idem]
    rw [Function.update_of_ne (by decide), Function.update_self]
  rw [hsame]
  exact productHistory_reports

/-- The FAISS store refuses no call of this history. -/
theorem vector_stores_agree_fresh :
    ∃ found, Answers productFaiss (freshHistory.foldl (FaissStore.step productFaiss) {}) "c" 1 2 none found ∧
      [newest] = found.map (tagged productConfig) := by
  have hqdrant := (run_refines productSetting (refines_empty rfl) freshHistory_usual).answers productSetting
    (show productConfig.dim 1 = 1 from rfl) (show 0 < 2 by decide) "c" none [newest]
  have hjson : ∀ op ∈ freshHistory, op.Json productFaiss := by
    intro op hop
    simp only [freshHistory, List.mem_cons, List.not_mem_nil, or_false] at hop
    rcases hop with rfl | rfl | rfl | rfl | rfl <;> first | exact True.intro | rfl
  have hfree : Unrefused productFaiss {} freshHistory := by
    refine ⟨fun h => h.2, fun h => h.2.2 rfl, fun h => h.2, ?_, fun h => h.2, trivial⟩
    rintro ⟨-, p, _, hne⟩
    exact hne rfl
  exact (vector_stores_agree (show Alike productFaiss productConfig _ from ⟨rfl, rfl, rfl, fun _ _ => rfl⟩)
    productSetting rfl freshHistory hjson hfree freshHistory_usual "c" 1 rfl 2 (by decide) none [newest]).mp
      (hqdrant.mpr freshHistory_reports)

end CacheSeek.Proofs.VectorStoresAgree
