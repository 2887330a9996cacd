import CacheSeek.Backends.Qdrant
import Mathlib.Data.List.Basic

namespace CacheSeek.Proofs.QdrantMap
open CacheSeek.Lib CacheSeek.Prefix CacheSeek.Approximate CacheSeek.Backends QdrantVectorStore

variable {σ V P : Type}

/-- A payload whose `cache_id` is set has it, and nothing else that is read changes. -/
structure PayloadLawful (D : PayloadDict P) : Prop where
  cacheId_set : ∀ p id, D.cacheId (D.setCacheId p id) = some id
  prompt_set : ∀ p id, D.prompt (D.setCacheId p id) = D.prompt p
  savedSteps_set : ∀ p id, D.savedSteps (D.setCacheId p id) = D.savedSteps p

abbrev Collections (V P : Type) := String → Option (Nat × Points V P)

/-- A point as a query reports it, unless its score is below the threshold. -/
def scored (score : V → V → Rat) (q : V) (scoreThreshold : Option Rat) (x : String × V × P) :
    Option (ScoredPoint P) :=
  if scoreThreshold.any fun t => score q x.2.1 < t then none else some ⟨x.1, score q x.2.1, x.2.2⟩

/-- The documented behaviour of the server behind the client. -/
structure Documented (client : QdrantClient σ V P) (dim : V → Nat) (score : V → V → Rat)
    (R : σ → Collections V P → Prop) : Prop where
  found : ∀ {s m}, R s m → ∀ c, client.collectionExists s c = .ok (m c).isSome
  size : ∀ {s m}, R s m → ∀ c n pts, m c = some (n, pts) → client.getCollection s c = .ok (some n)
  create : ∀ {s m}, R s m → ∀ c n, m c = none → (client.createCollection s c n).1 = .ok () ∧
    R (client.createCollection s c n).2 (Function.update m c (some (n, fun _ => none)))
  upsert : ∀ {s m}, R s m → ∀ c id v p n pts, m c = some (n, pts) → dim v = n →
    (client.upsert s c id v p).1 = .ok () ∧
      R (client.upsert s c id v p).2 (Function.update m c (some (n, Function.update pts id (some (v, p)))))
  delete : ∀ {s m}, R s m → ∀ c ids n pts, m c = some (n, pts) → (client.delete s c ids).1 = .ok () ∧
    R (client.delete s c ids).2 (Function.update m c (some (n, fun id => if id ∈ ids then none else pts id)))
  delete_missing : ∀ {s m}, R s m → ∀ c ids, m c = none →
    (∃ e, (client.delete s c ids).1 = .error e ∧ isMissing e.err = true) ∧ R (client.delete s c ids).2 m
  query : ∀ {s m}, R s m → ∀ c q limit t n pts, m c = some (n, pts) → dim q = n → 0 < limit → ∀ answer,
    client.queries s c q limit t answer ↔
      ∃ picked, Best (fun x y : String × V × P => score q y.2.1 ≤ score q x.2.1) limit
          (fun x => pts x.1 = some x.2) picked ∧
        answer = .ok (picked.filterMap (scored score q t))
  query_missing : ∀ {s m}, R s m → ∀ c q limit t, m c = none →
    (∃ answer, client.queries s c q limit t answer) ∧
      ∀ answer, client.queries s c q limit t answer → ∃ e, answer = .error e ∧ isMissing e.err = true

/-- A store over such a server, used with ids that are told apart as points. -/
structure Setting (cfg : QdrantConfig V P) (client : QdrantClient σ V P) (score : V → V → Rat)
    (R : σ → Collections V P → Prop) (Ids : String → Prop) : Prop where
  documented : Documented client cfg.dim score R
  lawful : PayloadLawful cfg.reader
  distance : cfg.distance ∈ cfg.distances
  apart : ∀ p q, Ids p → Ids q → toPointId cfg.decimal cfg.sha256 p = toPointId cfg.decimal cfg.sha256 q → p = q

/-- The operations that the strategies use: known ids, vectors of one dimension,
and payloads without a `cache_id` of someone else. -/
def Usual (cfg : QdrantConfig V P) (vectorDim : Nat) (Ids : String → Prop) : VectorOp V P → Prop
  | .upsert _ p v payload => Ids p ∧ cfg.dim v = vectorDim ∧ ∀ id, cfg.reader.cacheId payload = some id → id = p
  | .delete _ ps => ∀ p ∈ ps, Ids p
  | .search _ v _ _ => cfg.dim v = vectorDim
  | _ => True

def pointsStep (a : String → Points V P) : VectorOp V P → String → Points V P
  | .upsert c p v payload => Function.update a c (Function.update (a c) p (some (v, payload)))
  | .delete c ps => Function.update a c fun p => if p ∈ ps then none else a c p
  | _ => a

section
variable (cfg : QdrantConfig V P) (Ids : String → Prop)

structure Carries (pts a : Points V P) : Prop where
  stored : ∀ p, Ids p → pts (toPointId cfg.decimal cfg.sha256 p) = (a p).map fun x => (x.1, cfg.reader.tag x.2 p)
  only : ∀ id, pts id ≠ none → ∃ p, Ids p ∧ toPointId cfg.decimal cfg.sha256 p = id
  known : ∀ p, a p ≠ none → Ids p
  named : ∀ p x, a p = some x → cfg.reader.cacheId (cfg.reader.tag x.2 p) = some p

def Holds (vectorDim : Nat) (known : Option Nat) (collection : Option (Nat × Points V P)) (a : Points V P) :
    Prop :=
  (collection = none ∧ known = none ∧ a = fun _ => none) ∨
    ∃ pts, collection = some (vectorDim, pts) ∧ (known = none ∨ known = some vectorDim) ∧ Carries cfg Ids pts a

/-- The store and its server hold the collections `a`. -/
def Refines (R : σ → Collections V P → Prop) (vectorDim : Nat) (st : QdrantVectorStore σ)
    (a : String → Points V P) : Prop :=
  ∃ m, R st.server m ∧ ∀ c, Holds cfg Ids vectorDim (st.dims.get? c) (m c) (a c)

end

variable {cfg : QdrantConfig V P} {Ids : String → Prop} {client : QdrantClient σ V P} {score : V → V → Rat}
  {R : σ → Collections V P → Prop} {vectorDim : Nat} {st : QdrantVectorStore σ} {a : String → Points V P}
  {pts b : Points V P}

/-- A payload that names no other id is read back under its own. -/
theorem cacheId_tag (hl : PayloadLawful cfg.reader) {payload : P} {p : String}
    (h : ∀ id, cfg.reader.cacheId payload = some id → id = p) :
    cfg.reader.cacheId (cfg.reader.tag payload p) = some p := by
  unfold PayloadDict.tag
  cases hc : cfg.reader.cacheId payload with
  | none => simp [hl.cacheId_set]
  | some id => simpa [hc] using h id hc

theorem carries_empty : Carries cfg Ids (fun _ => none : Points V P) (fun _ => none) :=
  ⟨fun _ _ => rfl, fun _ h => absurd rfl h, fun _ h => absurd rfl h, fun _ _ h => nomatch h⟩

theorem Carries.put (h : Carries cfg Ids pts b) (hs : Setting cfg client score R Ids) {p : String} {v : V}
    {payload : P} (hp : Ids p) (hid : ∀ id, cfg.reader.cacheId payload = some id → id = p) :
    Carries cfg Ids (Function.update pts (toPointId cfg.decimal cfg.sha256 p) (some (v, cfg.reader.tag payload p)))
      (Function.update b p (some (v, payload))) := by
  refine ⟨fun q hq => ?_, fun id hne => ?_, fun q hne => ?_, fun q x hx => ?_⟩
  · by_cases hqp : q = p
    · subst q
      simp
    · have hne : toPointId cfg.decimal cfg.sha256 q ≠ toPointId cfg.decimal cfg.sha256 p :=
        fun he => hqp (hs.apart q p hq hp he)
      rw [Function.update_of_ne hne, Function.update_of_ne hqp, h.stored q hq]
  · by_cases he : id = toPointId cfg.decimal cfg.sha256 p
    · exact ⟨p, hp, he.symm⟩
    · rw [Function.update_of_ne he] at hne
      exact h.only id hne
  · by_cases hqp : q = p
    · exact hqp ▸ hp
    · rw [Function.update_of_ne hqp] at hne
      exact h.known q hne
  · by_cases hqp : q = p
    · subst q
      rw [Function.update_self] at hx
      cases hx
      exact cacheId_tag hs.lawful hid
    · rw [Function.update_of_ne hqp] at hx
      exact h.named q x hx

theorem Carries.remove (h : Carries cfg Ids pts b) (hs : Setting cfg client score R Ids) {ps : List String}
    (hps : ∀ p ∈ ps, Ids p) :
    Carries cfg Ids (fun id => if id ∈ ps.map (toPointId cfg.decimal cfg.sha256) then none else pts id)
      (fun p => if p ∈ ps then none else b p) := by
  have hmem :
      ∀ p, Ids p → (toPointId cfg.decimal cfg.sha256 p ∈ ps.map (toPointId cfg.decimal cfg.sha256) ↔ p ∈ ps) := by
    intro p hp
    constructor
    · intro hm
      obtain ⟨q, hq, he⟩ := List.mem_map.mp hm
      exact hs.apart q p (hps q hq) hp he ▸ hq
    · exact List.mem_map_of_mem
  refine ⟨fun p hp => ?_, fun id hne => ?_, fun p hne => ?_, fun p x hx => ?_⟩
  · by_cases hin : p ∈ ps
    · simp [hin, (hmem p hp).mpr hin]
    · rw [if_neg (fun hm => hin ((hmem p hp).mp hm)), if_neg hin, h.stored p hp]
  · split at hne
    · exact absurd rfl hne
    · exact h.only id hne
  · split at hne
    · exact absurd rfl hne
    · exact h.known p hne
  · split at hx
    · cases hx
    · exact h.named p x hx

/-- A collection that is there and whose dimension is known, the others as they were. -/
structure Ready (cfg : QdrantConfig V P) (Ids : String → Prop) (R : σ → Collections V P → Prop) (vectorDim : Nat)
    (st st' : QdrantVectorStore σ) (m : Collections V P) (c : String) (b : Points V P) (m' : Collections V P) :
    Prop where
  server : R st'.server m'
  others : ∀ c', c' ≠ c → m' c' = m c' ∧ st'.dims.get? c' = st.dims.get? c'
  known : st'.dims.get? c = some vectorDim
  here : ∃ pts, m' c = some (vectorDim, pts) ∧ Carries cfg Ids pts b

theorem Ready.refines {st' : QdrantVectorStore σ} {m m' : Collections V P} {c : String}
    (h : Ready cfg Ids R vectorDim st st' m c b m')
    (hold : ∀ c', c' ≠ c → Holds cfg Ids vectorDim (st.dims.get? c') (m c') (a c')) :
    Refines cfg Ids R vectorDim st' (Function.update a c b) := by
  refine ⟨m', h.server, fun c' => ?_⟩
  by_cases hc : c' = c
  · subst c'
    obtain ⟨pts, hpts, hcarries⟩ := h.here
    rw [Function.update_self]
    exact .inr ⟨pts, hpts, .inr h.known, hcarries⟩
  · obtain ⟨hm, hd⟩ := h.others c' hc
    rw [Function.update_of_ne hc, hm, hd]
    exact hold c' hc

section
variable (hs : Setting cfg client score R Ids)
include hs

/-- The collection is created if the server has none. -/
theorem ensure_ready {m : Collections V P} (hR : R st.server m) {c : String}
    (h : Holds cfg Ids vectorDim (st.dims.get? c) (m c) b) : ∃ st' m',
      st.ensureCollection cfg client c vectorDim = (.ok (), st') ∧ Ready cfg Ids R vectorDim st st' m c b m' := by
  have hfound := hs.documented.found hR c
  rcases h with ⟨hm, hd, rfl⟩ | ⟨pts, hm, -, hcarries⟩
  · obtain ⟨hok, hnext⟩ := hs.documented.create hR c vectorDim hm
    rw [hm] at hfound
    cases hcreate : client.createCollection st.server c vectorDim with
    | mk res server =>
      rw [hcreate] at hok hnext
      cases hok
      refine ⟨{ st with server, dims := st.dims.set c vectorDim }.touch c, _, ?_, hnext, ?_, ?_, ?_⟩
      · simp only [QdrantVectorStore.ensureCollection, collectionExists, hfound, Option.isSome_none, hs.distance,
          not_true_eq_false, ↓reduceIte, hcreate]
      · intro c' hc
        exact ⟨Function.update_of_ne hc _ _, Dict.get?_set_ne _ _ hc⟩
      · exact Dict.get?_set_self _ _ _
      · exact ⟨_, Function.update_self _ _ _, carries_empty⟩
  · have hsize := hs.documented.size hR c _ _ hm
    rw [hm] at hfound
    refine ⟨{ st with dims :=
      (st.dims.set c vectorDim).set c (((some vectorDim).filter (· ≠ 0)).getD vectorDim) }, m, ?_, hR, ?_, ?_,
      pts, hm, hcarries⟩
    · simp only [QdrantVectorStore.ensureCollection, collectionExists, hfound, Option.isSome_some,
        probeVectorSize, hsize]
    · intro c' hc
      exact ⟨rfl, by rw [Dict.get?_set_ne _ _ hc, Dict.get?_set_ne _ _ hc]⟩
    · rw [Dict.get?_set_self]
      rw [Option.filter_some]
      split <;> rfl

theorem upsertKnown_ready {st₁ : QdrantVectorStore σ} {m m₁ : Collections V P} {c p : String} {v : V} {payload : P}
    (h : Ready cfg Ids R vectorDim st st₁ m c b m₁) (hp : Ids p) (hv : cfg.dim v = vectorDim)
    (hid : ∀ id, cfg.reader.cacheId payload = some id → id = p) : ∃ st' m',
      st₁.upsertKnown cfg client c p v payload vectorDim = (.ok (), st') ∧
      Ready cfg Ids R vectorDim st st' m c (Function.update b p (some (v, payload))) m' := by
  obtain ⟨pts, hpts, hcarries⟩ := h.here
  obtain ⟨hok, hnext⟩ := hs.documented.upsert h.server c (toPointId cfg.decimal cfg.sha256 p) v
    (cfg.reader.tag payload p) _ _
    hpts hv
  cases hup : client.upsert st₁.server c (toPointId cfg.decimal cfg.sha256 p) v (cfg.reader.tag payload p) with
  | mk res server =>
    rw [hup] at hok hnext
    cases hok
    refine ⟨{ st₁ with
      server, idMap := st₁.idMap.set c ((st₁.ids c).set (toPointId cfg.decimal cfg.sha256 p) p) }, _, ?_, hnext, ?_,
      h.known, _, Function.update_self _ _ _, hcarries.put hs hp hid⟩
    · simp only [upsertKnown, hv, ne_eq, not_true_eq_false, ↓reduceIte, hup]
    · intro c' hc
      obtain ⟨hm, hd⟩ := h.others c' hc
      exact ⟨by rw [Function.update_of_ne hc, hm], hd⟩

/-- The point id stands for the cache id, under which the payload is tagged. -/
theorem upsert_refines (h : Refines cfg Ids R vectorDim st a) {c p : String} {v : V} {payload : P} (hp : Ids p)
    (hv : cfg.dim v = vectorDim) (hid : ∀ id, cfg.reader.cacheId payload = some id → id = p) :
    Refines cfg Ids R vectorDim (st.upsert cfg client c p v payload).2
      (Function.update a c (Function.update (a c) p (some (v, payload)))) := by
  obtain ⟨m, hR, hall⟩ := h
  have hready : ∃ st₁ m₁, st.upsert cfg client c p v payload =
      st₁.upsertKnown cfg client c p v payload vectorDim ∧ Ready cfg Ids R vectorDim st st₁ m c (a c) m₁ := by
    cases hd : st.dims.get? c with
    | some known =>
      rcases hall c with ⟨-, hnone, -⟩ | ⟨pts, hm, hknown, hcarries⟩
      · rw [hd] at hnone
        cases hnone
      · have hk : known = vectorDim := by simpa [hd] using hknown
        subst hk
        exact ⟨st, m, by simp only [QdrantVectorStore.upsert, hd],
          hR, fun _ _ => ⟨rfl, rfl⟩, hd, pts, hm, hcarries⟩
    | none =>
      obtain ⟨st₁, m₁, hensure, hready⟩ := ensure_ready hs hR (hall c)
      refine ⟨st₁, m₁, ?_, hready⟩
      simp only [QdrantVectorStore.upsert, hd, hv, hensure, hready.known, Option.getD_some]
  obtain ⟨st₁, m₁, hup, hready⟩ := hready
  obtain ⟨st', m', hknown, hready'⟩ := upsertKnown_ready hs hready hp hv hid
  rw [hup, hknown]
  exact hready'.refines fun c' _ => hall c'

theorem delete_refines (h : Refines cfg Ids R vectorDim st a) {c : String} {ps : List String}
    (hps : ∀ p ∈ ps, Ids p) :
    Refines cfg Ids R vectorDim (st.delete cfg client c ps).2
      (Function.update a c fun p => if p ∈ ps then none else a c p) := by
  obtain ⟨m, hR, hall⟩ := h
  unfold QdrantVectorStore.delete
  split
  · rename_i hnil
    subst hnil
    simp only [List.not_mem_nil, ↓reduceIte, Function.update_eq_self]
    exact ⟨m, hR, hall⟩
  · rcases hall c with ⟨hm, hd, ha⟩ | ⟨pts, hm, hknown, hcarries⟩
    · obtain ⟨⟨e, he, hmissing⟩, hnext⟩ :=
        hs.documented.delete_missing hR c (ps.map (toPointId cfg.decimal cfg.sha256)) hm
      cases hdel : client.delete st.server c (ps.map (toPointId cfg.decimal cfg.sha256)) with
      | mk res server =>
        rw [hdel] at he hnext
        subst he
        simp only [hdel, hmissing, ↓reduceIte]
        have hsame : Function.update a c (fun p => if p ∈ ps then none else a c p) = a := by
          rw [ha]
          simp [← ha]
        rw [hsame]
        exact ⟨m, hnext, hall⟩
    · obtain ⟨hok, hnext⟩ := hs.documented.delete hR c (ps.map (toPointId cfg.decimal cfg.sha256)) _ _ hm
      cases hdel : client.delete st.server c (ps.map (toPointId cfg.decimal cfg.sha256)) with
      | mk res server =>
        rw [hdel] at hok hnext
        cases hok
        have hall' : ∀ c', Holds cfg Ids vectorDim (st.dims.get? c')
            (Function.update m c (some (vectorDim, fun id =>
              if id ∈ ps.map (toPointId cfg.decimal cfg.sha256) then none else pts id)) c')
            (Function.update a c (fun p => if p ∈ ps then none else a c p) c') := by
          intro c'
          by_cases hc' : c' = c
          · subst c'
            rw [Function.update_self, Function.update_self]
            exact .inr ⟨_, rfl, hknown, hcarries.remove hs hps⟩
          · rw [Function.update_of_ne hc', Function.update_of_ne hc']
            exact hall c'
        simp only [hdel]
        cases st.idMap.get? c <;> exact ⟨_, hnext, hall'⟩

omit hs in
/-- A search writes nothing. -/
theorem search_refines (h : Refines cfg Ids R vectorDim st a) (c : String) (q : V) (t : Option Rat)
    (answer : Except Failure (List (ScoredPoint P))) :
    Refines cfg Ids R vectorDim (st.search cfg c q t answer).2 a := by
  unfold QdrantVectorStore.search
  split
  · exact h
  · split
    · split <;> exact h
    · exact h

theorem step_refines (h : Refines cfg Ids R vectorDim st a) {op : VectorOp V P}
    (hop : Usual cfg vectorDim Ids op) :
    Refines cfg Ids R vectorDim (st.step cfg client vectorDim op) (pointsStep a op) := by
  cases op with
  | ensure c =>
    obtain ⟨m, hR, hall⟩ := h
    obtain ⟨st', m', hensure, hready⟩ := ensure_ready hs hR (hall c)
    have h := hready.refines fun c' _ => hall c'
    rw [Function.update_eq_self] at h
    simpa only [QdrantVectorStore.step, hensure, pointsStep] using h
  | upsert c p v payload => exact upsert_refines hs h hop.1 hop.2.1 hop.2.2
  | delete c ps => exact delete_refines hs h hop
  | search c q limit t => exact search_refines h c q t _
  | reopen =>
    obtain ⟨m, hR, hall⟩ := h
    refine ⟨m, hR, fun c => ?_⟩
    rcases hall c with ⟨hm, -, ha⟩ | ⟨pts, hm, -, hcarries⟩
    · exact .inl ⟨hm, rfl, ha⟩
    · exact .inr ⟨pts, hm, .inl rfl, hcarries⟩

theorem run_refines (h : Refines cfg Ids R vectorDim st a) {ops : List (VectorOp V P)}
    (hops : ∀ op ∈ ops, Usual cfg vectorDim Ids op) :
    Refines cfg Ids R vectorDim (ops.foldl (QdrantVectorStore.step cfg client vectorDim) st)
      (ops.foldl pointsStep a) := by
  induction ops generalizing st a with
  | nil => exact h
  | cons op ops ih =>
    exact ih (step_refines hs h (hops op (by simp))) fun o ho => hops o (by simp [ho])

end

def report (cfg : QdrantConfig V P) (score : V → V → Rat) (q : V) (scoreThreshold : Option Rat)
    (x : String × V × P) : Option (VectorSearchResult P) :=
  if scoreThreshold.any fun t => score q x.2.1 < t then none
  else some ⟨x.1, score q x.2.1, cfg.reader.prompt x.2.2, cfg.reader.savedSteps x.2.2, cfg.reader.tag x.2.2 x.1⟩

/-- The best points of a collection, each with its caller's id. -/
def Reports (cfg : QdrantConfig V P) (score : V → V → Rat) (b : Points V P) (q : V) (limit : Nat)
    (scoreThreshold : Option Rat) (res : List (VectorSearchResult P)) : Prop :=
  ∃ picked, Best (fun x y : String × V × P => score q y.2.1 ≤ score q x.2.1) limit
      (fun x => b x.1 = some x.2) picked ∧
    res = picked.filterMap (report cfg score q scoreThreshold)

theorem report_eq (hl : PayloadLawful cfg.reader) {q : V} {t : Option Rat} {x : String × V × P}
    (hx : cfg.reader.cacheId (cfg.reader.tag x.2.2 x.1) = some x.1) (c : String) :
    (scored score q t (toPointId cfg.decimal cfg.sha256 x.1, x.2.1, cfg.reader.tag x.2.2 x.1)).bind
      (st.toResult cfg c t) = report cfg score q t x := by
  have hprompt : cfg.reader.prompt (cfg.reader.tag x.2.2 x.1) = cfg.reader.prompt x.2.2 := by
    unfold PayloadDict.tag
    split
    · rfl
    · exact hl.prompt_set _ _
  have hsteps : cfg.reader.savedSteps (cfg.reader.tag x.2.2 x.1) = cfg.reader.savedSteps x.2.2 := by
    unfold PayloadDict.tag
    split
    · rfl
    · exact hl.savedSteps_set _ _
  unfold scored report
  split
  · rfl
  · rename_i ht
    simp only [Option.bind_some, QdrantVectorStore.toResult, ht, Bool.false_eq_true, ↓reduceIte, resultId, hx,
      Option.getD_some, hprompt, hsteps]

/-- The callers' points and the server's, one for the other. -/
theorem Carries.best (h : Carries cfg Ids pts b) (hs : Setting cfg client score R Ids) (q : V) (limit : Nat)
    (t : Option Rat) (c : String) (res : List (VectorSearchResult P)) :
    (∃ picked, Best (fun x y : String × V × P => score q y.2.1 ≤ score q x.2.1) limit
        (fun x => pts x.1 = some x.2) picked ∧
      res = (picked.filterMap (scored score q t)).filterMap (st.toResult cfg c t)) ↔
    Reports cfg score b q limit t res := by
  have hinj : ∀ x y : String × V × P, b x.1 = some x.2 → b y.1 = some y.2 →
      (toPointId cfg.decimal cfg.sha256 x.1, x.2.1, cfg.reader.tag x.2.2 x.1) =
        (toPointId cfg.decimal cfg.sha256 y.1, y.2.1, cfg.reader.tag y.2.2 y.1) → x = y := by
    intro x y hx hy he
    have hid : x.1 = y.1 := hs.apart _ _ (h.known _ (by simp [hx])) (h.known _ (by simp [hy]))
      (congrArg Prod.fst he)
    rw [hid, hy] at hx
    exact Prod.ext hid (Option.some.inj hx).symm
  have hmem : ∀ x : String × V × P, b x.1 = some x.2 →
      pts (toPointId cfg.decimal cfg.sha256 x.1) = some (x.2.1, cfg.reader.tag x.2.2 x.1) := by
    intro x hx
    rw [h.stored _ (h.known _ (by simp [hx])), hx]
    rfl
  have hsur : ∀ y : String × V × P, pts y.1 = some y.2 → ∃ x : String × V × P, b x.1 = some x.2 ∧
      (toPointId cfg.decimal cfg.sha256 x.1, x.2.1, cfg.reader.tag x.2.2 x.1) = y := by
    rintro ⟨id, v, payload⟩ hy
    obtain ⟨p, hp, rfl⟩ := h.only id (by simp [hy])
    have hstored := h.stored p hp
    simp only at hy
    rw [hy] at hstored
    obtain ⟨x, hx, he⟩ := Option.map_eq_some_iff.mp hstored.symm
    exact ⟨(p, x), hx, by rw [Prod.mk.injEq]; exact ⟨rfl, he⟩⟩
  have hres : ∀ picked : List (String × V × P), (∀ x ∈ picked, b x.1 = some x.2) →
      ((picked.map fun x => (toPointId cfg.decimal cfg.sha256 x.1, x.2.1, cfg.reader.tag x.2.2 x.1)).filterMap
        (scored score q t)).filterMap (st.toResult cfg c t) = picked.filterMap (report cfg score q t) := by
    intro picked hpicked
    rw [List.filterMap_map, List.filterMap_filterMap]
    exact List.filterMap_congr fun x hx => report_eq hs.lawful (h.named _ _ (hpicked x hx)) c
  constructor
  · rintro ⟨picked', hbest, rfl⟩
    have hle : ∀ x y : String × V × P, b x.1 = some x.2 → b y.1 = some y.2 →
        score q y.2.1 ≤ score q x.2.1 → score q y.2.1 ≤ score q x.2.1 := fun _ _ _ _ => id
    obtain ⟨picked, rfl, hpicked⟩ := Best.comap (S := fun x : String × V × P => b x.1 = some x.2) hbest
      hinj hmem hsur hle
    exact ⟨picked, hpicked, hres picked hpicked.mem⟩
  · rintro ⟨picked, hbest, rfl⟩
    exact ⟨_, hbest.map hinj hmem hsur fun _ _ _ _ hle => hle, (hres picked hbest.mem).symm⟩

/-- A store that holds the collections answers as they do. -/
theorem Refines.answers (h : Refines cfg Ids R vectorDim st a) (hs : Setting cfg client score R Ids) {q : V}
    (hq : cfg.dim q = vectorDim) {limit : Nat} (hl : 0 < limit) (c : String) (t : Option Rat)
    (res : List (VectorSearchResult P)) :
    st.Answers cfg client c q limit t res ↔ Reports cfg score (a c) q limit t res := by
  obtain ⟨m, hR, hall⟩ := h
  have hlimit : max 1 limit = limit := by omega
  unfold QdrantVectorStore.Answers
  rw [hlimit]
  rcases hall c with ⟨hm, hd, ha⟩ | ⟨pts, hm, hknown, hcarries⟩
  · obtain ⟨hsome, hmissing⟩ := hs.documented.query_missing hR c q limit t hm
    have hempty : ∀ picked, Best (fun x y : String × V × P => score q y.2.1 ≤ score q x.2.1) limit
        (fun x => a c x.1 = some x.2) picked ↔ picked = [] := by
      intro picked
      rw [ha]
      constructor
      · exact fun hb => List.eq_nil_iff_forall_not_mem.mpr fun x hx => nomatch hb.mem x hx
      · rintro rfl
        exact ⟨List.nodup_nil, (fun x hx => nomatch hx), Nat.zero_le _, List.Pairwise.nil, fun y hy => nomatch hy⟩
    have hsearch : ∀ answer, client.queries st.server c q limit t answer →
        (st.search cfg c q t answer).1 = .ok [] := by
      intro answer hans
      obtain ⟨e, rfl, he⟩ := hmissing answer hans
      simp only [QdrantVectorStore.search, hd, Option.filter_none, he, ↓reduceIte]
    constructor
    · rintro ⟨answer, hans, hres⟩
      rw [hsearch answer hans] at hres
      cases hres
      exact ⟨[], (hempty _).mpr rfl, rfl⟩
    · rintro ⟨picked, hbest, rfl⟩
      obtain ⟨answer, hans⟩ := hsome
      exact ⟨answer, hans, by rw [hsearch answer hans, (hempty _).mp hbest]; rfl⟩
  · have hquery := hs.documented.query hR c q limit t vectorDim pts hm hq hl
    have hsearch : ∀ points, (st.search cfg c q t (.ok points)).1 =
        .ok (points.filterMap (st.toResult cfg c t)) := by
      intro points
      have hpass : (st.dims.get? c).filter (· ≠ cfg.dim q) = none := by
        rcases hknown with hd | hd <;> simp [hd, hq]
      simp only [QdrantVectorStore.search, hpass]
    rw [← hcarries.best hs q limit t c res]
    constructor
    · rintro ⟨answer, hans, hres⟩
      obtain ⟨picked, hbest, rfl⟩ := (hquery answer).mp hans
      rw [hsearch] at hres
      exact ⟨picked, hbest, (Except.ok.inj hres).symm⟩
    · rintro ⟨picked, hbest, rfl⟩
      exact ⟨_, (hquery _).mpr ⟨picked, hbest, rfl⟩, hsearch _⟩

/-- What a server raises for a collection that it does not have. -/
def notFound (c : String) : Failure := ⟨"ValueError", "Collection " ++ c ++ " not found"⟩

def memoryClient (score : V → V → Rat) : QdrantClient (Collections V P) V P where
  collectionExists m c := .ok (m c).isSome
  getCollection m c :=
    match m c with
    | none => .error (notFound c)
    | some (n, _) => .ok (some n)
  createCollection m c n := (.ok (), Function.update m c (some (n, fun _ => none)))
  upsert m c id v p :=
    match m c with
    | none => (.error (notFound c), m)
    | some (n, pts) => (.ok (), Function.update m c (some (n, Function.update pts id (some (v, p)))))
  delete m c ids :=
    match m c with
    | none => (.error (notFound c), m)
    | some (n, pts) => (.ok (), Function.update m c (some (n, fun id => if id ∈ ids then none else pts id)))
  queries m c q limit t answer :=
    match m c with
    | none => answer = .error (notFound c)
    | some (_, pts) => ∃ picked, Best (fun x y : String × V × P => score q y.2.1 ≤ score q x.2.1) limit
        (fun x => pts x.1 = some x.2) picked ∧ answer = .ok (picked.filterMap (scored score q t))

theorem isMissing_of_infix {err : String} (h : "not found".toList <:+: err.toList.map Char.toLower) :
    isMissing err = true := by
  unfold isMissing
  simp only [Bool.or_eq_true, decide_eq_true_eq]
  exact .inl (.inl h)

theorem notFound_toList (c : String) :
    (notFound c).err.toList = ("Collection ".toList ++ c.toList ++ [' ']) ++ "not found".toList := by
  simp [notFound]

theorem notFound_lower : "not found".toList.map Char.toLower = "not found".toList := by
  decide

/-- A server without the collection says so in words that the store looks for. -/
theorem isMissing_notFound (c : String) : isMissing (notFound c).err = true := by
  apply isMissing_of_infix
  rw [notFound_toList, List.map_append, notFound_lower]
  exact (List.suffix_append _ _).isInfix

theorem memoryClient_documented (dim : V → Nat) (score : V → V → Rat) :
    Documented (memoryClient score : QdrantClient (Collections V P) V P) dim score fun s m => s = m where
  found := by
    rintro s m rfl c
    rfl
  size := by
    rintro s m rfl c n pts hc
    simp only [memoryClient, hc]
  create := by
    rintro s m rfl c n _
    exact ⟨rfl, rfl⟩
  upsert := by
    rintro s m rfl c id v p n pts hc _
    simp only [memoryClient, hc, and_self]
  delete := by
    rintro s m rfl c ids n pts hc
    simp only [memoryClient, hc, and_self]
  delete_missing := by
    rintro s m rfl c ids hc
    simp only [memoryClient, hc, Except.error.injEq, exists_eq_left', isMissing_notFound, and_self]
  query := by
    rintro s m rfl c q limit t n pts hc _ _ answer
    simp only [memoryClient, hc]
  query_missing := by
    rintro s m rfl c q limit t hc
    simp only [memoryClient, hc, exists_eq, forall_eq, Except.error.injEq, exists_eq_left', true_and,
      isMissing_notFound]

end CacheSeek.Proofs.QdrantMap
