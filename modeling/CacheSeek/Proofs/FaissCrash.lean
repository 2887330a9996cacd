import CacheSeek.Proofs.FaissStoreMap

namespace CacheSeek.Proofs.FaissCrash
open CacheSeek.Lib CacheSeek.Backends CacheSeek.Proofs.FaissMap CacheSeek.Proofs.FaissRuns
open CacheSeek.Proofs.FaissStoreMap (pointResult_spec answer_points lineConfig takingConfig line_json
  taking_json line_hits)

variable {V P : Type} {cfg : FaissConfig V P} {st st' : FaissStore V P} {c : String} {ix : Index V}
  {m : Metadata P} {a : String → Points V P} {pts : Points V P}

def savedMetadata (st : FaissStore V P) (c : String) : Metadata P :=
  match st.disk.metaFiles.get? c with
  | some (.metadata m) => m
  | _ => {}

def savedEntries (st : FaissStore V P) (c : String) : List (Int × V) :=
  match st.disk.indexFiles.get? c with
  | some (.index ix) => ix.entries
  | _ => []

/-- The crash falls between the two replaces of the save of an upsert, which is not refused. A
collection that is not there is saved once before. -/
def Torn (cfg : FaissConfig V P) (stops : Option SaveStep × Option SaveStep) (st : FaissStore V P) :
    VectorOp V P → Prop
  | .upsert c p v payload => cfg.space.dim v = cfg.vectorDim ∧ cfg.supported = true ∧
      stops.2 = some .replaceMeta ∧ (st.disk.indexFiles.get? c = none → stops.1 = none) ∧
      ¬ st.Refused cfg (.upsert c p v payload)
  | _ => False

/-- The point had an id, and its payload is the old one or its vector does not differ from the old
one in any search. -/
def Harmless (cfg : FaissConfig V P) (st : FaissStore V P) : VectorOp V P → Prop
  | .upsert c p v payload => ∃ i, (savedMetadata st c).idMap.get? p = some i ∧
      (((savedMetadata st c).payload.get? p).getD cfg.reader.empty = payload ∨
        ∃ u, (i, u) ∈ savedEntries st c ∧ ∀ q, cfg.space.dim q = cfg.vectorDim →
          cfg.space.dist (cfg.prepare q) u = cfg.space.dist (cfg.prepare q) (cfg.prepare v))
  | _ => True

theorem savedMetadata_eq (h : Present st c ix m) : savedMetadata st c = m := by
  rcases h.metaFile with hm | ⟨hm, rfl⟩
  · rw [savedMetadata, hm]
  · rw [savedMetadata, hm]

theorem savedEntries_eq (h : Present st c ix m) : savedEntries st c = ix.entries := by
  rw [savedEntries, h.indexFile]

/-- The directory after a crash that touched one collection only. -/
theorem refines_crashed (h : Refines cfg st a) (hother : ∀ c', c' ≠ c → SameAt st st' c')
    (hc : Holds cfg { st' with memory := {} } c pts) :
    Refines cfg { st' with memory := {} } (Function.update a c pts) := by
  intro c'
  by_cases he : c' = c
  · subst c'
    rw [Function.update_self]
    exact hc
  · rw [Function.update_of_ne he]
    exact ((h c').sameAt (hother c' he)).forget

theorem refines_crashed_same (h : Refines cfg st a) (hother : ∀ c', c' ≠ c → SameAt st st' c')
    (hc : Holds cfg { st' with memory := {} } c (a c)) : Refines cfg { st' with memory := {} } a := by
  have := refines_crashed h hother hc
  rwa [Function.update_eq_self] at this

/-- A crash in the making of a collection. -/
theorem refines_crashed_new (h : Refines cfg st a) (hc : Absent st c) (hsup : cfg.supported = true)
    {stop : Option SaveStep} (hd : Done cfg st st' c ⟨cfg.vectorDim, []⟩ {} stop) :
    Refines cfg { st' with memory := {} } a := by
  have hpts : a c = fun _ => none := by
    rcases h c with ⟨_, hpts⟩ | ⟨ix, m, hp, _⟩
    · exact hpts
    · exact absurd (hc.indexFile.symm.trans hp.indexFile) (by simp)
  apply refines_crashed_same h hd.other
  rcases hd.crash_new hc with hc' | hc'
  · exact Or.inl ⟨hc', hpts⟩
  · rw [hpts]
    exact Or.inr ⟨_, _, hc', hsup, represents_empty⟩

theorem refines_loaded (h : Refines cfg st a) (hl : LoadedFrom st st' c ix m) :
    Refines cfg { st' with memory := {} } a := by
  have hdisk : { st' with memory := {} } = { st with memory := {} } := by rw [hl.disk]
  rw [hdisk]
  exact h.forget

/-- An upsert of a collection that is there, after a crash that does not tear its save. -/
theorem crashed_upsert (h : Refines cfg st a) (hc : Present st c ix m) (hsup : cfg.supported = true)
    (hr : Represents cfg ix m (a c)) {stops : Option SaveStep × Option SaveStep} {p : String} {v : V}
    {payload : P} (hpay : cfg.reader.dumps payload = true)
    (hstop : cfg.space.dim v = cfg.vectorDim → Taken cfg m p → stops.2 ≠ some .replaceMeta) :
    Refines cfg (st.crash cfg stops (.upsert c p v payload)) a ∨
      Refines cfg (st.crash cfg stops (.upsert c p v payload)) (absStep cfg a (.upsert c p v payload)) := by
  simp only [FaissStore.crash, FaissStore.apply]
  by_cases htaken : Taken cfg m p
  swap
  · obtain ⟨e, st', he, hl⟩ := upsert_refused stops (loadIndex_present cfg hc) (v := v)
      (Or.inr htaken) payload
    rw [he]
    exact Or.inl (refines_loaded h hl)
  rcases upsert_present stops hc hr (fun _ => htaken) hpay with ⟨_, e, st', he, hl⟩ | ⟨hv, res, st', he, hd⟩
  · rw [he]
    exact Or.inl (refines_loaded h hl)
  · rw [he, absStep, if_pos ⟨hv, hsup⟩]
    rcases hd.crash hc with ⟨_, _, hc'⟩ | ⟨hs, _⟩ | ⟨_, hc'⟩
    · exact Or.inl (refines_crashed_same h hd.other (Or.inr ⟨ix, m, hc', hsup, hr⟩))
    · exact absurd hs (hstop hv htaken)
    · exact Or.inr (refines_crashed h hd.other (Or.inr ⟨_, _, hc', hsup, represents_put hr p v hpay⟩))

theorem not_refused_taken (hl : LoadsAs cfg st c ix m) {p : String} (htaken : Taken cfg m p) (v : V) (payload : P) :
    ¬ st.Refused cfg (.upsert c p v payload) := by
  rintro ⟨hno, _, hknown⟩
  rw [loadedIds_loads hl] at hknown
  rcases htaken with htakes | hnone
  · rw [hno] at htakes
    cases htakes
  · exact hknown hnone

theorem not_refused_absent (hc : Absent st c) (p : String) (v : V) (payload : P) :
    ¬ st.Refused cfg (.upsert c p v payload) := by
  rintro ⟨_, _, hknown⟩
  simp only [loadedIds, loadIndex_absent cfg hc] at hknown
  exact hknown rfl

/-- A crash that does not tear an upsert leaves the state before the operation or after it. -/
theorem crash_refines (h : Refines cfg st a) {op : VectorOp V P} (hop : op.Json cfg)
    {stops : Option SaveStep × Option SaveStep} (htorn : ¬ Torn cfg stops st op) :
    Refines cfg (st.crash cfg stops op) a ∨ Refines cfg (st.crash cfg stops op) (absStep cfg a op) := by
  cases op with
  | ensure c =>
    left
    simp only [FaissStore.crash, FaissStore.apply]
    rcases h c with ⟨hc, _⟩ | ⟨ix, m, hc, _, _⟩
    · rcases ensure_absent cfg stops.1 hc with ⟨_, e, he⟩ | ⟨hsup, res, st1, he, hd, _⟩
      · rw [he]
        exact h.forget
      · rw [he]
        exact refines_crashed_new h hc hsup hd
    · obtain ⟨st', hload, hl⟩ := loadIndex_present cfg hc
      simp only [ensureCollection, hload]
      exact refines_loaded h hl
  | upsert c p v payload =>
    rcases h c with ⟨hc, hpts⟩ | ⟨ix, m, hc, hsup, hr⟩
    · rcases ensure_absent cfg stops.1 hc with ⟨_, e, he⟩ | ⟨hsup, res, st1, he, hd, hok, herr⟩
      · left
        simp only [FaissStore.crash, FaissStore.apply, upsert, loadIndex_absent cfg hc, he]
        exact h.forget
      · obtain ⟨stop1, stop2⟩ := stops
        cases stop1 with
        | some stop =>
          left
          obtain ⟨e, rfl⟩ := herr (Option.some_ne_none stop)
          simp only [FaissStore.crash, FaissStore.apply, upsert, loadIndex_absent cfg hc, he]
          exact refines_crashed_new h hc hsup hd
        | none =>
          obtain ⟨st1, hd, heq⟩ := upsert_absent stop2 hc hsup p v payload
          simp only [FaissStore.crash, FaissStore.apply]
          rw [heq]
          exact crashed_upsert (h.ensured hc hsup hd) hd.present hsup (hpts ▸ represents_empty) hop
            fun hv _ hs => htorn ⟨hv, hsup, hs, fun _ => rfl, not_refused_absent hc p v payload⟩
    · refine crashed_upsert h hc hsup hr hop fun hv htaken hs => htorn ⟨hv, hsup, hs, ?_,
        not_refused_taken (loadIndex_present cfg hc) htaken v payload⟩
      intro hnone
      rw [hc.indexFile] at hnone
      cases hnone
  | delete c ps =>
    simp only [FaissStore.crash, FaissStore.apply, absStep]
    rcases h c with ⟨hc, _⟩ | ⟨ix, m, hc, hsup, hr⟩
    · left
      simp only [Backends.delete, loadIndex_absent cfg hc]
      exact h.forget
    · by_cases htaken : ∀ p ∈ ps, Taken cfg m p
      swap
      · rw [not_forall] at htaken
        obtain ⟨p, hp⟩ := htaken
        rw [Classical.not_imp] at hp
        obtain ⟨st', he, hd⟩ := delete_refused stops.2 (loadIndex_present cfg hc) ⟨p, hp⟩
        rw [he]
        rcases hd.crash hc with ⟨_, _, hc'⟩ | ⟨hs, _⟩ | ⟨hs, _⟩
        · exact Or.inl (refines_crashed_same h hd.other (Or.inr ⟨ix, m, hc', hsup, hr⟩))
        · cases hs
        · cases hs
      obtain ⟨res, st', he, hd⟩ := delete_done cfg stops.2 hc hr.dumps htaken
      rw [he]
      -- an index without the vectors serves, with either metadata
      rcases hd.crash hc with ⟨_, _, hc'⟩ | ⟨_, hc'⟩ | ⟨_, hc'⟩
      · exact Or.inl (refines_crashed_same h hd.other (Or.inr ⟨ix, m, hc', hsup, hr⟩))
      · exact Or.inr (refines_crashed h hd.other
          (Or.inr ⟨_, _, hc', hsup, represents_torn_delete hr ps⟩))
      · exact Or.inr (refines_crashed h hd.other (Or.inr ⟨_, _, hc', hsup, represents_delete hr ps⟩))
  | search c v limit t =>
    left
    have hload := h.load c
    simp only [FaissStore.crash, FaissStore.apply, Backends.search]
    generalize loadIndex cfg st c = x at hload
    obtain ⟨e | _ | ix, st'⟩ := x
    · exact hload.forget
    · exact hload.forget
    · dsimp only
      split
      · exact hload.forget
      · split
        · exact hload.forget
        · exact hload.forget
  | reopen => exact Or.inl h.forget

/-- A torn upsert leaves the new index and the old metadata. -/
theorem torn_upsert (h : Refines cfg st a) {stops : Option SaveStep × Option SaveStep} {p : String} {v : V}
    {payload : P} (hpay : cfg.reader.dumps payload = true)
    (htorn : Torn cfg stops st (.upsert c p v payload)) :
    ∃ ix m, savedEntries st c = ix.entries ∧ savedMetadata st c = m ∧ Represents cfg ix m (a c) ∧
      Present (st.crash cfg stops (.upsert c p v payload)) c (putIndex cfg ix m p v) m ∧
      ∀ pts, Represents cfg (putIndex cfg ix m p v) m pts →
        Refines cfg (st.crash cfg stops (.upsert c p v payload)) (Function.update a c pts) := by
  obtain ⟨hv, hsup, hstop, hnew, hfree⟩ := htorn
  obtain ⟨stop1, stop2⟩ := stops
  dsimp only at hstop hnew
  subst hstop
  have hpresent : ∀ {st : FaissStore V P} {ix m}, Refines cfg st a → Present st c ix m →
      Represents cfg ix m (a c) → Taken cfg m p →
      Present (st.crash cfg (stop1, some .replaceMeta) (.upsert c p v payload)) c (putIndex cfg ix m p v) m ∧
      ∀ pts, Represents cfg (putIndex cfg ix m p v) m pts →
        Refines cfg (st.crash cfg (stop1, some .replaceMeta) (.upsert c p v payload))
          (Function.update a c pts) := by
    intro st ix m h hc hr htaken
    rcases upsert_present (stop1, some .replaceMeta) hc hr (fun _ => htaken) hpay with ⟨hne, _⟩ | ⟨_, res, st', he, hd⟩
    · exact absurd hv hne
    · simp only [FaissStore.crash, FaissStore.apply]
      rw [he]
      rcases hd.crash hc with ⟨_, hne, _⟩ | ⟨_, hc'⟩ | ⟨hn, _⟩
      · exact absurd rfl hne
      · exact ⟨hc', fun pts hpts => refines_crashed h hd.other (Or.inr ⟨_, _, hc', hsup, hpts⟩)⟩
      · cases hn
  rcases h c with ⟨hc, hpts⟩ | ⟨ix, m, hc, _, hr⟩
  · have hstop1 := hnew hc.indexFile
    subst hstop1
    obtain ⟨st1, hd, heq⟩ := upsert_absent (some .replaceMeta) hc hsup p v payload
    have hempty : Represents cfg ⟨cfg.vectorDim, []⟩ {} (a c) := hpts ▸ represents_empty
    refine ⟨⟨cfg.vectorDim, []⟩, {}, ?_, ?_, hempty, ?_⟩
    · rw [savedEntries, hc.indexFile]
    · rw [savedMetadata, hc.metaFile]
    · have := hpresent (h.ensured hc hsup hd) hd.present hempty (taken_empty cfg p)
      simp only [FaissStore.crash, FaissStore.apply] at this ⊢
      rw [heq]
      exact this
  · exact ⟨ix, m, savedEntries_eq hc, savedMetadata_eq hc, hr,
      hpresent h hc hr (taken_upsert (loadIndex_present cfg hc) hfree hv)⟩

/-- Of a point with an id it leaves the new vector and the old payload. -/
theorem represents_torn (h : Represents cfg ix m pts) {p : String} {i : Int} (hp : m.idMap.get? p = some i)
    (v : V) : Represents cfg (putIndex cfg ix m p v) m
      (Function.update pts p (some (v, (m.payload.get? p).getD cfg.reader.empty))) := by
  simp only [putIndex, claimed, hp]
  exact h.put hp v rfl (fun _ _ => rfl) fun _ => h.dumps

/-- The index can answer with as many vectors as are asked for, or all. -/
theorem exists_hits (cfg : FaissConfig V P) (q : V) (limit : Nat) (ix : Index V) :
    ∃ hits, Hits cfg (cfg.prepare q) limit ix hits := by
  classical
  refine ⟨_, topN_take ?_ ?_ limit ix.entries⟩
  · intro x y
    simp only [FaissConfig.nearer]
    split <;> exact le_total _ _
  · intro x y z
    simp only [FaissConfig.nearer]
    split
    · exact fun h h' => le_trans h h'
    · exact fun h h' => le_trans h' h

/-- A search with room for every vector. -/
theorem hits_all (cfg : FaissConfig V P) (q : V) (ix : Index V) :
    ∃ hits : List (Int × V), hits.Perm ix.entries ∧ Hits cfg (cfg.prepare q) (ix.entries.length + 1) ix hits := by
  obtain ⟨hits, hhits⟩ := exists_hits cfg q (ix.entries.length + 1) ix
  exact ⟨hits, hhits.perm (Nat.le_succ _), hhits⟩

theorem answers_all (hc : Present st c ix m) (hd : ix.d = cfg.vectorDim) {q : V}
    (hq : cfg.space.dim q = cfg.vectorDim) :
    ∃ hits : List (Int × V), hits.Perm ix.entries ∧ Answers cfg st c q (ix.entries.length + 1) none
      (hits.filterMap (toResult cfg m (cfg.prepare q) none)) := by
  obtain ⟨hits, hperm, hhits⟩ := hits_all cfg q ix
  refine ⟨hits, hperm, hits, ?_, search_present hc hd hq (Nat.succ_pos _) none _⟩
  obtain ⟨st', hload, _⟩ := loadIndex_present cfg hc
  intro ix' hix
  rw [hload, Except.ok.injEq, Option.some.injEq] at hix
  exact hix ▸ hhits

theorem similarity_inj {d d' : Rat} (h : cfg.similarity d = cfg.similarity d') : d = d' := by
  unfold FaissConfig.similarity at h
  split at h
  · rwa [one_div, one_div, inv_inj, add_right_inj] at h
  · exact h

/-- A search with room for every vector reports each point. -/
theorem point_shown (hr : Represents cfg ix m pts) {p : String} {v : V} {payload : P}
    (hp : pts p = some (v, payload)) (q : V) :
    ∃ limit res r, 0 < limit ∧ PointsAnswer cfg pts q limit none res ∧
      pointResult cfg q none (p, v, payload) = some r ∧ r ∈ res := by
  obtain ⟨hits, hperm, hhits⟩ := hits_all cfg q ix
  have hmem : entryOf cfg m (p, v, payload) ∈ hits := hperm.mem_iff.mpr (hr.entryOf_mem hp)
  have hrow := @Represents.toResult_entryOf _ _ _ _ _ _ hr q none (p, v, payload) hp
  have hsome : ∃ r, pointResult cfg q none (p, v, payload) = some r := by
    simp only [pointResult, Option.any_none, Bool.false_eq_true, if_false]
    exact ⟨_, rfl⟩
  obtain ⟨r, hr'⟩ := hsome
  refine ⟨_, _, r, Nat.succ_pos _, (hr.answer q _ none _).mp ⟨hits, hhits, rfl⟩, hr', ?_⟩
  exact List.mem_filterMap.mpr ⟨_, hmem, hrow.trans hr'⟩

/-- Points whose answers are answers of others too are among those, at the same distances. -/
theorem shows_point {pts' : Points V P} (hr : Represents cfg ix m pts) {p : String} {v : V} {payload : P}
    (hp : pts p = some (v, payload)) {q : V} (hsame : ∀ limit res, 0 < limit →
      PointsAnswer cfg pts q limit none res → PointsAnswer cfg pts' q limit none res) :
    ∃ w, pts' p = some (w, payload) ∧
      cfg.space.dist (cfg.prepare q) (cfg.prepare w) = cfg.space.dist (cfg.prepare q) (cfg.prepare v) := by
  obtain ⟨limit, res, r, hlimit, hans, hrow, hin⟩ := point_shown hr hp q
  obtain ⟨picked, hbest, hres⟩ := hsame limit res hlimit hans
  rw [hres] at hin
  obtain ⟨⟨p', w, pl⟩, hx, he⟩ := List.mem_filterMap.mp hin
  have hS := hbest.mem _ hx
  rw [← hrow] at he
  simp only [pointResult, Option.any_none, Bool.false_eq_true, if_false, Option.some.injEq,
    VectorSearchResult.mk.injEq] at he
  obtain ⟨rfl, hsim, _, _, rfl⟩ := he
  exact ⟨w, hS, similarity_inj hsim⟩

/-- A store that holds a point shows its payload and its distance from every query. -/
theorem follows_point {x : String → Points V P} (hf : Follows cfg st x) (hc : Present st c ix m)
    (hr : Represents cfg ix m pts) {p : String} {v : V} {payload : P} (hp : pts p = some (v, payload)) {q : V}
    (hq : cfg.space.dim q = cfg.vectorDim) :
    ∃ w, x c p = some (w, payload) ∧
      cfg.space.dist (cfg.prepare q) (cfg.prepare w) = cfg.space.dist (cfg.prepare q) (cfg.prepare v) := by
  refine shows_point hr hp fun limit res hlimit hres => ?_
  obtain ⟨hits, hhits, rfl⟩ := (hr.answer q limit none res).mpr hres
  refine (hf [] (fun _ ho => nomatch ho) trivial c q limit none hlimit hq _).mp
    ⟨hits, ?_, search_present hc hr.size hq hlimit none _⟩
  obtain ⟨st', hload, _⟩ := loadIndex_present cfg hc
  intro ix' hix
  rw [List.foldl_nil, hload, Except.ok.injEq, Option.some.injEq] at hix
  exact hix ▸ hhits

/-- A new point whose upsert was torn is reported twice after the next upsert. -/
theorem torn_new_reported_twice (hc : Present st c (putIndex cfg ix m p v) m) (hr : Represents cfg ix m pts)
    (hp : m.idMap.get? p = none) (hv : cfg.space.dim v = cfg.vectorDim) {payload : P}
    (hpay : cfg.reader.dumps payload = true) (x : String → Points V P) : ¬ Follows cfg st x := by
  intro hf
  obtain ⟨st1, hload, hl⟩ := loadIndex_present cfg hc
  have hd : (putIndex cfg ix m p v).d = cfg.vectorDim := by
    simp only [putIndex, Index.addWithId, claimed_d, hr.size]
  obtain ⟨res, st2, he, hdone, _⟩ := upsertLoaded_done none hl hd hr.dumps (Or.inr hp) hv hpay
  have hstep : (st.step cfg (.upsert c p v payload)) = st2 := by
    simp only [FaissStore.step, FaissStore.apply, upsert, hload, he]
  have hd2 : (putIndex cfg (putIndex cfg ix m p v) m p v).d = cfg.vectorDim := by
    simp only [putIndex, Index.addWithId, claimed_d, hr.size]
  obtain ⟨hits, hperm, hans⟩ := answers_all hdone.present hd2 hv
  have hops : ∀ op ∈ [VectorOp.upsert c p v payload], op.Json cfg := by
    intro op ho
    rw [List.mem_singleton] at ho
    rw [ho]
    exact hpay
  have hfree : Unrefused cfg st [.upsert c p v payload] :=
    ⟨not_refused_taken ⟨st1, hload, hl⟩ (Or.inr hp) v payload, trivial⟩
  rw [← hstep] at hans
  have hnodup := (answer_points ((hf _ hops hfree c v _ none (Nat.succ_pos _) hv _).mp hans)).1
  rw [((hperm.filterMap _).map _).nodup_iff] at hnodup
  -- the orphan and the new vector are of the same id
  have hclaim := hr.claim hp
  have hrow : ∃ r, toResult cfg (putMetadata (putIndex cfg ix m p v) m p payload) (cfg.prepare v) none
      (m.nextId, cfg.prepare v) = some r := by
    have hpos : ¬ m.nextId < 0 := by have := hr.next; omega
    have hfind := findPointId_eq hclaim.inj (Dict.get?_set_self m.idMap p m.nextId)
    simp only [toResult, putMetadata, claimed, hp, if_neg hpos]
    dsimp only at hfind
    rw [hfind]
    exact ⟨_, rfl⟩
  obtain ⟨r, hrow⟩ := hrow
  have hentries : (putIndex cfg (putIndex cfg ix m p v) m p v).entries =
      ix.entries ++ [(m.nextId, cfg.prepare v), (m.nextId, cfg.prepare v)] := by
    simp only [putIndex, claimed, hp, Index.addWithId, List.append_assoc, List.cons_append, List.nil_append]
  rw [hentries, List.filterMap_append, List.filterMap_cons_some hrow, List.filterMap_cons_some hrow,
    List.filterMap_nil, List.map_append] at hnodup
  have htail := (List.nodup_append.mp hnodup).2.1
  exact (List.nodup_cons.mp htail).1 List.mem_cons_self

/-- The collections hold the same points, with vectors at the same distances. -/
def Alike (cfg : FaissConfig V P) (a b : String → Points V P) : Prop :=
  ∀ c p v payload, a c p = some (v, payload) → ∃ w, b c p = some (w, payload) ∧
    ∀ q, cfg.space.dim q = cfg.vectorDim →
      cfg.space.dist (cfg.prepare q) (cfg.prepare v) = cfg.space.dist (cfg.prepare q) (cfg.prepare w)

variable {b : String → Points V P}

theorem Alike.step (h : Alike cfg a b) (op : VectorOp V P) : Alike cfg (absStep cfg a op) (absStep cfg b op) := by
  cases op with
  | upsert c p v payload =>
    intro c' p' w pl hw
    simp only [absStep] at hw ⊢
    split at hw
    · rename_i hok
      rw [if_pos hok]
      by_cases hc : c' = c
      · subst c'
        rw [Function.update_self] at hw ⊢
        by_cases hp : p' = p
        · subst p'
          rw [Function.update_self] at hw ⊢
          cases hw
          exact ⟨v, rfl, fun _ _ => rfl⟩
        · rw [Function.update_of_ne hp] at hw ⊢
          exact h _ _ _ _ hw
      · rw [Function.update_of_ne hc] at hw ⊢
        exact h _ _ _ _ hw
    · rename_i hok
      rw [if_neg hok]
      exact h _ _ _ _ hw
  | delete c ps =>
    intro c' p' w pl hw
    simp only [absStep] at hw ⊢
    by_cases hc : c' = c
    · subst c'
      rw [Function.update_self] at hw ⊢
      split at hw
      · cases hw
      · rename_i hp
        rw [if_neg hp]
        exact h _ _ _ _ hw
    · rw [Function.update_of_ne hc] at hw ⊢
      exact h _ _ _ _ hw
  | _ => exact h

theorem Alike.run (h : Alike cfg a b) (ops : List (VectorOp V P)) :
    Alike cfg (ops.foldl (absStep cfg) a) (ops.foldl (absStep cfg) b) := by
  induction ops generalizing a b with
  | nil => exact h
  | cons op ops ih => exact ih (h.step op)

def counterpart (pts : Points V P) (x : String × V × P) : String × V × P :=
  match pts x.1 with
  | some y => (x.1, y)
  | none => x

theorem counterpart_fst (pts : Points V P) (x : String × V × P) : (counterpart pts x).1 = x.1 := by
  unfold counterpart
  split <;> rfl

theorem Alike.answer (h : Alike cfg a b) (h' : Alike cfg b a) {q : V}
    (hq : cfg.space.dim q = cfg.vectorDim) {limit : Nat} {t : Option Rat}
    {res : List (VectorSearchResult P)} (hres : PointsAnswer cfg (a c) q limit t res) :
    PointsAnswer cfg (b c) q limit t res := by
  obtain ⟨picked, hbest, rfl⟩ := hres
  have hspec : ∀ x : String × V × P, a c x.1 = some x.2 → b c (counterpart (b c) x).1 =
      some (counterpart (b c) x).2 ∧ (counterpart (b c) x).2.2 = x.2.2 ∧
      cfg.space.dist (cfg.prepare q) (cfg.prepare x.2.1) =
        cfg.space.dist (cfg.prepare q) (cfg.prepare (counterpart (b c) x).2.1) := by
    intro x hx
    obtain ⟨w, hw, hdist⟩ := h c x.1 x.2.1 x.2.2 hx
    have hcp : counterpart (b c) x = (x.1, w, x.2.2) := by rw [counterpart, hw]
    rw [hcp]
    exact ⟨hw, rfl, hdist q hq⟩
  refine ⟨picked.map (counterpart (b c)), hbest.map ?_ (fun x hx => (hspec x hx).1) ?_ ?_, ?_⟩
  · intro x y hx hy he
    have hfst := congrArg Prod.fst he
    rw [counterpart_fst, counterpart_fst] at hfst
    rw [hfst, hy] at hx
    exact Prod.ext hfst (Option.some.inj hx).symm
  · intro y hy
    obtain ⟨w, hw, _⟩ := h' c y.1 y.2.1 y.2.2 hy
    refine ⟨(y.1, w, y.2.2), hw, ?_⟩
    rw [counterpart]
    dsimp only
    rw [hy]
  · intro x y hx hy hle
    unfold FaissConfig.closer at hle ⊢
    rw [← (hspec x hx).2.2, ← (hspec y hy).2.2]
    exact hle
  · rw [List.filterMap_map]
    apply List.filterMap_congr
    intro x hx
    obtain ⟨_, hpay, hdist⟩ := hspec x (hbest.mem x hx)
    simp only [Function.comp_apply, pointResult, counterpart_fst, hpay, hdist]

theorem Alike.follows (h : Alike cfg a b) (h' : Alike cfg b a) (hf : Follows cfg st a) : Follows cfg st b := by
  intro ops hops hfree c q limit t hl hq res
  rw [hf ops hops hfree c q limit t hl hq res]
  exact ⟨(h.run ops).answer (h'.run ops) hq, (h'.run ops).answer (h.run ops) hq⟩

/-- A torn upsert that only moves a point to an indistinguishable place. -/
theorem alike_moved {p : String} {v w : V} {payload : P} (hp : a c p = some (w, payload))
    (hdist : ∀ q, cfg.space.dim q = cfg.vectorDim →
      cfg.space.dist (cfg.prepare q) (cfg.prepare w) = cfg.space.dist (cfg.prepare q) (cfg.prepare v)) :
    Alike cfg (Function.update a c (Function.update (a c) p (some (v, payload)))) a ∧
      Alike cfg a (Function.update a c (Function.update (a c) p (some (v, payload)))) := by
  constructor
  · intro c' p' u pl hu
    by_cases hc : c' = c
    · subst c'
      rw [Function.update_self] at hu
      by_cases hpp : p' = p
      · subst p'
        rw [Function.update_self] at hu
        cases hu
        exact ⟨w, hp, fun q hq => (hdist q hq).symm⟩
      · rw [Function.update_of_ne hpp] at hu
        exact ⟨u, hu, fun _ _ => rfl⟩
    · rw [Function.update_of_ne hc] at hu
      exact ⟨u, hu, fun _ _ => rfl⟩
  · intro c' p' u pl hu
    by_cases hc : c' = c
    · subst c'
      rw [Function.update_self]
      by_cases hpp : p' = p
      · subst p'
        rw [Function.update_self]
        rw [hp] at hu
        cases hu
        exact ⟨v, rfl, hdist⟩
      · rw [Function.update_of_ne hpp]
        exact ⟨u, hu, fun _ _ => rfl⟩
    · rw [Function.update_of_ne hc]
      exact ⟨u, hu, fun _ _ => rfl⟩

/-- After a crash in any save of any history of which nothing is refused, the directory behaves as
before the operation or as after it, whatever follows and is not refused, unless the crash tears an
upsert that is not harmless. -/
theorem crash_recovers_iff (cfg : FaissConfig V P) (ops : List (VectorOp V P))
    (hops : ∀ op ∈ ops, op.Json cfg) (hfree : Unrefused cfg {} ops) (op : VectorOp V P) (hop : op.Json cfg)
    (stops : Option SaveStep × Option SaveStep) :
    let st := ops.foldl (FaissStore.step cfg) {}
    let a := ops.foldl (absStep cfg) fun _ _ => none
    (∃ a', (a' = a ∨ a' = absStep cfg a op) ∧ Follows cfg (st.crash cfg stops op) a') ↔
      (Torn cfg stops st op → Harmless cfg st op) := by
  intro st a
  have h : Refines cfg st a := run_refines (refines_empty cfg) hops hfree
  by_cases htorn : Torn cfg stops st op
  swap
  · refine ⟨fun _ ht => absurd ht htorn, fun _ => ?_⟩
    rcases crash_refines h hop htorn with hr | hr
    · exact ⟨a, Or.inl rfl, hr.follows⟩
    · exact ⟨_, Or.inr rfl, hr.follows⟩
  cases op with
  | upsert c p v payload =>
    obtain ⟨hv, hsup, _⟩ := id htorn
    obtain ⟨ix, m, hix, hm, hr, hc, hput⟩ := torn_upsert h hop htorn
    have habs : absStep cfg a (.upsert c p v payload) =
        Function.update a c (Function.update (a c) p (some (v, payload))) := if_pos ⟨hv, hsup⟩
    simp only [Harmless, hix, hm]
    cases hp : m.idMap.get? p with
    | none =>
      constructor
      · rintro ⟨a', _, hf⟩
        exact absurd hf (torn_new_reported_twice hc hr hp hv hop a')
      · intro hharmless
        obtain ⟨i, hi, _⟩ := hharmless htorn
        cases hi
    | some i =>
      have htr := represents_torn hr hp v
      have hself : ∀ y, Function.update (a c) p (some y) p = some y := fun y => Function.update_self _ _ _
      constructor
      · rintro ⟨a', ha', hf⟩ _
        refine ⟨i, rfl, ?_⟩
        obtain ⟨w, hw, _⟩ := follows_point hf hc htr (hself _) hv
        rcases ha' with rfl | rfl
        · right
          obtain ⟨j, hj, hmem, _⟩ := hr.stored hw
          rw [hp] at hj
          cases hj
          refine ⟨_, hmem, ?_⟩
          intro q hq
          obtain ⟨w', hw', hdist⟩ := follows_point hf hc htr (hself _) hq
          rw [hw] at hw'
          cases hw'
          exact hdist
        · left
          rw [habs, Function.update_self, Function.update_self] at hw
          cases hw
          rfl
      · intro hharmless
        obtain ⟨j, hj, hsafe⟩ := hharmless htorn
        cases hj
        have hf := (hput _ htr).follows
        rcases hsafe with hpay | ⟨u, hu, hdist⟩
        · rw [hpay, ← habs] at hf
          exact ⟨_, Or.inr rfl, hf⟩
        · obtain ⟨p', w, pl, hp', hpts, rfl⟩ := hr.live hu
          have hpp := hr.inj hp' hp
          subst hpp
          obtain ⟨j, hj, _, hpl⟩ := hr.stored hpts
          obtain ⟨h1, h2⟩ := alike_moved hpts hdist
          rw [hpl] at hf
          exact ⟨a, Or.inl rfl, h1.follows h2 hf⟩
  | _ => exact htorn.elim

/-- A new point whose upsert is cut before its files are replaced, over a released FAISS, and a
torn delete over one that takes the selector. -/
theorem crash_recovers_in_delete :
    let ops : List (VectorOp Int String) := [.upsert "c" "a" 0 "a", .upsert "c" "b" 4 "b"]
    let put : VectorOp Int String := .upsert "c" "d" 9 "d"
    let drop : VectorOp Int String := .delete "c" ["a"]
    (∃ a', (a' = ops.foldl (absStep lineConfig) (fun _ _ => none) ∨
        a' = absStep lineConfig (ops.foldl (absStep lineConfig) fun _ _ => none) put) ∧
      Follows lineConfig ((ops.foldl (FaissStore.step lineConfig) {}).crash lineConfig
        (none, some .replaceIndex) put) a') ∧
    ∃ a', (a' = ops.foldl (absStep takingConfig) (fun _ _ => none) ∨
        a' = absStep takingConfig (ops.foldl (absStep takingConfig) fun _ _ => none) drop) ∧
      Follows takingConfig ((ops.foldl (FaissStore.step takingConfig) {}).crash takingConfig
        (none, some .replaceMeta) drop) a' := by
  intro ops put drop
  have hfree : Unrefused lineConfig {} ops := ⟨fun h => h.2.2 rfl, fun h => h.2.2 rfl, trivial⟩
  have hfree' : Unrefused takingConfig {} ops := unrefused_of_takes rfl _ _
  constructor
  · refine (crash_recovers_iff lineConfig ops (fun op _ => line_json op) hfree put (line_json put)
      (none, some .replaceIndex)).mpr fun ht => ?_
    obtain ⟨_, _, hstop, _⟩ := ht
    cases hstop
  · exact (crash_recovers_iff takingConfig ops (fun op _ => taking_json op) hfree' drop (taking_json drop)
      (none, some .replaceMeta)).mpr fun ht => ht.elim

/-- The orphan of "b" takes the id of "c": a search for its vector reports "c". Nothing is refused. -/
theorem orphan_reported :
    let ops : List (VectorOp Int String) := [.upsert "c" "a" 0 "a"]
    let op : VectorOp Int String := .upsert "c" "b" 4 "b"
    let later : VectorOp Int String := .upsert "c" "c" 9 "c"
    let a := ops.foldl (absStep lineConfig) fun _ _ => none
    let crashed := (ops.foldl (FaissStore.step lineConfig) {}).crash lineConfig (none, some .replaceMeta) op
    Unrefused lineConfig {} (ops ++ [op]) ∧ Unrefused lineConfig crashed [later] ∧
      Answers lineConfig (crashed.step lineConfig later) "c" 4 1 none [⟨"c", 1, "c", [], "c"⟩] ∧
      ¬ ∃ a', (a' = a ∨ a' = absStep lineConfig a op) ∧ Follows lineConfig crashed a' := by
  intro ops op later a crashed
  have hfree : Unrefused lineConfig crashed [later] := ⟨fun h => h.2.2 rfl, trivial⟩
  have hans : Answers lineConfig (crashed.step lineConfig later) "c" 4 1 none
      [⟨"c", 1, "c", [], "c"⟩] := by
    refine ⟨[(2, 4)], ?_, by decide +kernel⟩
    intro ix hix
    have hload : (loadIndex lineConfig (crashed.step lineConfig later) "c").1 =
        .ok (some ⟨1, [(1, 0), (2, 4), (2, 9)]⟩) := by rfl
    rw [hload, Except.ok.injEq, Option.some.injEq] at hix
    subst hix
    exact line_hits (List.Perm.swap _ _ _)
  refine ⟨⟨fun h => h.2.2 rfl, fun h => h.2.2 rfl, trivial⟩, hfree, hans, ?_⟩
  rintro ⟨a', ha', hf⟩
  obtain ⟨picked, hbest, hres⟩ :=
    (hf [later] (fun op _ => line_json op) hfree "c" 4 1 none Nat.one_pos rfl _).mp hans
  have hin : (⟨"c", 1, "c", [], "c"⟩ : VectorSearchResult String) ∈ picked.filterMap (pointResult lineConfig 4 none) :=
    hres ▸ List.mem_singleton_self _
  obtain ⟨⟨p, v, payload⟩, hx, he⟩ := List.mem_filterMap.mp hin
  have hpts := hbest.mem _ hx
  obtain ⟨hp, _⟩ := pointResult_spec he
  dsimp only at hp hpts
  subst hp
  -- the map has "c" at 9
  have hnine : List.foldl (absStep lineConfig) a' [later] "c" "c" = some (9, "c") := by
    have hok : lineConfig.space.dim 9 = lineConfig.vectorDim ∧ lineConfig.supported = true := ⟨rfl, rfl⟩
    simp only [List.foldl_cons, List.foldl_nil, later, absStep, if_pos hok, Function.update_self]
  rw [hnine] at hpts
  cases hpts
  exact absurd he (by decide +kernel)

end CacheSeek.Proofs.FaissCrash
