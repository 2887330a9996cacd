import CacheSeek.Proofs.FaissCrash

namespace CacheSeek.Proofs.FaissFailedWrite
open CacheSeek.Lib CacheSeek.Backends CacheSeek.Proofs.FaissMap CacheSeek.Proofs.FaissRuns
open CacheSeek.Proofs.FaissCrash (Alike exists_hits shows_point point_shown not_refused_taken not_refused_absent)
open CacheSeek.Proofs.FaissStoreMap (lineConfig takingConfig line_json line_hits pointResult_spec)

variable {V P : Type} {cfg : FaissConfig V P} {st st' : FaissStore V P} {c : String} {ix : Index V}
  {m : Metadata P} {pts pts' : Points V P}

/-- The results or the error of a search, for some answer of the index. -/
def Outcome (cfg : FaissConfig V P) (st : FaissStore V P) (c : String) (q : V) (limit : Nat) (t : Option Rat)
    (r : Except VectorStoreError (List (VectorSearchResult P))) : Prop :=
  ∃ hits, (∀ ix, (loadIndex cfg st c).1 = .ok (some ix) → Hits cfg (cfg.prepare q) limit ix hits) ∧
    (search cfg st c q limit t hits).1 = r

def dimensionError (cfg : FaissConfig V P) (c : String) (q : V) : VectorStoreError :=
  .valueError ("FAISSVectorStore.search vector dimension mismatch collection=" ++ c ++ " got=" ++
    Nat.repr (cfg.space.dim q) ++ " expected=" ++ Nat.repr cfg.vectorDim)

/-- What it is to return: of a collection that is missing, nothing. -/
def Expected (cfg : FaissConfig V P) (c : String) (pts : Option (Points V P)) (q : V) (limit : Nat) (t : Option Rat)
    (r : Except VectorStoreError (List (VectorSearchResult P))) : Prop :=
  match pts with
  | none => r = .ok []
  | some pts =>
    if cfg.space.dim q ≠ cfg.vectorDim then r = .error (dimensionError cfg c q)
    else if limit = 0 then r = .error .assertionError
    else ∃ res, r = .ok res ∧ PointsAnswer cfg pts q limit t res

theorem loads_outcome (h : LoadsAs cfg st c ix m) (hr : Represents cfg ix m pts) (q : V) (limit : Nat)
    (t : Option Rat) (r : Except VectorStoreError (List (VectorSearchResult P))) :
    Outcome cfg st c q limit t r ↔ Expected cfg c (some pts) q limit t r := by
  obtain ⟨st1, hload, hl⟩ := h
  have hhits : ∀ hits, (∀ ix', (loadIndex cfg st c).1 = .ok (some ix') → Hits cfg (cfg.prepare q) limit ix' hits) ↔
      Hits cfg (cfg.prepare q) limit ix hits := by
    intro hits
    rw [hload]
    constructor
    · exact fun h => h ix rfl
    · intro h ix' hix
      cases hix
      exact h
  have hsearch : ∀ hits, (search cfg st c q limit t hits).1 =
      if cfg.space.dim q ≠ cfg.vectorDim then .error (dimensionError cfg c q)
      else if limit = 0 then .error .assertionError
      else .ok (hits.filterMap (toResult cfg m (cfg.prepare q) t)) := by
    intro hits
    simp only [search, hload, hl.loaded.metadata, Option.getD_some, hr.size, ne_eq, not_true_eq_false, false_or]
    split
    · rfl
    · split <;> rfl
  obtain ⟨hits, hok⟩ := exists_hits cfg q limit ix
  unfold Outcome Expected
  simp only [hhits, hsearch]
  split
  · constructor
    · rintro ⟨_, _, rfl⟩
      rfl
    · rintro rfl
      exact ⟨hits, hok, rfl⟩
  · split
    · constructor
      · rintro ⟨_, _, rfl⟩
        rfl
      · rintro rfl
        exact ⟨hits, hok, rfl⟩
    · constructor
      · rintro ⟨hits, hhits, rfl⟩
        exact ⟨_, rfl, (hr.answer q limit t _).mp ⟨hits, hhits, rfl⟩⟩
      · rintro ⟨res, rfl, hres⟩
        obtain ⟨hits, hhits, rfl⟩ := (hr.answer q limit t res).mpr hres
        exact ⟨hits, hhits, rfl⟩

theorem outcome_absent (h : Absent st c) (q : V) (limit : Nat) (t : Option Rat)
    (r : Except VectorStoreError (List (VectorSearchResult P))) :
    Outcome cfg st c q limit t r ↔ Expected cfg c none q limit t r := by
  have hload := loadIndex_absent cfg h
  simp only [Outcome, Expected, search, hload]
  constructor
  · rintro ⟨_, _, rfl⟩
    rfl
  · rintro rfl
    exact ⟨[], (fun ix hix => by cases hix), rfl⟩

/-- The same points, with vectors at the same distances. -/
def PointsAlike (cfg : FaissConfig V P) (pts pts' : Points V P) : Prop :=
  Alike cfg (fun _ => pts) (fun _ => pts') ∧ Alike cfg (fun _ => pts') (fun _ => pts)

theorem pointsAlike_refl (cfg : FaissConfig V P) (pts : Points V P) : PointsAlike cfg pts pts :=
  ⟨fun _ _ v _ hp => ⟨v, hp, fun _ _ => rfl⟩, fun _ _ v _ hp => ⟨v, hp, fun _ _ => rfl⟩⟩

theorem alike_put (h : Alike cfg (fun _ => pts) (fun _ => pts')) (p : String) (v : V) (payload : P) :
    Alike cfg (fun _ => Function.update pts p (some (v, payload)))
      (fun _ => Function.update pts' p (some (v, payload))) := by
  intro c' q w x hq
  dsimp only at hq ⊢
  by_cases hqp : q = p
  · subst q
    rw [Function.update_self] at hq ⊢
    cases hq
    exact ⟨v, rfl, fun _ _ => rfl⟩
  · rw [Function.update_of_ne hqp] at hq ⊢
    exact h c' q w x hq

theorem PointsAlike.put (h : PointsAlike cfg pts pts') (p : String) (v : V) (payload : P) :
    PointsAlike cfg (Function.update pts p (some (v, payload))) (Function.update pts' p (some (v, payload))) :=
  ⟨alike_put h.1 p v payload, alike_put h.2 p v payload⟩

def without (pts : Points V P) (ps : List String) : Points V P := fun p => if p ∈ ps then none else pts p

theorem alike_without (h : Alike cfg (fun _ => pts) (fun _ => pts')) (ps : List String) :
    Alike cfg (fun _ => without pts ps) (fun _ => without pts' ps) := by
  intro c' q w x hq
  simp only [without] at hq ⊢
  split at hq
  · cases hq
  · rename_i hps
    rw [if_neg hps]
    exact h c' q w x hq

theorem PointsAlike.without (h : PointsAlike cfg pts pts') (ps : List String) :
    PointsAlike cfg (without pts ps) (without pts' ps) :=
  ⟨alike_without h.1 ps, alike_without h.2 ps⟩

/-- No search tells points of the same distances apart. -/
theorem PointsAlike.expected (h : PointsAlike cfg pts pts') (c : String) (q : V) (limit : Nat) (t : Option Rat)
    (r : Except VectorStoreError (List (VectorSearchResult P))) :
    Expected cfg c (some pts) q limit t r ↔ Expected cfg c (some pts') q limit t r := by
  simp only [Expected]
  split
  · rfl
  · rename_i hq
    have hdim : cfg.space.dim q = cfg.vectorDim := not_not.mp hq
    split
    · rfl
    · constructor
      · rintro ⟨res, hr, hres⟩
        exact ⟨res, hr, h.1.answer (c := c) h.2 hdim hres⟩
      · rintro ⟨res, hr, hres⟩
        exact ⟨res, hr, h.2.answer (c := c) h.1 hdim hres⟩

/-- The index and the metadata hold the points, up to what searches tell apart, and the metadata
knows no other. -/
structure Copies (cfg : FaissConfig V P) (ix : Index V) (m : Metadata P) (pts : Points V P) : Prop where
  represents : ∃ pts', Represents cfg ix m pts' ∧ PointsAlike cfg pts' pts
  live : ∀ {p}, m.idMap.get? p ≠ none → pts p ≠ none

theorem copies_empty : Copies cfg ⟨cfg.vectorDim, []⟩ {} fun _ => none :=
  ⟨⟨_, represents_empty, pointsAlike_refl cfg _⟩, fun h => absurd rfl h⟩

theorem putMetadata_known (ix : Index V) {p q : String} {payload : P}
    (h : (putMetadata ix m p payload).idMap.get? q ≠ none) : q = p ∨ m.idMap.get? q ≠ none := by
  simp only [putMetadata, claimed] at h
  split at h
  · exact Or.inr h
  · by_cases hq : q = p
    · exact Or.inl hq
    · right
      rwa [Dict.get?_set_ne _ _ hq] at h

theorem Copies.put (h : Copies cfg ix m pts) (p : String) (v : V) {payload : P}
    (hpay : cfg.reader.dumps payload = true) :
    Copies cfg (putIndex cfg ix m p v) (putMetadata ix m p payload) (Function.update pts p (some (v, payload))) := by
  obtain ⟨⟨pts', hr, halike⟩, hlive⟩ := h
  refine ⟨⟨_, represents_put hr p v hpay, halike.put p v payload⟩, fun {q} hq => ?_⟩
  rcases putMetadata_known ix hq with rfl | hq
  · rw [Function.update_self]
    exact Option.some_ne_none _
  · by_cases hqp : q = p
    · subst q
      rw [Function.update_self]
      exact Option.some_ne_none _
    · rw [Function.update_of_ne hqp]
      exact hlive hq

theorem Copies.delete (h : Copies cfg ix m pts) (ps : List String) :
    Copies cfg (ix.removeIds (popPoints m ps).2) (popPoints m ps).1 (without pts ps) := by
  obtain ⟨⟨pts', hr, halike⟩, hlive⟩ := h
  refine ⟨⟨_, represents_delete hr ps, halike.without ps⟩, fun {q} hq => ?_⟩
  rw [(popPoints_spec m ps).2.1] at hq
  simp only [FaissFailedWrite.without]
  split
  · rename_i hps
    rw [if_pos hps] at hq
    exact absurd rfl hq
  · rename_i hps
    rw [if_neg hps] at hq
    exact hlive hq

theorem Copies.outcome (h : Copies cfg ix m pts) (hl : LoadsAs cfg st c ix m) (q : V) (limit : Nat) (t : Option Rat)
    (r : Except VectorStoreError (List (VectorSearchResult P))) :
    Outcome cfg st c q limit t r ↔ Expected cfg c (some pts) q limit t r := by
  obtain ⟨⟨pts', hr, halike⟩, -⟩ := h
  rw [loads_outcome hl hr, halike.expected]

/-- The point of the other collection. -/
theorem PointsAlike.get (h : PointsAlike cfg pts pts') {p : String} {v : V} {payload : P}
    (hp : pts p = some (v, payload)) :
    ∃ w, pts' p = some (w, payload) ∧ ∀ q, cfg.space.dim q = cfg.vectorDim →
      cfg.space.dist (cfg.prepare q) (cfg.prepare v) = cfg.space.dist (cfg.prepare q) (cfg.prepare w) :=
  h.1 "" p v payload hp

theorem pointsAlike_ne_none (h : PointsAlike cfg pts pts') {p : String} (hp : pts p ≠ none) : pts' p ≠ none := by
  obtain ⟨⟨v, payload⟩, hv⟩ := Option.ne_none_iff_exists'.mp hp
  obtain ⟨w, hw, _⟩ := h.get hv
  rw [hw]
  simp

/-- The metadata knows the points there are. -/
theorem Copies.known (h : Copies cfg ix m pts) (p : String) : m.idMap.get? p ≠ none ↔ pts p ≠ none := by
  refine ⟨h.live, fun hp => ?_⟩
  obtain ⟨⟨pts', hr, halike⟩, -⟩ := h
  obtain ⟨⟨v, payload⟩, hv⟩ := Option.ne_none_iff_exists'.mp hp
  obtain ⟨w, hw, _⟩ := PointsAlike.get ⟨halike.2, halike.1⟩ hv
  obtain ⟨i, hi, _⟩ := hr.stored hw
  rw [hi]
  exact Option.some_ne_none i

/-- An index with the metadata of another copy serves, if the ids are the same. -/
theorem Copies.cross {ixD : Index V} {mD : Metadata P} (h : Copies cfg ix m pts) (hD : Copies cfg ixD mD pts)
    (hids : ∀ p, pts p ≠ none → mD.idMap.get? p = m.idMap.get? p) : Copies cfg ix mD pts := by
  obtain ⟨⟨pts', hr, halike⟩, -⟩ := h
  obtain ⟨⟨ptsD, hrD, halikeD⟩, hliveD⟩ := hD
  have hsame : ∀ {p v payload}, pts' p = some (v, payload) → mD.idMap.get? p = m.idMap.get? p := fun hp =>
    hids _ (pointsAlike_ne_none halike (by rw [hp]; simp))
  refine ⟨⟨pts', ⟨hr.size, hr.ids, hrD.inj, hrD.fresh, hrD.next, ?_, ?_, hrD.dumps⟩, halike⟩, hliveD⟩
  · intro p v payload hp
    obtain ⟨i, hi, hmem, _⟩ := hr.stored hp
    obtain ⟨w, hw, _⟩ := halike.get hp
    obtain ⟨u, hu, _⟩ := halikeD.2 "" p w payload hw
    obtain ⟨j, _, _, hpay⟩ := hrD.stored hu
    exact ⟨i, by rw [hsame hp, hi], hmem, hpay⟩
  · intro i u hi
    obtain ⟨p, v, payload, hp, hpts, hu⟩ := hr.live hi
    exact ⟨p, v, payload, by rw [hsame hpts, hp], hpts, hu⟩

structure OnDisk (st : FaissStore V P) (c : String) (ix : Index V) (m : Metadata P) : Prop where
  indexFile : st.disk.indexFiles.get? c = some (.index ix)
  metaFile : st.disk.metaFiles.get? c = some (.metadata m) ∨ st.disk.metaFiles.get? c = none ∧ m = {}

/-- Both the files and, where the collection is loaded, the memory are copies of the points.
One may be ahead of the other, with the same ids. -/
def Keeps (cfg : FaissConfig V P) (st : FaissStore V P) (c : String) (pts : Points V P) : Prop :=
  ∃ ixD mD, OnDisk st c ixD mD ∧ Copies cfg ixD mD pts ∧ (st.memory.indices.get? c = none ∨
    ∃ ix m, Loaded st c ix m ∧ Copies cfg ix m pts ∧ ∀ p, pts p ≠ none → mD.idMap.get? p = m.idMap.get? p)

theorem Keeps.sameAt (h : Keeps cfg st c pts) (hs : SameAt st st' c) : Keeps cfg st' c pts := by
  obtain ⟨ixD, mD, hdisk, hD, hmem⟩ := h
  refine ⟨ixD, mD, ⟨hs.indexFile.trans hdisk.indexFile, ?_⟩, hD, ?_⟩
  · rw [hs.metaFile]
    exact hdisk.metaFile
  · rcases hmem with hnone | ⟨ix, m, hl, hcopy, hids⟩
    · exact Or.inl (hs.index.trans hnone)
    · exact Or.inr ⟨ix, m, ⟨hs.index.trans hl.index, hs.metadata.trans hl.metadata⟩, hcopy, hids⟩

theorem Keeps.forget (h : Keeps cfg st c pts) : Keeps cfg { st with memory := {} } c pts := by
  obtain ⟨ixD, mD, hdisk, hD, -⟩ := h
  exact ⟨ixD, mD, ⟨hdisk.indexFile, hdisk.metaFile⟩, hD, Or.inl rfl⟩

theorem Present.keeps (h : Present st c ix m) (hcopy : Copies cfg ix m pts) : Keeps cfg st c pts := by
  refine ⟨ix, m, ⟨h.indexFile, h.metaFile⟩, hcopy, h.memory.imp id fun ⟨hindex, hmeta⟩ => ?_⟩
  exact ⟨ix, m, ⟨hindex, hmeta⟩, hcopy, fun _ _ => rfl⟩

/-- What the instance works with once the collection is loaded, and the files then. -/
theorem Keeps.loads (h : Keeps cfg st c pts) : ∃ ix m ixD mD, LoadsAs cfg st c ix m ∧ Copies cfg ix m pts ∧
    OnDisk st c ixD mD ∧ Copies cfg ixD mD pts ∧ ∀ p, pts p ≠ none → mD.idMap.get? p = m.idMap.get? p := by
  obtain ⟨ixD, mD, hdisk, hD, hnone | ⟨ix, m, hl, hcopy, hids⟩⟩ := h
  · exact ⟨ixD, mD, ixD, mD, loadIndex_present cfg ⟨hdisk.indexFile, hdisk.metaFile, Or.inl hnone⟩, hD, hdisk, hD,
      fun _ _ => rfl⟩
  · exact ⟨ix, m, ixD, mD, hl.loads cfg, hcopy, hdisk, hD, hids⟩

theorem alike_trans {pts'' : Points V P} (h : Alike cfg (fun _ => pts) (fun _ => pts'))
    (h' : Alike cfg (fun _ => pts') (fun _ => pts'')) : Alike cfg (fun _ => pts) (fun _ => pts'') := by
  intro c' p v payload hp
  obtain ⟨w, hw, hdist⟩ := h c' p v payload hp
  obtain ⟨u, hu, hdist'⟩ := h' c' p w payload hw
  exact ⟨u, hu, fun q hq => (hdist q hq).trans (hdist' q hq)⟩

theorem Copies.congr (h : Copies cfg ix m pts) (halike : PointsAlike cfg pts pts') : Copies cfg ix m pts' := by
  obtain ⟨⟨pts'', hr, halike'⟩, hlive⟩ := h
  exact ⟨⟨pts'', hr, alike_trans halike'.1 halike.1, alike_trans halike.2 halike'.2⟩,
    fun hp => pointsAlike_ne_none halike (hlive hp)⟩

/-- A save that stops anywhere leaves copies of the points if the new ones are copies too. -/
theorem Done.keeps {stop : Option SaveStep} {ixD : Index V} {mD : Metadata P} (hd : Done cfg st st' c ix m stop)
    (hdisk : OnDisk st c ixD mD) (hD : Copies cfg ixD mD pts) (hcopy : Copies cfg ix m pts)
    (hids : ∀ p, pts p ≠ none → mD.idMap.get? p = m.idMap.get? p) : Keeps cfg st' c pts := by
  cases hd.saved with
  | none stop hne h1 h2 =>
    refine ⟨ixD, mD, ⟨h1.trans hdisk.indexFile, ?_⟩, hD, Or.inr ⟨ix, m, hd.loaded, hcopy, hids⟩⟩
    rw [h2]
    exact hdisk.metaFile
  | index h1 h2 =>
    refine ⟨ix, mD, ⟨h1, ?_⟩, hcopy.cross hD hids, Or.inr ⟨ix, m, hd.loaded, hcopy, hids⟩⟩
    rw [h2]
    exact hdisk.metaFile
  | both h1 h2 => exact ⟨ix, m, ⟨h1, Or.inl h2⟩, hcopy, Or.inr ⟨ix, m, hd.loaded, hcopy, fun _ _ => rfl⟩⟩

theorem LoadedFrom.keeps {ixD : Index V} {mD : Metadata P} (hl : LoadedFrom st st' c ix m) (hdisk : OnDisk st c ixD mD)
    (hD : Copies cfg ixD mD pts) (hcopy : Copies cfg ix m pts)
    (hids : ∀ p, pts p ≠ none → mD.idMap.get? p = m.idMap.get? p) : Keeps cfg st' c pts := by
  refine ⟨ixD, mD, ⟨?_, ?_⟩, hD, Or.inr ⟨ix, m, hl.loaded, hcopy, hids⟩⟩
  · rw [hl.disk]
    exact hdisk.indexFile
  · rw [hl.disk]
    exact hdisk.metaFile

abbrev Collections (V P : Type) := String → Option (Points V P)

/-- What a completed call is to the collections. An upsert makes its collection before it
looks at the vector. -/
def colStep (cfg : FaissConfig V P) (a : Collections V P) : VectorOp V P → Collections V P
  | .ensure c => if cfg.supported then Function.update a c (some ((a c).getD fun _ => none)) else a
  | .upsert c p v payload =>
    let pts := (a c).getD fun _ => none
    if cfg.supported then
      Function.update a c
        (some (if cfg.space.dim v = cfg.vectorDim then Function.update pts p (some (v, payload)) else pts))
    else a
  | .delete c ps => Function.update a c ((a c).map fun pts => without pts ps)
  | _ => a

def Sound (cfg : FaissConfig V P) (pts : Points V P) : Prop :=
  ∀ p v payload, pts p = some (v, payload) → cfg.reader.dumps payload = true ∧ cfg.space.dim v = cfg.vectorDim

def Holding (cfg : FaissConfig V P) (st : FaissStore V P) (c : String) : Option (Points V P) → Prop
  | none => Absent st c
  | some pts => cfg.supported = true ∧ Sound cfg pts ∧ Keeps cfg st c pts

variable {a : Collections V P}

theorem Holding.sameAt {x : Option (Points V P)} (h : Holding cfg st c x) (hs : SameAt st st' c) :
    Holding cfg st' c x := by
  cases x with
  | none => exact Absent.sameAt h hs
  | some pts => exact ⟨h.1, h.2.1, h.2.2.sameAt hs⟩

theorem holding_update (h : ∀ c, Holding cfg st c (a c)) (hother : ∀ c', c' ≠ c → SameAt st st' c')
    {x : Option (Points V P)} (hc : Holding cfg st' c x) : ∀ c', Holding cfg st' c' (Function.update a c x c') := by
  intro c'
  by_cases he : c' = c
  · subst c'
    rw [Function.update_self]
    exact hc
  · rw [Function.update_of_ne he]
    exact (h c').sameAt (hother c' he)

theorem holding_same (h : ∀ c, Holding cfg st c (a c)) (hother : ∀ c', c' ≠ c → SameAt st st' c')
    (hc : Holding cfg st' c (a c)) : ∀ c', Holding cfg st' c' (a c') := by
  have := holding_update h hother hc
  rwa [Function.update_eq_self] at this

/-- What a search returns is fixed by the collections. -/
theorem Holding.outcome {x : Option (Points V P)} (h : Holding cfg st c x) (q : V) (limit : Nat) (t : Option Rat)
    (r : Except VectorStoreError (List (VectorSearchResult P))) :
    Outcome cfg st c q limit t r ↔ Expected cfg c x q limit t r := by
  cases x with
  | none => exact outcome_absent h q limit t r
  | some pts =>
    obtain ⟨ix, m, _, _, hl, hcopy, _⟩ := h.2.2.loads
    exact hcopy.outcome hl q limit t r

theorem sound_empty : Sound cfg fun _ => none := fun _ _ _ hp => by cases hp

theorem Sound.put (h : Sound cfg pts) (p : String) {v : V} {payload : P} (hpay : cfg.reader.dumps payload = true)
    (hv : cfg.space.dim v = cfg.vectorDim) : Sound cfg (Function.update pts p (some (v, payload))) := by
  intro q w x hq
  by_cases hqp : q = p
  · subst q
    rw [Function.update_self] at hq
    cases hq
    exact ⟨hpay, hv⟩
  · rw [Function.update_of_ne hqp] at hq
    exact h q w x hq

theorem Sound.without (h : Sound cfg pts) (ps : List String) : Sound cfg (without pts ps) := by
  intro p v payload hp
  simp only [FaissFailedWrite.without] at hp
  split at hp
  · cases hp
  · exact h p v payload hp

/-- A completed upsert of a collection that is there. -/
theorem upsert_holding (hsup : cfg.supported = true) (hsound : Sound cfg pts) (h : Keeps cfg st c pts)
    {p : String} {v : V} {payload : P} (hpay : cfg.reader.dumps payload = true)
    (hfree : ¬ st.Refused cfg (.upsert c p v payload)) :
    (∀ c', c' ≠ c → SameAt st (Backends.upsert cfg (none, none) st c p v payload).2 c') ∧
    Holding cfg (Backends.upsert cfg (none, none) st c p v payload).2 c
      (some (if cfg.space.dim v = cfg.vectorDim then Function.update pts p (some (v, payload)) else pts)) := by
  obtain ⟨ix, m, ixD, mD, hl, hcopy, hdisk, hD, hids⟩ := h.loads
  obtain ⟨pts', hr, halike⟩ := hcopy.represents
  rcases upsert_loads (none, none) hl hr (taken_upsert hl hfree) hpay with
    ⟨hv, e, st', he, hl'⟩ | ⟨hv, res, st', he, hd⟩
  · rw [he, if_neg hv]
    exact ⟨hl'.other, hsup, hsound, LoadedFrom.keeps hl' hdisk hD hcopy hids⟩
  · rw [he, if_pos hv]
    exact ⟨hd.other, hsup, hsound.put p hpay hv, Present.keeps hd.present (hcopy.put p v hpay)⟩

/-- Loading a collection changes none of them. -/
theorem load_holding (h : ∀ c, Holding cfg st c (a c)) (c : String) :
    ∀ c', Holding cfg (loadIndex cfg st c).2 c' (a c') := by
  have hc := h c
  cases hx : a c with
  | none =>
    rw [hx] at hc
    rw [loadIndex_absent cfg hc]
    exact h
  | some pts =>
    rw [hx] at hc
    obtain ⟨hsup, hsound, hkeeps⟩ := hc
    obtain ⟨ix, m, ixD, mD, ⟨st1, hload, hl⟩, hcopy, hdisk, hD, hids⟩ := hkeeps.loads
    rw [hload]
    refine holding_same h hl.other ?_
    rw [hx]
    exact ⟨hsup, hsound, LoadedFrom.keeps hl hdisk hD hcopy hids⟩

/-- The ids a loaded collection knows are those of its points. -/
theorem loadedIds_holding {x : Option (Points V P)} (h : Holding cfg st c x) (p : String) :
    (loadedIds cfg st c).get? p ≠ none ↔ ∃ pts, x = some pts ∧ pts p ≠ none := by
  cases x with
  | none =>
    simp only [loadedIds, loadIndex_absent cfg h]
    refine iff_of_false (fun hne => hne rfl) ?_
    rintro ⟨_, he, _⟩
    cases he
  | some pts =>
    obtain ⟨ix, m, _, _, hl, hcopy, _⟩ := h.2.2.loads
    rw [loadedIds_loads hl, hcopy.known]
    simp

/-- What is refused is fixed by the collections. -/
theorem refused_holding (h : ∀ c, Holding cfg st c (a c)) (h' : ∀ c, Holding cfg st' c (a c)) (op : VectorOp V P) :
    st.Refused cfg op ↔ st'.Refused cfg op := by
  have hids : ∀ c p, (loadedIds cfg st c).get? p ≠ none ↔ (loadedIds cfg st' c).get? p ≠ none := fun c p =>
    (loadedIds_holding (h c) p).trans (loadedIds_holding (h' c) p).symm
  unfold FaissStore.Refused
  cases op with
  | upsert c p v payload => simp only [FaissStore.Removes, hids]
  | delete c ps => simp only [FaissStore.Removes, hids]
  | _ => rfl

theorem holding_step (h : ∀ c, Holding cfg st c (a c)) {op : VectorOp V P} (hop : op.Json cfg)
    (hfree : ¬ st.Refused cfg op) : ∀ c, Holding cfg (st.step cfg op) c (colStep cfg a op c) := by
  cases op with
  | ensure c =>
    have hc := h c
    simp only [FaissStore.step, FaissStore.apply, colStep]
    cases hx : a c with
    | none =>
      rw [hx] at hc
      rcases ensure_absent cfg none hc with ⟨hno, e, he⟩ | ⟨hsup, res, st1, he, hd, _⟩
      · rw [he, if_neg (by simp [hno])]
        exact h
      · rw [he, if_pos hsup]
        exact holding_update h hd.other ⟨hsup, sound_empty, Present.keeps hd.present copies_empty⟩
    | some pts =>
      rw [hx] at hc
      obtain ⟨hsup, hsound, hkeeps⟩ := hc
      obtain ⟨ix, m, ixD, mD, ⟨st1, hload, -⟩, -⟩ := hkeeps.loads
      have hloaded := load_holding h c
      rw [hload] at hloaded
      simp only [ensureCollection, hload, if_pos hsup, Option.getD_some]
      rw [← hx, Function.update_eq_self]
      exact hloaded
  | upsert c p v payload =>
    have hc := h c
    simp only [FaissStore.step, FaissStore.apply, colStep]
    cases hx : a c with
    | none =>
      rw [hx] at hc
      rcases ensure_absent cfg none hc with ⟨hno, e, he⟩ | ⟨hsup, _⟩
      · rw [if_neg (by simp [hno])]
        simp only [Backends.upsert, loadIndex_absent cfg hc, he]
        exact h
      · obtain ⟨st1, hd, heq⟩ := upsert_absent none hc hsup p v payload
        obtain ⟨hother, hholding⟩ := upsert_holding hsup sound_empty (Present.keeps hd.present copies_empty)
          hop (not_refused_taken (hd.loaded.loads cfg) (taken_empty cfg p) v payload)
        rw [heq, if_pos hsup]
        exact holding_update h (fun c' hc' => (hd.other c' hc').trans (hother c' hc')) hholding
    | some pts =>
      rw [hx] at hc
      obtain ⟨hsup, hsound, hkeeps⟩ := hc
      obtain ⟨hother, hholding⟩ := upsert_holding hsup hsound hkeeps hop hfree
      rw [if_pos hsup]
      exact holding_update h hother hholding
  | delete c ps =>
    have hc := h c
    simp only [FaissStore.step, FaissStore.apply, colStep]
    cases hx : a c with
    | none =>
      rw [hx] at hc
      simp only [Backends.delete, loadIndex_absent cfg hc]
      exact holding_update h (fun c' _ => SameAt.refl st c') hc
    | some pts =>
      rw [hx] at hc
      obtain ⟨hsup, hsound, hkeeps⟩ := hc
      obtain ⟨ix, m, ixD, mD, hl, hcopy, -, -, -⟩ := hkeeps.loads
      obtain ⟨pts', hr, -⟩ := hcopy.represents
      obtain ⟨res, st', he, hd, -⟩ := delete_loads none hl hr.dumps (taken_delete hl hfree)
      rw [he]
      exact holding_update h hd.other ⟨hsup, hsound.without ps, Present.keeps hd.present (hcopy.delete ps)⟩
  | search c v limit t =>
    have hload := load_holding h c
    simp only [FaissStore.step, FaissStore.apply, colStep, Backends.search]
    generalize loadIndex cfg st c = x at hload
    obtain ⟨e | _ | ix, st'⟩ := x
    · exact hload
    · exact hload
    · dsimp only
      split
      · exact hload
      · split
        · exact hload
        · exact hload
  | reopen =>
    intro c
    have hc := h c
    simp only [colStep]
    cases hx : a c with
    | none =>
      rw [hx] at hc
      exact Absent.forget hc
    | some pts =>
      rw [hx] at hc
      exact ⟨hc.1, hc.2.1, hc.2.2.forget⟩

def FaissStore.error (cfg : FaissConfig V P) (stops : Option SaveStep × Option SaveStep) (st : FaissStore V P) :
    VectorOp V P → Option VectorStoreError
  | .ensure c => errorOf (ensureCollection cfg stops.1 st c cfg.vectorDim).1
  | .upsert c p v payload => errorOf (Backends.upsert cfg stops st c p v payload).1
  | .delete c ps => errorOf (Backends.delete cfg stops.2 st c ps).1
  | _ => none
where
  errorOf : Except VectorStoreError Unit → Option VectorStoreError
    | .error e => some e
    | .ok _ => none

def Missing (cfg : FaissConfig V P) (st : FaissStore V P) (c : String) : Prop := (loadIndex cfg st c).1 = .ok none

def HasPoint (cfg : FaissConfig V P) (st : FaissStore V P) (c p : String) (u : V) (payload : P) : Prop :=
  ∃ ix m i, LoadsAs cfg st c ix m ∧ m.idMap.get? p = some i ∧ (i, u) ∈ ix.entries ∧
    (m.payload.get? p).getD cfg.reader.empty = payload

/-- Where a call that raises does no harm: it has nothing to make or raises before it touches the
index (as an upsert does that is refused), or what it writes is there already, or what it removes
is not. -/
def Unfelt (cfg : FaissConfig V P) (st : FaissStore V P) : VectorOp V P → Prop
  | .ensure _ => cfg.supported = false
  | .upsert c p v payload =>
    (Missing cfg st c → cfg.supported = false) ∧
    (¬ Missing cfg st c → cfg.space.dim v ≠ cfg.vectorDim ∨ st.Refused cfg (.upsert c p v payload) ∨
      ∃ u, HasPoint cfg st c p u payload ∧ ∀ q, cfg.space.dim q = cfg.vectorDim →
        cfg.space.dist (cfg.prepare q) u = cfg.space.dist (cfg.prepare q) (cfg.prepare v))
  | .delete c ps => ∀ p ∈ ps, ∀ u payload, ¬ HasPoint cfg st c p u payload
  | _ => True

theorem loadsAs_unique {ix' : Index V} {m' : Metadata P} (h : LoadsAs cfg st c ix m) (h' : LoadsAs cfg st c ix' m') :
    ix = ix' ∧ m = m' := by
  obtain ⟨st1, hload, hl⟩ := h
  obtain ⟨st1', hload', hl'⟩ := h'
  rw [hload] at hload'
  cases hload'
  exact ⟨rfl, Option.some.inj (hl.loaded.metadata.symm.trans hl'.loaded.metadata)⟩

theorem not_missing (h : LoadsAs cfg st c ix m) : ¬ Missing cfg st c := by
  obtain ⟨st1, hload, _⟩ := h
  unfold Missing
  rw [hload]
  intro he
  cases he

/-- The index keeps the prepared vector, the metadata the payload. -/
theorem hasPoint_iff (hl : LoadsAs cfg st c ix m) (hr : Represents cfg ix m pts) (p : String) (u : V) (payload : P) :
    HasPoint cfg st c p u payload ↔ ∃ v, pts p = some (v, payload) ∧ u = cfg.prepare v := by
  constructor
  · rintro ⟨ix', m', i, hl', hp, hmem, hpay⟩
    obtain ⟨rfl, rfl⟩ := loadsAs_unique hl hl'
    obtain ⟨q, v, x, hq, hpts, hu⟩ := hr.live hmem
    have hqp := hr.inj hq hp
    subst hqp
    obtain ⟨j, _, _, hx⟩ := hr.stored hpts
    rw [hpay] at hx
    subst hx
    exact ⟨v, hpts, hu⟩
  · rintro ⟨v, hpts, rfl⟩
    obtain ⟨i, hi, hmem, hpay⟩ := hr.stored hpts
    exact ⟨ix, m, i, hl, hi, hmem, hpay⟩

/-- A point put where an indistinguishable one is. -/
theorem pointsAlike_put_same {p : String} {v w : V} {payload : P} (hp : pts p = some (w, payload))
    (hdist : ∀ q, cfg.space.dim q = cfg.vectorDim →
      cfg.space.dist (cfg.prepare q) (cfg.prepare w) = cfg.space.dist (cfg.prepare q) (cfg.prepare v)) :
    PointsAlike cfg (Function.update pts p (some (v, payload))) pts := by
  have halike := @FaissCrash.alike_moved _ _ cfg "" (fun _ => pts) p v w payload hp hdist
  constructor
  · intro c' q u x hq
    exact halike.1 "" q u x (by rw [Function.update_self]; exact hq)
  · intro c' q u x hq
    have := halike.2 "" q u x hq
    rwa [Function.update_self] at this

theorem putMetadata_idMap {p : String} {i : Int} (hp : m.idMap.get? p = some i) (ix : Index V) (payload : P) :
    (putMetadata ix m p payload).idMap = m.idMap := by
  simp only [putMetadata, claimed, hp]

/-- An upsert that changes nothing the reader can see, stopped anywhere. -/
theorem upsert_unchanged (hsup : cfg.supported = true) (hsound : Sound cfg pts) (h : Keeps cfg st c pts)
    (stops : Option SaveStep × Option SaveStep) (p : String) (v : V) {payload : P}
    (hunfelt : cfg.space.dim v ≠ cfg.vectorDim ∨ st.Refused cfg (.upsert c p v payload) ∨
      ∃ u, HasPoint cfg st c p u payload ∧ ∀ q, cfg.space.dim q = cfg.vectorDim →
        cfg.space.dist (cfg.prepare q) u = cfg.space.dist (cfg.prepare q) (cfg.prepare v)) :
    (∀ c', c' ≠ c → SameAt st (Backends.upsert cfg stops st c p v payload).2 c') ∧
    Holding cfg (Backends.upsert cfg stops st c p v payload).2 c (some pts) := by
  obtain ⟨ix, m, ixD, mD, hl, hcopy, hdisk, hD, hids⟩ := h.loads
  obtain ⟨pts', hr, halike⟩ := hcopy.represents
  by_cases hearly : cfg.space.dim v ≠ cfg.vectorDim ∨ ¬ Taken cfg m p
  · obtain ⟨e, st', he, hl'⟩ := upsert_refused stops hl hearly payload
    rw [he]
    exact ⟨hl'.other, hsup, hsound, LoadedFrom.keeps hl' hdisk hD hcopy hids⟩
  · rw [not_or, not_not, not_not] at hearly
    obtain ⟨hv, htaken⟩ := hearly
    obtain ⟨u, hhas, hdist⟩ := (hunfelt.resolve_left (not_not.mpr hv)).resolve_left
      (not_refused_taken hl htaken v payload)
    obtain ⟨w, hw, rfl⟩ := (hasPoint_iff hl hr p u payload).mp hhas
    obtain ⟨i, hi, _⟩ := hr.stored hw
    obtain ⟨w', hw', hww'⟩ := halike.get hw
    have hpay := (hsound p w' payload hw').1
    have hsame : PointsAlike cfg (Function.update pts p (some (v, payload))) pts :=
      pointsAlike_put_same hw' fun q hq => (hww' q hq).symm.trans (hdist q hq)
    have hnew := (hcopy.put p v hpay).congr hsame
    have hids' : ∀ q, pts q ≠ none → mD.idMap.get? q = (putMetadata ix m p payload).idMap.get? q := by
      intro q hq
      rw [putMetadata_idMap hi]
      exact hids q hq
    rcases upsert_loads stops hl hr (fun _ => htaken) hpay with ⟨hno, _⟩ | ⟨_, res, st', he, hd⟩
    · exact absurd hv hno
    · rw [he]
      exact ⟨hd.other, hsup, hsound, Done.keeps hd hdisk hD hnew hids'⟩

/-- A delete of points that are not there, stopped anywhere. -/
theorem delete_unchanged (hsup : cfg.supported = true) (hsound : Sound cfg pts) (h : Keeps cfg st c pts)
    (stop : Option SaveStep) {ps : List String} (hunfelt : ∀ p ∈ ps, ∀ u payload, ¬ HasPoint cfg st c p u payload) :
    (∀ c', c' ≠ c → SameAt st (Backends.delete cfg stop st c ps).2 c') ∧
    Holding cfg (Backends.delete cfg stop st c ps).2 c (some pts) := by
  obtain ⟨ix, m, ixD, mD, hl, hcopy, hdisk, hD, hids⟩ := h.loads
  obtain ⟨pts', hr, halike⟩ := hcopy.represents
  have hgone : ∀ p ∈ ps, pts p = none := by
    intro p hp
    cases hpts : pts p with
    | none => rfl
    | some x =>
      obtain ⟨v, payload⟩ := x
      obtain ⟨w, hw, _⟩ := PointsAlike.get ⟨halike.2, halike.1⟩ hpts
      exact absurd ((hasPoint_iff hl hr p _ _).mpr ⟨w, hw, rfl⟩) (hunfelt p hp _ _)
  have hwithout : without pts ps = pts := by
    funext p
    unfold without
    split
    · rename_i hp
      exact (hgone p hp).symm
    · rfl
  have htaken : ∀ p ∈ ps, Taken cfg m p := by
    intro p hp
    by_contra hno
    rw [Taken, not_or] at hno
    exact hcopy.live hno.2 (hgone p hp)
  have hnew := hcopy.delete ps
  rw [hwithout] at hnew
  have hids' : ∀ q, pts q ≠ none → mD.idMap.get? q = (popPoints m ps).1.idMap.get? q := by
    intro q hq
    rw [(popPoints_spec m ps).2.1, if_neg fun hp => hq (hgone q hp)]
    exact hids q hq
  obtain ⟨res, st', he, hd, -⟩ := delete_loads stop hl hr.dumps htaken
  rw [he]
  exact ⟨hd.other, hsup, hsound, Done.keeps hd hdisk hD hnew hids'⟩

/-- A call that raises and is not felt leaves the collections as they were. -/
theorem holding_unfelt (h : ∀ c, Holding cfg st c (a c)) {op : VectorOp V P} {stops : Option SaveStep × Option SaveStep}
    (hunfelt : Unfelt cfg st op) (hraises : FaissStore.error cfg stops st op ≠ none) :
    ∀ c, Holding cfg (st.apply cfg stops op) c (a c) := by
  cases op with
  | ensure c =>
    have hc := h c
    simp only [Unfelt] at hunfelt
    simp only [FaissStore.apply]
    cases hx : a c with
    | none =>
      rw [hx] at hc
      rcases ensure_absent cfg stops.1 hc with ⟨_, e, he⟩ | ⟨hsup, _⟩
      · rw [he]
        exact h
      · rw [hsup] at hunfelt
        cases hunfelt
    | some pts =>
      rw [hx] at hc
      rw [hc.1] at hunfelt
      cases hunfelt
  | upsert c p v payload =>
    have hc := h c
    simp only [FaissStore.apply]
    cases hx : a c with
    | none =>
      rw [hx] at hc
      have hno := hunfelt.1 (by rw [Missing, loadIndex_absent cfg hc])
      rcases ensure_absent cfg stops.1 hc with ⟨_, e, he⟩ | ⟨hsup, _⟩
      · simp only [Backends.upsert, loadIndex_absent cfg hc, he]
        exact h
      · rw [hno] at hsup
        cases hsup
    | some pts =>
      rw [hx] at hc
      obtain ⟨hsup, hsound, hkeeps⟩ := hc
      obtain ⟨ix, m, ixD, mD, hl, -⟩ := hkeeps.loads
      obtain ⟨hother, hholding⟩ := upsert_unchanged hsup hsound hkeeps stops p v (hunfelt.2 (not_missing hl))
      rw [← hx] at hholding
      exact holding_same h hother hholding
  | delete c ps =>
    have hc := h c
    simp only [FaissStore.apply]
    cases hx : a c with
    | none =>
      rw [hx] at hc
      simp only [Backends.delete, loadIndex_absent cfg hc]
      exact h
    | some pts =>
      rw [hx] at hc
      obtain ⟨hother, hholding⟩ := delete_unchanged hc.1 hc.2.1 hc.2.2 stops.2 hunfelt
      rw [← hx] at hholding
      exact holding_same h hother hholding
  | search c v limit t => exact absurd rfl hraises
  | reopen => exact absurd rfl hraises

/-- A save returns only if nothing stops it and every payload is JSON. -/
theorem saveIndex_ok {stop : Option SaveStep} (h : (saveIndex cfg stop st c ix).1 = .ok ()) :
    stop = none ∧ ∀ x ∈ ((st.memory.metadata.get? c).getD {}).payload.values, cfg.reader.dumps x = true := by
  unfold saveIndex at h
  dsimp only at h
  split at h
  · cases h
  · split at h
    · cases h
    · rename_i hdumps
      rw [not_or, Bool.not_eq_true, List.any_eq_false] at hdumps
      split at h
      · cases h
      · split at h
        · cases h
        · refine ⟨?_, fun x hx => by simpa using hdumps.2 x hx⟩
          cases stop with
          | none => rfl
          | some step => cases step <;> simp_all

theorem upsertLoaded_ok {stop : Option SaveStep} {p : String} {v : V} {payload : P}
    (h : (upsertLoaded cfg stop st c p v payload ix).1 = .ok ()) : stop = none ∧ cfg.reader.dumps payload = true := by
  unfold upsertLoaded at h
  dsimp only at h
  split at h
  · cases h
  · split at h
    · cases h
    · split at h
      · cases h
      · obtain ⟨hstop, hdumps⟩ := saveIndex_ok h
        refine ⟨hstop, hdumps payload (Dict.mem_values.mpr ⟨p, ?_⟩)⟩
        simp only [FaissStore.setMetadata, Dict.get?_set_self, Option.getD_some]

theorem ensureCollection_ok {stop : Option SaveStep} {dim : Nat} (h : (ensureCollection cfg stop st c dim).1 = .ok ()) :
    ensureCollection cfg stop st c dim = ensureCollection cfg none st c dim := by
  unfold ensureCollection at h ⊢
  split at h
  · cases h
  · rfl
  · dsimp only at h ⊢
    split at h
    · cases h
    · rw [(saveIndex_ok h).1]

theorem upsert_ok {stops : Option SaveStep × Option SaveStep} {p : String} {v : V} {payload : P}
    (h : (Backends.upsert cfg stops st c p v payload).1 = .ok ()) :
    Backends.upsert cfg stops st c p v payload = Backends.upsert cfg (none, none) st c p v payload ∧
      cfg.reader.dumps payload = true := by
  obtain ⟨stop1, stop2⟩ := stops
  unfold Backends.upsert at h ⊢
  split at h
  · cases h
  · dsimp only at h ⊢
    obtain ⟨rfl, hpay⟩ := upsertLoaded_ok h
    exact ⟨rfl, hpay⟩
  · rename_i st1 hload
    dsimp only at h ⊢
    split at h
    · cases h
    · rename_i u st2 hensure
      have heq : ensureCollection cfg none st1 c cfg.vectorDim = (.ok u, st2) := by
        rw [← ensureCollection_ok (by rw [hensure]), hensure]
      rw [heq]
      dsimp only
      split at h
      · cases h
      · obtain ⟨rfl, hpay⟩ := upsertLoaded_ok h
        exact ⟨rfl, hpay⟩
      · cases h

theorem delete_ok {stop : Option SaveStep} {ps : List String} (h : (Backends.delete cfg stop st c ps).1 = .ok ()) :
    Backends.delete cfg stop st c ps = Backends.delete cfg none st c ps := by
  unfold Backends.delete at h ⊢
  split at h
  · cases h
  · rfl
  · dsimp only at h ⊢
    split at h
    · rw [(saveIndex_ok h).1]
    · split at h
      · rw [(saveIndex_ok h).1]
      · split at h
        · cases h
        · rw [(saveIndex_ok h).1]

/-- A call that is refused raises, wherever its saves would stop. -/
theorem refused_raises {op : VectorOp V P} (h : st.Refused cfg op) (stops : Option SaveStep × Option SaveStep) :
    FaissStore.error cfg stops st op ≠ none := by
  obtain ⟨hno, hremoves⟩ := h
  cases op with
  | upsert c p v payload =>
    obtain ⟨hv, hp⟩ := hremoves
    simp only [loadedIds] at hp
    simp only [FaissStore.error, Backends.upsert]
    generalize loadIndex cfg st c = x at hp
    obtain ⟨e | _ | ix, st1⟩ := x
    · exact absurd rfl hp
    · exact absurd rfl hp
    · have hclaim := @claimId_refused _ _ cfg _ _ (fun htaken => htaken.elim (by simp [hno]) hp) ix
      simp only [upsertLoaded, hclaim, hv, ne_eq, not_true_eq_false, if_false]
      exact Option.some_ne_none _
  | delete c ps =>
    obtain ⟨p, hps, hp⟩ := hremoves
    simp only [loadedIds] at hp
    simp only [FaissStore.error, Backends.delete]
    generalize loadIndex cfg st c = x at hp
    obtain ⟨e | _ | ix, st1⟩ := x
    · exact absurd rfl hp
    · exact absurd rfl hp
    · cases hm : st1.memory.metadata.get? c with
      | none =>
        simp only [hm, Option.getD_none] at hp
        exact absurd rfl hp
      | some m =>
        simp only [hm, Option.getD_some] at hp
        have hids : (popPoints m ps).2 ≠ [] := fun he => hp ((popPoints_ids m ps).mp he p hps)
        simp only [hm, if_neg hids, removeIds, hno, Bool.false_eq_true, if_false]
        exact Option.some_ne_none _
  | _ => exact hremoves.elim

/-- A call that returned was not refused. -/
theorem not_refused_completed {op : VectorOp V P} {stops : Option SaveStep × Option SaveStep}
    (h : FaissStore.error cfg stops st op = none) : ¬ st.Refused cfg op := fun hrefused =>
  refused_raises hrefused stops h

/-- A call that returned met no failure on its way. -/
theorem apply_completed {op : VectorOp V P} {stops : Option SaveStep × Option SaveStep}
    (h : FaissStore.error cfg stops st op = none) : st.apply cfg stops op = st.step cfg op ∧ op.Json cfg := by
  have hok : ∀ {r : Except VectorStoreError Unit}, FaissStore.error.errorOf r = none → r = .ok () := by
    intro r hr
    cases r with
    | error e => cases hr
    | ok u => rfl
  cases op with
  | ensure c => exact ⟨congrArg Prod.snd (ensureCollection_ok (hok h)), trivial⟩
  | upsert c p v payload => exact (upsert_ok (hok h)).imp (congrArg Prod.snd) id
  | delete c ps => exact ⟨congrArg Prod.snd (delete_ok (hok h)), trivial⟩
  | search c v limit t => exact ⟨rfl, trivial⟩
  | reopen => exact ⟨rfl, trivial⟩

theorem saveIndex_memory (stop : Option SaveStep) (st : FaissStore V P) (c : String) (ix : Index V) :
    (saveIndex cfg stop st c ix).2.memory = st.memory := by
  unfold saveIndex
  dsimp only
  split
  · rfl
  · split
    · rfl
    · split
      · rfl
      · split <;> rfl

/-- Memory has the new vector before the save begins. -/
theorem upsertLoaded_loaded (stop : Option SaveStep) (hl : Loaded st c ix m) (hd : ix.d = cfg.vectorDim) {p : String}
    (htaken : Taken cfg m p) {v : V} (hv : cfg.space.dim v = cfg.vectorDim) (payload : P) :
    Loaded (upsertLoaded cfg stop st c p v payload ix).2 c (putIndex cfg ix m p v) (putMetadata ix m p payload) := by
  have hm : (st.memory.metadata.get? c).getD {} = m := by rw [hl.metadata, Option.getD_some]
  have hd' : ¬ (claimed m ix p).2.2.d ≠ cfg.vectorDim := by rw [claimed_d, hd]; exact fun h => h rfl
  simp only [upsertLoaded, hm, claimId_taken htaken]
  rw [if_neg (by rw [hv]; exact fun h => h rfl), if_neg hd']
  constructor
  · rw [saveIndex_memory]
    exact Dict.get?_set_self _ _ _
  · rw [saveIndex_memory]
    exact Dict.get?_set_self _ _ _

/-- Memory has lost the points before the save begins, or before it is refused. -/
theorem delete_pops (stop : Option SaveStep) (h : LoadsAs cfg st c ix m) (ps : List String) :
    ∃ ix', Loaded (Backends.delete cfg stop st c ps).2 c ix' (popPoints m ps).1 := by
  obtain ⟨st1, hload, hl⟩ := h
  have hpopped : Loaded (st1.setMetadata c (popPoints m ps).1) c ix (popPoints m ps).1 :=
    ⟨hl.loaded.index, Dict.get?_set_self _ _ _⟩
  have hsaved : ∀ {st2 : FaissStore V P} {ix'}, Loaded st2 c ix' (popPoints m ps).1 →
      Loaded (saveIndex cfg stop st2 c ix').2 c ix' (popPoints m ps).1 := fun h =>
    ⟨by rw [saveIndex_memory, h.index], by rw [saveIndex_memory, h.metadata]⟩
  simp only [Backends.delete, hload, hl.loaded.metadata]
  split
  · exact ⟨ix, hsaved hpopped⟩
  · split
    · exact ⟨ix, hpopped⟩
    · exact ⟨_, hsaved ⟨Dict.get?_set_self _ _ _, hpopped.metadata⟩⟩

theorem upsertLoaded_index (stop : Option SaveStep) (hindex : ∃ ix', st.memory.indices.get? c = some ix') (p : String)
    (v : V) (payload : P) (ix : Index V) :
    ∃ ix', (upsertLoaded cfg stop st c p v payload ix).2.memory.indices.get? c = some ix' := by
  unfold upsertLoaded
  dsimp only
  split
  · exact hindex
  · split
    · exact hindex
    · split
      · exact ⟨_, Dict.get?_set_self _ _ _⟩
      · rw [saveIndex_memory]
        exact ⟨_, Dict.get?_set_self _ _ _⟩

/-- An upsert of a missing collection leaves one in memory, however it ends. -/
theorem upsert_new_index (stops : Option SaveStep × Option SaveStep) (h : Absent st c) (hsup : cfg.supported = true)
    (p : String) (v : V) (payload : P) :
    ∃ ix', (Backends.upsert cfg stops st c p v payload).2.memory.indices.get? c = some ix' := by
  rcases ensure_absent cfg stops.1 h with ⟨hno, _⟩ | ⟨_, res, st1, he, hd, _⟩
  · rw [hsup] at hno
    cases hno
  · simp only [Backends.upsert, loadIndex_absent cfg h, he]
    cases res with
    | error e => exact ⟨_, hd.loaded.index⟩
    | ok u =>
      simp only [loadIndex_loaded cfg hd.loaded]
      exact upsertLoaded_index stops.2 ⟨_, hd.loaded.index⟩ p v payload _

/-- A collection in memory takes no search for nothing. -/
theorem outcome_zero (cfg : FaissConfig V P) (hindex : ∃ ix, st.memory.indices.get? c = some ix) (q : V) :
    ∃ e, Outcome cfg st c q 0 none (.error e) := by
  obtain ⟨ix, hindex⟩ := hindex
  have hload : loadIndex cfg st c = (.ok (some ix), st) := by simp only [loadIndex, hindex]
  obtain ⟨hits, hhits⟩ := exists_hits cfg q 0 ix
  have hok : ∀ ix', (loadIndex cfg st c).1 = .ok (some ix') → Hits cfg (cfg.prepare q) 0 ix' hits := by
    intro ix' hix
    rw [hload] at hix
    cases hix
    exact hhits
  by_cases hq : cfg.space.dim q ≠ cfg.vectorDim
  · exact ⟨dimensionError cfg c q, hits, hok, by simp only [search, hload, if_pos hq, dimensionError]⟩
  · exact ⟨.assertionError, hits, hok, by simp only [search, hload, if_neg hq, or_true, if_true]⟩

/-- The store as it would be if every payload were JSON; its searches are the same. -/
def anyPayload (cfg : FaissConfig V P) : FaissConfig V P :=
  { cfg with reader := { cfg.reader with dumps := fun _ => true } }

theorem represents_anyPayload (h : Represents cfg ix m pts) : Represents (anyPayload cfg) ix m pts :=
  ⟨h.size, h.ids, h.inj, h.fresh, h.next, h.stored, h.live, fun _ => rfl⟩

/-- Instances that return the same results have the same points. -/
theorem point_kept {ix' : Index V} {m' : Metadata P} (hl : LoadsAs cfg st c ix m) (hr : Represents cfg ix m pts)
    (hl' : LoadsAs cfg st' c ix' m') (hr' : Represents (anyPayload cfg) ix' m' pts')
    (hsame : ∀ q limit t r, Outcome cfg st' c q limit t r ↔ Outcome cfg st c q limit t r) {q : V}
    (hq : cfg.space.dim q = cfg.vectorDim) {limit : Nat} (hlimit : 0 < limit) (res : List (VectorSearchResult P)) :
    PointsAnswer cfg pts' q limit none res ↔ PointsAnswer cfg pts q limit none res := by
  have hloads : LoadsAs (anyPayload cfg) st' c ix' m' := hl'
  have hexpected : ∀ pts : Points V P, Expected cfg c (some pts) q limit none (.ok res) ↔
      PointsAnswer cfg pts q limit none res := by
    intro pts
    simp only [Expected, hq, ne_eq, not_true_eq_false, if_false, hlimit.ne', Except.ok.injEq, exists_eq_left']
  have hafter : Outcome cfg st' c q limit none (.ok res) ↔ Expected cfg c (some pts') q limit none (.ok res) :=
    loads_outcome hloads hr' q limit none (.ok res)
  rw [← hexpected pts', ← hexpected pts, ← hafter, ← loads_outcome hl hr]
  exact hsame q limit none (.ok res)

def Writes : VectorOp V P → Prop
  | .upsert _ _ _ _ => True
  | .delete _ _ => True
  | _ => False

theorem missing_iff (h : Holding cfg st c (a c)) : Missing cfg st c ↔ a c = none := by
  cases hx : a c with
  | none =>
    rw [hx] at h
    exact iff_of_true (by rw [Missing, loadIndex_absent cfg h]) rfl
  | some pts =>
    rw [hx] at h
    obtain ⟨ix, m, _, _, hl, _⟩ := h.2.2.loads
    exact iff_of_false (not_missing hl) (by simp)

/-- An upsert that no search notices, of a collection that is there. -/
theorem upsert_unfelt {stops : Option SaveStep × Option SaveStep} {p : String} {v : V} {payload : P}
    (hl : LoadsAs cfg st c ix m) (hr : Represents cfg ix m pts) (hv : cfg.space.dim v = cfg.vectorDim)
    (htaken : Taken cfg m p)
    (hsame : ∀ q limit t r, Outcome cfg (Backends.upsert cfg stops st c p v payload).2 c q limit t r ↔
      Outcome cfg st c q limit t r) :
    ∃ u, HasPoint cfg st c p u payload ∧ ∀ q, cfg.space.dim q = cfg.vectorDim →
      cfg.space.dist (cfg.prepare q) u = cfg.space.dist (cfg.prepare q) (cfg.prepare v) := by
  obtain ⟨st1, hload, hl1⟩ := id hl
  have hupsert : Backends.upsert cfg stops st c p v payload = upsertLoaded cfg stops.2 st1 c p v payload ix := by
    simp only [Backends.upsert, hload]
  have hloaded := upsertLoaded_loaded stops.2 hl1.loaded hr.size htaken hv payload
  rw [hupsert] at hsame
  have hr' : Represents (anyPayload cfg) (putIndex cfg ix m p v) (putMetadata ix m p payload)
      (Function.update pts p (some (v, payload))) := represents_put (represents_anyPayload hr) p v rfl
  have hshown : ∀ q, cfg.space.dim q = cfg.vectorDim → ∃ w, pts p = some (w, payload) ∧
      cfg.space.dist (cfg.prepare q) (cfg.prepare w) = cfg.space.dist (cfg.prepare q) (cfg.prepare v) := by
    intro q hq
    refine @shows_point _ _ (anyPayload cfg) _ _ _ _ hr' p v payload (Function.update_self _ _ _) q
      fun limit res hlimit hres => ?_
    exact (point_kept hl hr (hloaded.loads cfg) hr' hsame hq hlimit res).mp hres
  obtain ⟨w, hw, _⟩ := hshown v hv
  refine ⟨cfg.prepare w, (hasPoint_iff hl hr p _ payload).mpr ⟨w, hw, rfl⟩, fun q hq => ?_⟩
  obtain ⟨w', hw', hdist⟩ := hshown q hq
  rw [hw] at hw'
  cases hw'
  exact hdist

theorem findPointId_known {idMap : Dict String Int} {i : Int} {p : String} (h : findPointId idMap i = some p) :
    idMap.get? p ≠ none := by
  obtain ⟨⟨q, j⟩, he, rfl⟩ := Option.map_eq_some_iff.mp h
  have hget := (Dict.get?_eq_some_iff _).mpr (List.mem_of_find?_eq_some he)
  rw [hget]
  exact Option.some_ne_none j

/-- A search reports only points its metadata knows. -/
theorem outcome_known (hl : LoadsAs cfg st c ix m) {q : V} {limit : Nat} {res : List (VectorSearchResult P)}
    (h : Outcome cfg st c q limit none (.ok res)) : ∀ r ∈ res, m.idMap.get? r.cacheId ≠ none := by
  obtain ⟨st1, hload, hl⟩ := hl
  obtain ⟨hits, _, hres⟩ := h
  simp only [search, hload, hl.loaded.metadata, Option.getD_some] at hres
  split at hres
  · cases hres
  · split at hres
    · cases hres
    · cases hres
      intro r hr
      obtain ⟨hit, _, hrow⟩ := List.mem_filterMap.mp hr
      unfold toResult at hrow
      split at hrow
      · cases hrow
      · obtain ⟨p, hp, hrow⟩ := Option.bind_eq_some_iff.mp hrow
        dsimp only at hrow
        split at hrow
        · cases hrow
        · cases hrow
          exact findPointId_known hp

/-- A delete that no search notices has no point to delete. -/
theorem delete_unfelt {stop : Option SaveStep} {ps : List String} (hl : LoadsAs cfg st c ix m)
    (hr : Represents cfg ix m pts) (hsound : ∀ {p v payload}, pts p = some (v, payload) →
      ∃ q, cfg.space.dim q = cfg.vectorDim)
    (hsame : ∀ q limit t r, Outcome cfg (Backends.delete cfg stop st c ps).2 c q limit t r ↔
      Outcome cfg st c q limit t r) {p : String} (hp : p ∈ ps) : pts p = none := by
  by_contra hne
  obtain ⟨⟨v, payload⟩, hpts⟩ := Option.ne_none_iff_exists'.mp hne
  obtain ⟨q, hq⟩ := hsound hpts
  -- a search with room for every vector showed it
  obtain ⟨limit, res, r, hlimit, hans, hrow, hin⟩ := point_shown hr hpts q
  have hbefore : Outcome cfg st c q limit none (.ok res) := by
    rw [loads_outcome hl hr]
    simp only [Expected, hq, ne_eq, not_true_eq_false, if_false, hlimit.ne']
    exact ⟨res, rfl, hans⟩
  obtain ⟨ix', hl'⟩ := @delete_pops _ _ cfg _ _ _ _ stop hl ps
  have hknown := outcome_known (hl'.loads cfg) ((hsame q limit none _).mpr hbefore) r hin
  rw [(pointResult_spec hrow).1, (popPoints_spec m ps).2.1, if_pos hp] at hknown
  exact hknown rfl

theorem unfelt_of_same (h : ∀ c, Holding cfg st c (a c)) {op : VectorOp V P} {stops : Option SaveStep × Option SaveStep}
    (hwrites : Writes op) (hsame : ∀ c q limit t r, Outcome cfg (st.apply cfg stops op) c q limit t r ↔
      Outcome cfg st c q limit t r) : Unfelt cfg st op := by
  cases op with
  | upsert c p v payload =>
    have hc := h c
    constructor
    · intro hmissing
      rw [(missing_iff hc).mp hmissing] at hc
      by_contra hsup
      obtain ⟨e, he⟩ := outcome_zero cfg (upsert_new_index stops hc (by simpa using hsup) p v payload) v
      have := (outcome_absent hc v 0 none (.error e)).mp ((hsame c v 0 none (.error e)).mp he)
      cases this
    · intro hthere
      cases hx : a c with
      | none => exact absurd ((missing_iff hc).mpr hx) hthere
      | some pts =>
        rw [hx] at hc
        obtain ⟨ix, m, _, _, hl, hcopy, _⟩ := hc.2.2.loads
        obtain ⟨pts', hr, _⟩ := hcopy.represents
        by_cases hv : cfg.space.dim v = cfg.vectorDim
        · right
          by_cases hrefused : st.Refused cfg (.upsert c p v payload)
          · exact Or.inl hrefused
          · exact Or.inr (upsert_unfelt hl hr hv (taken_upsert hl hrefused hv) (hsame c))
        · exact Or.inl hv
  | delete c ps =>
    intro p hp u payload hhas
    have hc := h c
    obtain ⟨ix, m, i, hl, _⟩ := id hhas
    cases hx : a c with
    | none => exact not_missing hl ((missing_iff hc).mpr hx)
    | some pts =>
      rw [hx] at hc
      obtain ⟨ix', m', _, _, hl', hcopy, _⟩ := hc.2.2.loads
      obtain ⟨pts', hr, halike⟩ := hcopy.represents
      obtain ⟨v, hv, rfl⟩ := (hasPoint_iff hl' hr p u payload).mp hhas
      have hsound : ∀ {p v payload}, pts' p = some (v, payload) → ∃ q, cfg.space.dim q = cfg.vectorDim := by
        intro p v payload hp
        obtain ⟨w, hw, _⟩ := halike.get hp
        exact ⟨w, (hc.2.1 p w payload hw).2⟩
      rw [delete_unfelt hl' hr hsound (hsame c) hp] at hv
      cases hv
  | ensure c => exact hwrites.elim
  | search c v limit t => trivial
  | reopen => trivial

abbrev Attempt (V P : Type) := VectorOp V P × (Option SaveStep × Option SaveStep)

def runAttempts (cfg : FaissConfig V P) (st : FaissStore V P) (attempts : List (Attempt V P)) : FaissStore V P :=
  attempts.foldl (fun st x => st.apply cfg x.2 x.1) st

def completed (cfg : FaissConfig V P) : FaissStore V P → List (Attempt V P) → List (VectorOp V P)
  | _, [] => []
  | st, x :: attempts =>
    match FaissStore.error cfg x.2 st x.1 with
    | none => x.1 :: completed cfg (st.apply cfg x.2 x.1) attempts
    | some _ => completed cfg (st.apply cfg x.2 x.1) attempts

def RaisesUnfelt (cfg : FaissConfig V P) : FaissStore V P → List (Attempt V P) → Prop
  | _, [] => True
  | st, x :: attempts => (FaissStore.error cfg x.2 st x.1 ≠ none → Unfelt cfg st x.1) ∧
      RaisesUnfelt cfg (st.apply cfg x.2 x.1) attempts

/-- Whatever is called later and not refused, the two instances return the same. -/
def Unnoticed (cfg : FaissConfig V P) (st st' : FaissStore V P) : Prop :=
  ∀ later : List (VectorOp V P), (∀ op ∈ later, op.Json cfg) → Unrefused cfg st later → ∀ c q limit t r,
    Outcome cfg (later.foldl (FaissStore.step cfg) st') c q limit t r ↔
      Outcome cfg (later.foldl (FaissStore.step cfg) st) c q limit t r

theorem holding_empty (cfg : FaissConfig V P) : ∀ c, Holding cfg ({} : FaissStore V P) c none :=
  fun _ => ⟨rfl, rfl, rfl⟩

theorem holding_run (h : ∀ c, Holding cfg st c (a c)) {ops : List (VectorOp V P)} (hops : ∀ op ∈ ops, op.Json cfg)
    (hfree : Unrefused cfg st ops) :
    ∀ c, Holding cfg (ops.foldl (FaissStore.step cfg) st) c (ops.foldl (colStep cfg) a c) := by
  induction ops generalizing st a with
  | nil => exact h
  | cons op ops ih =>
    obtain ⟨hop, hfree⟩ := hfree
    exact ih (holding_step h (hops op List.mem_cons_self) hop)
      (fun o ho => hops o (List.mem_cons_of_mem op ho)) hfree

/-- Instances with the same collections refuse the same calls. -/
theorem unrefused_holding (h : ∀ c, Holding cfg st c (a c)) (h' : ∀ c, Holding cfg st' c (a c))
    {ops : List (VectorOp V P)} (hops : ∀ op ∈ ops, op.Json cfg) (hfree : Unrefused cfg st ops) :
    Unrefused cfg st' ops := by
  induction ops generalizing st st' a with
  | nil => trivial
  | cons op ops ih =>
    obtain ⟨hop, hfree⟩ := hfree
    have hop' : ¬ st'.Refused cfg op := fun hr => hop ((refused_holding h h' op).mpr hr)
    have hjson := hops op List.mem_cons_self
    exact ⟨hop', ih (holding_step h hjson hop) (holding_step h' hjson hop')
      (fun o ho => hops o (List.mem_cons_of_mem op ho)) hfree⟩

theorem completed_json {attempts : List (Attempt V P)} : ∀ op ∈ completed cfg st attempts, op.Json cfg := by
  induction attempts generalizing st with
  | nil =>
    intro op ho
    cases ho
  | cons x attempts ih =>
    intro op ho
    simp only [completed] at ho
    split at ho
    · rename_i hnone
      rcases List.mem_cons.mp ho with rfl | ho
      · exact (apply_completed hnone).2
      · exact ih op ho
    · exact ih op ho

/-- Only the completed calls count. -/
theorem holding_attempts (h : ∀ c, Holding cfg st c (a c)) {attempts : List (Attempt V P)}
    (hunfelt : RaisesUnfelt cfg st attempts) : ∀ c, Holding cfg (runAttempts cfg st attempts) c
      ((completed cfg st attempts).foldl (colStep cfg) a c) := by
  induction attempts generalizing st a with
  | nil => exact h
  | cons x attempts ih =>
    obtain ⟨hx, hrest⟩ := hunfelt
    simp only [completed, runAttempts, List.foldl_cons]
    split
    · rename_i hnone
      obtain ⟨hstep, hjson⟩ := apply_completed hnone
      refine ih ?_ hrest
      rw [hstep]
      exact holding_step h hjson (not_refused_completed hnone)
    · rename_i hsome
      have hraises : FaissStore.error cfg x.2 st x.1 ≠ none := by
        rw [hsome]
        exact Option.some_ne_none _
      exact ih (holding_unfelt h (hx hraises) hraises) hrest

theorem unnoticed_of_unfelt (h : ∀ c, Holding cfg st c (a c)) {op : VectorOp V P}
    {stops : Option SaveStep × Option SaveStep} (hunfelt : Unfelt cfg st op)
    (hraises : FaissStore.error cfg stops st op ≠ none) : Unnoticed cfg st (st.apply cfg stops op) := by
  intro later hlater hfree c q limit t r
  have hthere := holding_unfelt h hunfelt hraises
  have hafter := holding_run hthere hlater (unrefused_holding h hthere hlater hfree) c
  rw [hafter.outcome, (holding_run h hlater hfree c).outcome]

/-- Alone, the completed calls are not refused either. -/
theorem unrefused_completed (h : ∀ c, Holding cfg st c (a c)) (h' : ∀ c, Holding cfg st' c (a c))
    {attempts : List (Attempt V P)} (hunfelt : RaisesUnfelt cfg st attempts) :
    Unrefused cfg st' (completed cfg st attempts) := by
  induction attempts generalizing st st' a with
  | nil => trivial
  | cons x attempts ih =>
    obtain ⟨hx, hrest⟩ := hunfelt
    simp only [completed]
    split
    · rename_i hnone
      obtain ⟨hstep, hjson⟩ := apply_completed hnone
      have hop := not_refused_completed hnone
      have hop' : ¬ st'.Refused cfg x.1 := fun hr => hop ((refused_holding h h' x.1).mpr hr)
      rw [hstep] at hrest ⊢
      exact ⟨hop', ih (holding_step h hjson hop) (holding_step h' hjson hop') hrest⟩
    · rename_i hsome
      have hraises : FaissStore.error cfg x.2 st x.1 ≠ none := by
        rw [hsome]
        exact Option.some_ne_none _
      exact ih (holding_unfelt h (hx hraises) hraises) h' hrest

/-- While only unfelt calls raise, searches return what they would without those calls; and
of the next write that raises some later search notices unless it is unfelt too. -/
theorem failed_write_unnoticed_iff (cfg : FaissConfig V P) (attempts : List (Attempt V P))
    (hunfelt : RaisesUnfelt cfg {} attempts) :
    let st := runAttempts cfg {} attempts
    Unnoticed cfg ((completed cfg {} attempts).foldl (FaissStore.step cfg) {}) st ∧
    ∀ op stops, Writes op → FaissStore.error cfg stops st op ≠ none →
      (Unnoticed cfg st (st.apply cfg stops op) ↔ Unfelt cfg st op) := by
  intro st
  have h : ∀ c, Holding cfg st c ((completed cfg {} attempts).foldl (colStep cfg) (fun _ => none) c) :=
    holding_attempts (holding_empty cfg) hunfelt
  constructor
  · intro later hlater hfree c q limit t r
    have halone := holding_run (holding_empty cfg) (@completed_json _ _ cfg {} attempts)
      (unrefused_completed (holding_empty cfg) (holding_empty cfg) hunfelt)
    rw [(holding_run h hlater (unrefused_holding halone h hlater hfree) c).outcome,
      (holding_run halone hlater hfree c).outcome]
  · intro op stops hwrites hraises
    constructor
    · exact fun hsame => unfelt_of_same h hwrites (hsame [] (fun o ho => by cases ho) trivial)
    · exact fun hunfelt => unnoticed_of_unfelt h hunfelt hraises

/-- "a" is there; its upsert again fails on the metadata, where it is not refused before. -/
def retried : List (Attempt Int String) :=
  [(.upsert "c" "a" 0 "a", none, none), (.upsert "c" "a" 0 "a", none, some .writeMeta)]

/-- The call that fails writes what is there already. -/
theorem retried_unfelt (cfg : FaissConfig Int String) (hcfg : cfg = lineConfig ∨ cfg = takingConfig) :
    RaisesUnfelt cfg {} retried := by
  have hloads : LoadsAs cfg (({} : FaissStore Int String).step cfg (.upsert "c" "a" 0 "a")) "c"
      ⟨1, [(1, 0)]⟩ ⟨(∅ : Dict String Int).set "a" 1, (∅ : Dict String String).set "a" "a", 2⟩ := by
    rcases hcfg with rfl | rfl
    · exact Loaded.loads lineConfig ⟨rfl, rfl⟩
    · exact Loaded.loads takingConfig ⟨rfl, rfl⟩
  have hprepare : cfg.prepare 0 = 0 := by rcases hcfg with rfl | rfl <;> rfl
  refine ⟨fun hraises => ?_, fun _ => ⟨fun hmissing => absurd hmissing (not_missing hloads), fun _ => ?_⟩, trivial⟩
  · rcases hcfg with rfl | rfl <;> exact absurd rfl hraises
  · refine Or.inr (Or.inr ⟨0, ⟨_, _, 1, hloads, rfl, List.mem_cons_self, rfl⟩, fun q _ => ?_⟩)
    rw [hprepare]

/-- Over both kinds of FAISS. -/
theorem failed_write_unnoticed_iff_retried :
    let op : VectorOp Int String := .delete "c" ["x"]
    (Unnoticed lineConfig ((completed lineConfig {} retried).foldl (FaissStore.step lineConfig) {})
        (runAttempts lineConfig {} retried) ∧
      (Unnoticed lineConfig (runAttempts lineConfig {} retried)
          ((runAttempts lineConfig {} retried).apply lineConfig (none, some .replaceIndex) op) ↔
        Unfelt lineConfig (runAttempts lineConfig {} retried) op)) ∧
    Unnoticed takingConfig ((completed takingConfig {} retried).foldl (FaissStore.step takingConfig) {})
        (runAttempts takingConfig {} retried) ∧
      (Unnoticed takingConfig (runAttempts takingConfig {} retried)
          ((runAttempts takingConfig {} retried).apply takingConfig (none, some .replaceIndex) op) ↔
        Unfelt takingConfig (runAttempts takingConfig {} retried) op) := by
  intro op
  obtain ⟨hline, hnext⟩ := failed_write_unnoticed_iff lineConfig retried (retried_unfelt _ (Or.inl rfl))
  obtain ⟨htaking, hnext'⟩ := failed_write_unnoticed_iff takingConfig retried (retried_unfelt _ (Or.inr rfl))
  exact ⟨⟨hline, hnext op (none, some .replaceIndex) trivial (Option.some_ne_none _)⟩,
    htaking, hnext' op (none, some .replaceIndex) trivial (Option.some_ne_none _)⟩

def withA : FaissStore Int String := ({} : FaissStore Int String).step lineConfig (.upsert "c" "a" 0 "a")

def failedB : Option SaveStep × Option SaveStep := (none, some .writeIndex)

theorem new_point_felt : ¬ Unfelt lineConfig withA (.upsert "c" "b" 4 "b") := by
  have hloads : LoadsAs lineConfig withA "c" ⟨1, [(1, 0)]⟩
      ⟨(∅ : Dict String Int).set "a" 1, (∅ : Dict String String).set "a" "a", 2⟩ := Loaded.loads lineConfig ⟨rfl, rfl⟩
  intro hunfelt
  rcases hunfelt.2 (not_missing hloads) with hv | hrefused | ⟨u, ⟨ix, m, i, hl, hid, _⟩, _⟩
  · exact hv rfl
  · exact hrefused.2.2 rfl
  · obtain ⟨_, rfl⟩ := loadsAs_unique hloads hl
    cases hid

/-- A search finds "b", and the next upsert that is saved saves "b" too. -/
theorem failed_write_searchable :
    let failed := withA.apply lineConfig failedB (.upsert "c" "b" 4 "b")
    FaissStore.error lineConfig failedB withA (.upsert "c" "b" 4 "b") =
      some (.runtimeError "FAISSVectorStore failed to write index for collection=c") ∧
    (∃ hits, Hits lineConfig 4 1 ⟨1, [(1, 0), (2, 4)]⟩ hits ∧
      (search lineConfig failed "c" 4 1 none hits).1 = .ok [⟨"b", 1, "b", [], "b"⟩]) ∧
    ((failed.step lineConfig (.upsert "c" "d" 9 "d")).step lineConfig .reopen).disk.metaFiles.get? "c" =
      some (.metadata ⟨(((∅ : Dict String Int).set "a" 1).set "b" 2).set "d" 3,
        (((∅ : Dict String String).set "a" "a").set "b" "b").set "d" "d", 4⟩) ∧
    ¬ Unnoticed lineConfig withA failed := by
  refine ⟨rfl, ⟨[(2, 4)], line_hits (List.Perm.swap _ _ _), by decide +kernel⟩, rfl, fun hsame => ?_⟩
  have hfree : Unrefused lineConfig {} [VectorOp.upsert "c" "a" (0 : Int) "a"] := ⟨fun h => h.2.2 rfl, trivial⟩
  have h := holding_run (holding_empty lineConfig) (fun op _ => line_json op) hfree
  exact new_point_felt (unfelt_of_same h trivial (hsame [] (fun o ho => by cases ho) trivial))

end CacheSeek.Proofs.FaissFailedWrite
