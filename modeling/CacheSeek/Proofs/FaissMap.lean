import CacheSeek.Backends.VectorMap
import Mathlib.Logic.Function.Basic

namespace CacheSeek.Proofs.FaissMap
open CacheSeek.Lib CacheSeek.Backends

variable {V P : Type} {cfg : FaissConfig V P} {ix : Index V} {m : Metadata P} {pts : Points V P}

/-- The index and the metadata hold the points. Entries of the id map may be dead, vectors may not. -/
structure Represents (cfg : FaissConfig V P) (ix : Index V) (m : Metadata P) (pts : Points V P) :
    Prop where
  size : ix.d = cfg.vectorDim
  ids : (ix.entries.map Prod.fst).Nodup
  inj : ∀ {p q i}, m.idMap.get? p = some i → m.idMap.get? q = some i → p = q
  fresh : ∀ {p i}, m.idMap.get? p = some i → 0 < i ∧ i < m.nextId
  next : 0 < m.nextId
  stored : ∀ {p v payload}, pts p = some (v, payload) → ∃ i, m.idMap.get? p = some i ∧
    (i, cfg.prepare v) ∈ ix.entries ∧ (m.payload.get? p).getD cfg.reader.empty = payload
  live : ∀ {i u}, (i, u) ∈ ix.entries → ∃ p v payload, m.idMap.get? p = some i ∧
    pts p = some (v, payload) ∧ u = cfg.prepare v
  dumps : ∀ {p payload}, m.payload.get? p = some payload → cfg.reader.dumps payload = true

theorem represents_empty : Represents cfg ⟨cfg.vectorDim, []⟩ {} fun _ => none := by
  refine ⟨rfl, List.nodup_nil, ?_, ?_, Int.one_pos, ?_, ?_, ?_⟩
  · intro p q i hp
    cases hp
  · intro p i hp
    cases hp
  · intro p v payload hp
    cases hp
  · intro i u hi
    cases hi
  · intro p payload hp
    cases hp

/-- Ids belong to one point each, so the reverse search finds it. -/
theorem findPointId_eq (hinj : ∀ {p q i}, m.idMap.get? p = some i → m.idMap.get? q = some i → p = q)
    {p : String} {i : Int} (hp : m.idMap.get? p = some i) : findPointId m.idMap i = some p := by
  unfold findPointId
  have hmem := (Dict.get?_eq_some_iff _).mp hp
  cases hf : m.idMap.entries.find? fun e => e.2 = i with
  | none =>
    rw [List.find?_eq_none] at hf
    exact absurd (decide_eq_true rfl) (hf (p, i) hmem)
  | some e =>
    obtain ⟨q, j⟩ := e
    have hj : j = i := by simpa using List.find?_some hf
    have hq := (Dict.get?_eq_some_iff _).mpr (List.mem_of_find?_eq_some hf)
    rw [hj] at hq
    rw [hinj hp hq]
    rfl

theorem Represents.stored_at (h : Represents cfg ix m pts) {x : String × V × P} (hx : pts x.1 = some x.2) :
    ∃ i, m.idMap.get? x.1 = some i ∧ (i, cfg.prepare x.2.1) ∈ ix.entries ∧
      (m.payload.get? x.1).getD cfg.reader.empty = x.2.2 := h.stored hx

def entryOf (cfg : FaissConfig V P) (m : Metadata P) (x : String × V × P) : Int × V :=
  ((m.idMap.get? x.1).getD 0, cfg.prepare x.2.1)

theorem Represents.entryOf_mem (h : Represents cfg ix m pts) {x : String × V × P}
    (hx : pts x.1 = some x.2) : entryOf cfg m x ∈ ix.entries := by
  obtain ⟨i, hi, hmem, _⟩ := h.stored_at hx
  rw [entryOf, hi]
  exact hmem

/-- Two points have two entries. -/
theorem Represents.entryOf_inj (h : Represents cfg ix m pts) {x y : String × V × P}
    (hx : pts x.1 = some x.2) (hy : pts y.1 = some y.2) (he : entryOf cfg m x = entryOf cfg m y) :
    x = y := by
  obtain ⟨i, hi, _⟩ := h.stored_at hx
  obtain ⟨j, hj, _⟩ := h.stored_at hy
  have hij := congrArg Prod.fst he
  simp only [entryOf, hi, hj, Option.getD_some] at hij
  subst hij
  have hxy := h.inj hi hj
  rw [hxy, hy] at hx
  exact Prod.ext hxy (Option.some.inj hx).symm

theorem Represents.toResult_entryOf (h : Represents cfg ix m pts) (q : V) (t : Option Rat)
    {x : String × V × P} (hx : pts x.1 = some x.2) :
    toResult cfg m (cfg.prepare q) t (entryOf cfg m x) = pointResult cfg q t x := by
  obtain ⟨i, hi, _, hpay⟩ := h.stored_at hx
  have hpos : ¬ i < 0 := by have := (h.fresh hi).1; omega
  simp only [toResult, entryOf, hi, Option.getD_some, if_neg hpos, findPointId_eq h.inj hi, Option.bind_some,
    hpay, pointResult]

/-- What the index finds is what the points are. -/
theorem Represents.answer (h : Represents cfg ix m pts) (q : V) (limit : Nat) (t : Option Rat)
    (res : List (VectorSearchResult P)) :
    (∃ hits, Hits cfg (cfg.prepare q) limit ix hits ∧
      res = hits.filterMap (toResult cfg m (cfg.prepare q) t)) ↔ PointsAnswer cfg pts q limit t res := by
  classical
  have hnodup : ix.entries.Nodup := h.ids.of_map _
  have hsur : ∀ y, y ∈ ix.entries → ∃ x : String × V × P, pts x.1 = some x.2 ∧ entryOf cfg m x = y := by
    rintro ⟨i, u⟩ hy
    obtain ⟨p, v, payload, hp, hpts, rfl⟩ := h.live hy
    exact ⟨(p, v, payload), hpts, by rw [entryOf, hp]; rfl⟩
  have hres : ∀ picked : List (String × V × P), (∀ x ∈ picked, pts x.1 = some x.2) →
      (picked.map (entryOf cfg m)).filterMap (toResult cfg m (cfg.prepare q) t) =
        picked.filterMap (pointResult cfg q t) := by
    intro picked hpicked
    rw [List.filterMap_map]
    apply List.filterMap_congr
    intro x hx
    exact h.toResult_entryOf q t (hpicked x hx)
  constructor
  · rintro ⟨hits, hhits, rfl⟩
    have hcloser : ∀ x y : String × V × P, pts x.1 = some x.2 → pts y.1 = some y.2 →
        cfg.nearer (cfg.space.dist (cfg.prepare q) (entryOf cfg m x).2)
          (cfg.space.dist (cfg.prepare q) (entryOf cfg m y).2) → cfg.closer q x y := fun _ _ _ _ => id
    obtain ⟨picked, rfl, hbest⟩ := Best.comap (S := fun x : String × V × P => pts x.1 = some x.2)
      ((topN_iff_best hnodup).mp hhits)
      (fun _ _ hx hy => h.entryOf_inj hx hy) (fun _ hx => h.entryOf_mem hx) hsur hcloser
    exact ⟨picked, hbest, hres picked hbest.mem⟩
  · rintro ⟨picked, hbest, rfl⟩
    refine ⟨picked.map (entryOf cfg m), (topN_iff_best hnodup).mpr ?_, (hres picked hbest.mem).symm⟩
    exact hbest.map (fun _ _ hx hy => h.entryOf_inj hx hy) (fun _ hx => h.entryOf_mem hx) hsur
      fun _ _ _ _ => id

/-- A point gets an int id before it has a vector. -/
theorem Represents.claim (h : Represents cfg ix m pts) {p : String} (hp : m.idMap.get? p = none) :
    Represents cfg ix { m with nextId := m.nextId + 1, idMap := m.idMap.set p m.nextId } pts := by
  have hnext := h.next
  have hlt : ∀ {q i}, m.idMap.get? q = some i → i ≠ m.nextId := fun hq he => by
    have := (h.fresh hq).2
    omega
  refine ⟨h.size, h.ids, ?_, ?_, by dsimp only; omega, ?_, ?_, h.dumps⟩
  · intro q r i hq hr
    simp only [Dict.get?_set] at hq hr
    split at hq <;> split at hr
    · rename_i h1 h2
      rw [h1, h2]
    · cases hq
      exact absurd rfl (hlt hr)
    · cases hr
      exact absurd rfl (hlt hq)
    · exact h.inj hq hr
  · intro q i hq
    simp only [Dict.get?_set] at hq
    split at hq
    · cases hq
      dsimp only
      omega
    · have := h.fresh hq
      dsimp only
      omega
  · intro q v payload hq
    obtain ⟨i, hi, hmem, hpay⟩ := h.stored hq
    have hne : q ≠ p := fun he => by
      rw [he, hp] at hi
      cases hi
    exact ⟨i, by rw [Dict.get?_set_ne _ _ hne, hi], hmem, hpay⟩
  · intro i u hi
    obtain ⟨q, v, payload, hq, hpts, hu⟩ := h.live hi
    have hne : q ≠ p := fun he => by
      rw [he, hp] at hq
      cases hq
    exact ⟨q, v, payload, by rw [Dict.get?_set_ne _ _ hne, hq], hpts, hu⟩

/-- The vector of a point is replaced, and maybe its payload. -/
theorem Represents.put (h : Represents cfg ix m pts) {p : String} {i : Int} (hp : m.idMap.get? p = some i)
    (v : V) {payloads : Dict String P} {payload : P}
    (hpay : (payloads.get? p).getD cfg.reader.empty = payload)
    (hother : ∀ q, q ≠ p → payloads.get? q = m.payload.get? q)
    (hdumps : ∀ x, payloads.get? p = some x → cfg.reader.dumps x = true) :
    Represents cfg ((ix.removeIds [i]).addWithId i (cfg.prepare v)) { m with payload := payloads }
      (Function.update pts p (some (v, payload))) := by
  have hmem : ∀ {j u}, (j, u) ∈ ((ix.removeIds [i]).addWithId i (cfg.prepare v)).entries ↔
      (j, u) ∈ ix.entries ∧ j ≠ i ∨ j = i ∧ u = cfg.prepare v := by
    intro j u
    simp [Index.addWithId, Index.removeIds]
  refine ⟨h.size, ?_, h.inj, h.fresh, h.next, ?_, ?_, ?_⟩
  · simp only [Index.addWithId, Index.removeIds, List.map_append, List.map_singleton]
    rw [List.nodup_append]
    refine ⟨h.ids.sublist (List.filter_sublist.map _), List.nodup_singleton i, ?_⟩
    intro j hj k hk
    rw [List.mem_singleton] at hk
    obtain ⟨⟨j, u⟩, he, rfl⟩ := List.mem_map.mp hj
    have := (List.mem_filter.mp he).2
    simp only [List.mem_singleton, decide_eq_true_eq] at this
    rw [hk]
    exact this
  · intro q w x hq
    by_cases hqp : q = p
    · subst q
      rw [Function.update_self] at hq
      cases hq
      exact ⟨i, hp, hmem.mpr (Or.inr ⟨rfl, rfl⟩), hpay⟩
    · rw [Function.update_of_ne hqp] at hq
      obtain ⟨j, hj, hin, hx⟩ := h.stored hq
      refine ⟨j, hj, hmem.mpr (Or.inl ⟨hin, ?_⟩), by rw [← hx, hother q hqp]⟩
      rintro rfl
      exact hqp (h.inj hj hp)
  · intro j u hj
    rcases hmem.mp hj with ⟨hin, hne⟩ | ⟨rfl, rfl⟩
    · obtain ⟨q, w, x, hq, hpts, hu⟩ := h.live hin
      refine ⟨q, w, x, hq, ?_, hu⟩
      rw [Function.update_of_ne, hpts]
      rintro rfl
      rw [hp] at hq
      exact hne (Option.some.inj hq).symm
    · exact ⟨p, v, payload, hp, Function.update_self _ _ _, rfl⟩
  · intro q x hq
    by_cases hqp : q = p
    · subst q
      exact hdumps x hq
    · rw [hother q hqp] at hq
      exact h.dumps hq

/-- Popped points leave both maps, and the counter stays. -/
theorem popPoints_spec (m : Metadata P) (ps : List String) :
    (popPoints m ps).1.nextId = m.nextId ∧
    (∀ q, (popPoints m ps).1.idMap.get? q = if q ∈ ps then none else m.idMap.get? q) ∧
    (∀ q, (popPoints m ps).1.payload.get? q = if q ∈ ps then none else m.payload.get? q) ∧
    (∀ i, i ∈ (popPoints m ps).2 ↔ ∃ p ∈ ps, m.idMap.get? p = some i) := by
  induction ps generalizing m with
  | nil => simp [popPoints]
  | cons p ps ih =>
    obtain ⟨h1, h2, h3, h4⟩ := ih { m with idMap := m.idMap.erase p, payload := m.payload.erase p }
    simp only [popPoints]
    refine ⟨h1, ?_, ?_, ?_⟩
    · intro q
      rw [h2, Dict.get?_erase]
      by_cases hq : q ∈ ps <;> by_cases hp : q = p <;> simp [hq, hp]
    · intro q
      rw [h3, Dict.get?_erase]
      by_cases hq : q ∈ ps <;> by_cases hp : q = p <;> simp [hq, hp]
    · intro i
      rw [List.mem_append, h4, Option.mem_toList]
      simp only [Dict.get?_erase, List.mem_cons]
      constructor
      · rintro (hi | ⟨q, hq, hi⟩)
        · exact ⟨p, Or.inl rfl, hi⟩
        · split at hi
          · cases hi
          · exact ⟨q, Or.inr hq, hi⟩
      · rintro ⟨q, rfl | hq, hi⟩
        · exact Or.inl hi
        · by_cases hqp : q = p
          · exact Or.inl (hqp ▸ hi)
          · exact Or.inr ⟨q, hq, by rw [if_neg hqp, hi]⟩

/-- Points lose their vectors; their entries in the metadata may stay. -/
theorem Represents.remove (h : Represents cfg ix m pts) (ps : List String) {m' : Metadata P}
    (hnext : m'.nextId = m.nextId)
    (hsub : ∀ {q i}, m'.idMap.get? q = some i → m.idMap.get? q = some i)
    (hids : ∀ q, q ∉ ps → m'.idMap.get? q = m.idMap.get? q)
    (hpay : ∀ q, q ∉ ps → m'.payload.get? q = m.payload.get? q)
    (hdumps : ∀ {q x}, m'.payload.get? q = some x → m.payload.get? q = some x) :
    Represents cfg (ix.removeIds (popPoints m ps).2) m' (fun p => if p ∈ ps then none else pts p) := by
  obtain ⟨_, _, _, h4⟩ := popPoints_spec m ps
  have hmem : ∀ {j u}, (j, u) ∈ (ix.removeIds (popPoints m ps).2).entries ↔
      (j, u) ∈ ix.entries ∧ ¬ ∃ p ∈ ps, m.idMap.get? p = some j := by
    intro j u
    simp [Index.removeIds, h4]
  refine ⟨h.size, ?_, ?_, ?_, by rw [hnext]; exact h.next, ?_, ?_, fun hq => h.dumps (hdumps hq)⟩
  · exact h.ids.sublist (List.filter_sublist.map _)
  · exact fun hq hr => h.inj (hsub hq) (hsub hr)
  · intro p i hp
    rw [hnext]
    exact h.fresh (hsub hp)
  · intro p v payload hp
    split at hp
    · cases hp
    · rename_i hps
      obtain ⟨i, hi, hin, hx⟩ := h.stored hp
      refine ⟨i, by rw [hids p hps, hi], hmem.mpr ⟨hin, ?_⟩, by rw [hpay p hps, hx]⟩
      rintro ⟨q, hq, hqi⟩
      exact hps (h.inj hi hqi ▸ hq)
  · intro i u hi
    obtain ⟨hin, hno⟩ := hmem.mp hi
    obtain ⟨p, v, payload, hp, hpts, hu⟩ := h.live hin
    have hps : p ∉ ps := fun hps => hno ⟨p, hps, hp⟩
    exact ⟨p, v, payload, by rw [hids p hps, hp], by rw [if_neg hps, hpts], hu⟩

end CacheSeek.Proofs.FaissMap
