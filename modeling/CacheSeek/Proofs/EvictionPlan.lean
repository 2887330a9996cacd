import CacheSeek.Backends.LocalMetadata
import CacheSeek.Lib.ShortestPrefix
import CacheSeek.Service.Eviction
import Mathlib.Algebra.Order.Ring.Rat
import Mathlib.Tactic.Linarith

namespace CacheSeek.Proofs.EvictionPlan
open CacheSeek.Lib CacheSeek.Backends.Metadata LocalCacheMetadataManager

variable {value : FloatRepr → Rat} {s : LocalCacheMetadataManager}

def size (value : FloatRepr → Rat) (e : String × CacheMeta) : Rat := value e.2.sizeMb

def lastAccess (value : FloatRepr → Rat) (e : String × CacheMeta) : Rat := value e.2.lastAccessTime

/-- The sizes on record, and the new one, stay within the limit. -/
def Fits (value : FloatRepr → Rat) (s : LocalCacheMetadataManager) (requiredMb limitMb : Rat) : Prop :=
  (s.stats.entries.map (size value)).sum + requiredMb ≤ limitMb

def applyPlan (s : LocalCacheMetadataManager) (plan : List (String × CacheMeta)) : LocalCacheMetadataManager :=
  plan.foldl (fun s e => s.removeCache e.1) s

/-- What a plan is to be: the shortest run of the least recently used caches whose
removal makes room. -/
structure MinimalPlan (value : FloatRepr → Rat) (s : LocalCacheMetadataManager) (requiredMb limitMb : Rat)
    (plan rest : List (String × CacheMeta)) : Prop where
  ordered : StableOrder (lastAccess value) s.stats.entries (plan ++ rest)
  notNeeded : Fits value s requiredMb limitMb → plan = []
  enough : Fits value (applyPlan s plan) requiredMb limitMb ∨ rest = []
  minimal : ∀ p, p <+: plan → p ≠ plan → ¬ Fits value (applyPlan s p) requiredMb limitMb
  oldest : ∀ victim ∈ plan, ∀ survivor ∈ rest, lastAccess value victim ≤ lastAccess value survivor

theorem applyPlan_entries (s : LocalCacheMetadataManager) (plan : List (String × CacheMeta)) :
    (applyPlan s plan).stats.entries = s.stats.entries.filter fun e => e.1 ∉ plan.map Prod.fst := by
  induction plan generalizing s with
  | nil => simp [applyPlan]
  | cons e plan ih =>
    have hstep : applyPlan s (e :: plan) = applyPlan (s.removeCache e.1) plan := rfl
    have hone : (s.removeCache e.1).stats.entries = s.stats.entries.filter fun x => x.1 ≠ e.1 := rfl
    rw [hstep, ih, hone, List.filter_filter]
    apply List.filter_congr
    intro x _
    simp only [List.map_cons, List.mem_cons, not_or]
    by_cases hx : x.1 = e.1 <;> simp [hx]

/-- What is left after removing a part of the entries. -/
theorem applyPlan_perm {p q : List (String × CacheMeta)} (h : (p ++ q).Perm s.stats.entries) :
    (applyPlan s p).stats.entries.Perm q := by
  have hnodup : ((p ++ q).map Prod.fst).Nodup := (h.map Prod.fst).nodup_iff.mpr s.stats.nodup
  rw [List.map_append, List.nodup_append] at hnodup
  have hp : p.filter (fun e => e.1 ∉ p.map Prod.fst) = [] := by
    rw [List.filter_eq_nil_iff]
    intro e he
    simpa using ⟨e.2, he⟩
  have hq : q.filter (fun e => e.1 ∉ p.map Prod.fst) = q := by
    rw [List.filter_eq_self]
    intro e he
    have := hnodup.2.2
    rw [decide_eq_true_eq]
    exact fun hmem => this e.1 hmem e.1 (List.mem_map_of_mem he) rfl
  have hfilter := h.symm.filter fun e => e.1 ∉ p.map Prod.fst
  rw [List.filter_append, hp, hq, List.nil_append] at hfilter
  rw [applyPlan_entries]
  exact hfilter

/-- Room is made by removing what the deficit asks for. -/
theorem fits_applyPlan_iff {p q : List (String × CacheMeta)} (h : (p ++ q).Perm s.stats.entries)
    (requiredMb limitMb : Rat) :
    Fits value (applyPlan s p) requiredMb limitMb ↔
      (s.stats.entries.map (size value)).sum + requiredMb - limitMb ≤ (p.map (size value)).sum := by
  have hall : (s.stats.entries.map (size value)).sum = (p.map (size value)).sum + (q.map (size value)).sum := by
    rw [← (h.map (size value)).sum_eq, List.map_append, List.sum_append]
  unfold Fits
  rw [((applyPlan_perm h).map (size value)).sum_eq, hall]
  constructor <;> intro hle <;> linarith

/-- With exact sums the loop stops at the first prefix that is large enough. -/
theorem selectItems_exact (need sum : Rat) (items : List (String × CacheMeta)) :
    selectItems (exactOps value) need sum items = takeReaching (size value) need sum items := by
  induction items generalizing sum with
  | nil => rfl
  | cons e items ih =>
    simp only [selectItems, takeReaching, exactOps, size, decide_eq_true_eq]
    rw [← ih]
    rfl

def lruOrder (value : FloatRepr → Rat) (s : LocalCacheMetadataManager) : List (String × CacheMeta) :=
  s.stats.entries.insertionSort fun a b =>
    (exactOps value).lt ((exactOps value).ofRepr b.2.lastAccessTime)
      ((exactOps value).ofRepr a.2.lastAccessTime) = false

/-- Caches of one access time keep their order. -/
theorem lruOrder_stable (value : FloatRepr → Rat) (s : LocalCacheMetadataManager) :
    StableOrder (lastAccess value) s.stats.entries (lruOrder value s) := by
  apply stableOrder_insertionSort
  intro a b
  simp [exactOps, lastAccess]

theorem planEviction_exact (value : FloatRepr → Rat) (s : LocalCacheMetadataManager) (requiredMb limitMb : Rat) :
    s.planEviction (exactOps value) requiredMb limitMb =
      if (s.stats.entries.map (size value)).sum + requiredMb ≤ limitMb then []
      else takeReaching (size value) ((s.stats.entries.map (size value)).sum + requiredMb - limitMb) 0
        (lruOrder value s) := by
  have htotal : (exactOps value).sum (s.stats.values.map fun m => (exactOps value).ofRepr m.sizeMb) =
      (s.stats.entries.map (size value)).sum := by
    simp only [exactOps, Dict.values, List.map_map]
    rfl
  rw [← selectItems_exact, ← htotal]
  simp only [planEviction, exactOps, decide_eq_true_eq]
  rfl

theorem planEviction_minimal (value : FloatRepr → Rat) (s : LocalCacheMetadataManager) (requiredMb limitMb : Rat) :
    ∃ rest, MinimalPlan value s requiredMb limitMb (s.planEviction (exactOps value) requiredMb limitMb) rest := by
  have horder := lruOrder_stable value s
  rw [planEviction_exact]
  split
  · rename_i hfits
    refine ⟨_, horder, fun _ => rfl, Or.inl hfits, fun p hp hne => ?_, fun v hv => by cases hv⟩
    exact absurd (List.prefix_nil.mp hp) hne
  · rename_i hfits
    have hneed : 0 < (s.stats.entries.map (size value)).sum + requiredMb - limitMb := by linarith
    obtain ⟨rest, hsplit, hshort⟩ := takeReaching_shortest (size value) (lruOrder value s) hneed
    rw [hsplit] at horder
    refine ⟨rest, horder, fun h => absurd h hfits, ?_, fun p hp hne => ?_, horder.front_le⟩
    · exact hshort.reaches.imp_left (fits_applyPlan_iff horder.perm requiredMb limitMb).mpr
    · obtain ⟨q, hq⟩ := hp
      have hperm := horder.perm
      rw [← hq, List.append_assoc] at hperm
      rw [fits_applyPlan_iff hperm, not_le]
      exact hshort.minimal p ⟨q, hq⟩ hne

section Policies
open CacheSeek.Service.Eviction

/-- What a policy is to select: the shortest prefix, in the order of its field, whose
whole bytes reach the budget. -/
structure MinimalVictims (name : String) (candidates : List (String × Metadata)) (sizeToFreeBytes : Int)
    (victims : List String) (front rest : List (String × Metadata)) : Prop where
  selected : victims = front.map Prod.fst
  ordered : StableOrder (fun c => field name c.2) candidates (front ++ rest)
  notNeeded : sizeToFreeBytes ≤ 0 → victims = []
  shortest : 0 < sizeToFreeBytes → ShortestPrefix (fun c => sizeBytes c.2) sizeToFreeBytes front rest
  oldest : ∀ victim ∈ front, ∀ survivor ∈ rest, field name victim.2 ≤ field name survivor.2

/-- The byte policies run the same loop over integers. -/
theorem accumulateFrom_eq (budget freed : Int) (items : List (String × Metadata)) :
    accumulateFrom budget freed items =
      (takeReaching (fun c : String × Metadata => sizeBytes c.2) budget freed items).map Prod.fst := by
  induction items generalizing freed with
  | nil => rfl
  | cons c items ih =>
    simp only [accumulateFrom, takeReaching, List.map_cons, ih]
    split <;> rfl

theorem selectBy_minimal (name : String) (candidates : List (String × Metadata)) (budget : Int) :
    ∃ front rest, MinimalVictims name candidates budget (selectBy name candidates budget) front rest := by
  have horder : StableOrder (fun c : String × Metadata => field name c.2) candidates (sortedBy name candidates) :=
    stableOrder_insertionSort _ _ (fun _ _ => Iff.rfl) candidates
  unfold selectBy accumulate
  split
  · rename_i hbudget
    exact ⟨[], _, rfl, horder, fun _ => rfl, fun h => absurd h (by omega), fun v hv => by cases hv⟩
  · rename_i hbudget
    obtain ⟨rest, hsplit, hshort⟩ := takeReaching_shortest (fun c : String × Metadata => sizeBytes c.2)
      (sortedBy name candidates) (show 0 < budget by omega)
    rw [hsplit] at horder
    exact ⟨_, rest, accumulateFrom_eq budget 0 _, horder, fun h => absurd h hbudget, fun _ => hshort,
      horder.front_le⟩

theorem toInt_nonneg {x : Rat} (h : 0 ≤ x) : 0 ≤ toInt x :=
  Int.tdiv_nonneg (Rat.num_nonneg.mpr h) (Int.natCast_nonneg _)

/-- Without negative sizes everything is selected where the candidates cannot reach the budget. -/
theorem MinimalVictims.all {name : String} {candidates : List (String × Metadata)} {budget : Int}
    {victims : List String} {front rest : List (String × Metadata)}
    (h : MinimalVictims name candidates budget victims front rest)
    (hpos : ∀ c ∈ candidates, 0 ≤ field "size_mb" c.2) (hbudget : 0 < budget)
    (hshort : (candidates.map fun c => sizeBytes c.2).sum < budget) : rest = [] := by
  have hperm := h.ordered.perm
  rw [← (hperm.map fun c => sizeBytes c.2).sum_eq] at hshort
  refine (h.shortest hbudget).rest_nil (fun c hc => toInt_nonneg ?_) hshort
  have := hpos c (hperm.subset (List.mem_append_right front hc))
  nlinarith

/-- A plan, and the victims of a policy, are the shortest part of the entries in their
order of use that makes the room asked for. -/
theorem eviction_minimal (value : FloatRepr → Rat) (s : LocalCacheMetadataManager)
    (requiredMb limitMb : Rat) (candidates : List (String × Metadata)) (sizeToFreeBytes : Int)
    (hpos : ∀ c ∈ candidates, 0 ≤ field "size_mb" c.2) :
    (∃ rest, MinimalPlan value s requiredMb limitMb
      (s.planEviction (exactOps value) requiredMb limitMb) rest) ∧
    ∀ policy ∈ [("last_access_time", LRUEviction.selectVictims), ("created_at", FIFOEviction.selectVictims)],
      ∃ front rest, MinimalVictims policy.1 candidates sizeToFreeBytes
          (policy.2 candidates sizeToFreeBytes) front rest ∧
        (0 < sizeToFreeBytes → (candidates.map fun c => sizeBytes c.2).sum < sizeToFreeBytes → rest = []) := by
  refine ⟨planEviction_minimal value s requiredMb limitMb, fun policy hpolicy => ?_⟩
  have hselect : policy.2 = selectBy policy.1 := by
    simp only [List.mem_cons, List.not_mem_nil, or_false] at hpolicy
    rcases hpolicy with rfl | rfl <;> rfl
  obtain ⟨front, rest, hmin⟩ := selectBy_minimal policy.1 candidates sizeToFreeBytes
  refine ⟨front, rest, ?_, hmin.all hpos⟩
  rw [hselect]
  exact hmin

def usedAt (time : Rat) : Metadata := Dict.ofEntries [("size_mb", 50), ("last_access_time", time)]

def threeCandidates : List (String × Metadata) :=
  [("id_old", usedAt 1000), ("id_mid", usedAt 2000), ("id_new", usedAt 3000)]

def cacheOf (sizeMb lastAccessTime : FloatRepr) : CacheMeta :=
  ⟨"", [7], sizeMb, 81, 0, lastAccessTime, defaultCacheType⟩

def twoCaches : LocalCacheMetadataManager :=
  ⟨∅, Dict.ofEntries [("a", cacheOf ⟨"50.0".toList, by decide⟩ ⟨"2e+3".toList, by decide⟩),
    ("b", cacheOf ⟨"12.5".toList, by decide⟩ ⟨"1000.0".toList, by decide⟩)], false, false, ∅⟩

theorem eviction_minimal_three :
    LRUEviction.selectVictims threeCandidates (60 * 1024 * 1024) = ["id_old", "id_mid"] ∧
    (twoCaches.planEviction (exactOps exactValue) 30 80).map Prod.fst = ["b"] ∧
    (∃ rest, MinimalPlan exactValue twoCaches 30 80 (twoCaches.planEviction (exactOps exactValue) 30 80) rest) ∧
    ∃ front rest, MinimalVictims "last_access_time" threeCandidates (60 * 1024 * 1024)
      (LRUEviction.selectVictims threeCandidates (60 * 1024 * 1024)) front rest := by
  have hpos : ∀ c ∈ threeCandidates, 0 ≤ field "size_mb" c.2 := by decide +kernel
  have hmin := eviction_minimal exactValue twoCaches 30 80 threeCandidates (60 * 1024 * 1024) hpos
  obtain ⟨front, rest, hlru, _⟩ := hmin.2 _ List.mem_cons_self
  exact ⟨by decide +kernel, by decide +kernel, hmin.1, front, rest, hlru⟩

end Policies

end CacheSeek.Proofs.EvictionPlan
