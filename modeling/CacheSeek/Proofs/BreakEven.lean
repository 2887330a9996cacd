import CacheSeek.Prefix.Calibration
import Mathlib.Algebra.Order.Ring.Rat
import Mathlib.Tactic.Linarith

namespace CacheSeek.Proofs.BreakEven
open CacheSeek.Lib CacheSeek.Prefix

section
variable {cfg : WorldKVConfig} {f : NamespaceForest} {root : Bytes} {actions : List ActionKey} {ns : Namespace}
  {n : NodeId} {K : Nat}

theorem admits_iff : cfg.Admits K ↔ ¬ (K = 0 ∨ (K : Int) < cfg.breakEvenK) := by
  rw [WorldKVConfig.Admits, not_or, not_lt]

theorem exactLookup_matched (hm : f.lookup root actions = ⟨some ns, some n, K⟩) :
    (∃ node ns', exactLookup cfg f ⟨some root, some actions⟩ = .fastForward K node ns') ↔ cfg.Admits K := by
  simp only [exactLookup, hm, admits_iff]
  split
  · simp [*]
  · split
    · simp [*]
    · simp [*]

theorem tryFastForward_matched {σ ω P L : Type} (S : KVTierStore σ P L) (W : RollingWindow ω P) (now : Rat) (s : σ)
    (w : ω) (hm : f.lookup root actions = ⟨some ns, some n, K⟩) :
    tryFastForward S W cfg now f s root actions w =
      if cfg.Admits K then pastGate S W cfg now f s ns n K w
      else (.ok ⟨0, some ns.root, some ns⟩, f, s, w) := by
  simp only [tryFastForward, hm]
  by_cases hgate : K = 0 ∨ (K : Int) < cfg.breakEvenK
  · rw [if_pos hgate, if_neg fun h => admits_iff.mp h hgate]
  · rw [if_neg hgate, if_pos (admits_iff.mpr hgate)]
    rfl

end

section
variable {F R fixed : Rat} {W : Int} {k k' : Nat}

theorem paysOff_within (hk : (k : Int) ≤ W) : PaysOff F R fixed W k ↔ fixed < k * (R - F) := by
  rw [PaysOff, min_eq_left hk, Int.cast_natCast, mul_sub, lt_sub_iff_add_lt]

theorem paysOff_beyond (hk : W ≤ k) : PaysOff F R fixed W k ↔ fixed + W * F < k * R := by
  rw [PaysOff, min_eq_right hk]

/-- Within the window each further chunk gains `R - F`, beyond it `R`. -/
theorem paysOff_mono (hR : 0 ≤ R) (hfixed : 0 ≤ fixed) (h : PaysOff F R fixed W k) (hle : k ≤ k') :
    PaysOff F R fixed W k' := by
  have hkk : (k : Rat) ≤ k' := Nat.cast_le.mpr hle
  rcases le_total (k : Int) W with hk | hk
  · rw [paysOff_within hk] at h
    have hgain : 0 < R - F := by
      refine pos_of_mul_pos_right ?_ (Nat.cast_nonneg k)
      exact lt_of_le_of_lt hfixed h
    rcases le_total (k' : Int) W with hk' | hk'
    · rw [paysOff_within hk']
      exact lt_of_lt_of_le h (mul_le_mul_of_nonneg_right hkk hgain.le)
    · -- up to `W` it gains as within the window
      have hkW : (k : Rat) ≤ W := by exact_mod_cast hk
      have hWk' : (W : Rat) ≤ k' := by exact_mod_cast hk'
      have hWindow : fixed < W * (R - F) := lt_of_lt_of_le h (mul_le_mul_of_nonneg_right hkW hgain.le)
      have hrest : W * R ≤ k' * R := mul_le_mul_of_nonneg_right hWk' hR
      rw [paysOff_beyond hk']
      linarith
  · rw [paysOff_beyond (le_trans hk (by exact_mod_cast hle))]
    rw [paysOff_beyond hk] at h
    exact lt_of_lt_of_le h (mul_le_mul_of_nonneg_right hkk hR)

/-- Up to `max_k` the calibrated bound tells what pays off; beyond it everything passes. -/
theorem calibrate_le_iff (hR : 0 ≤ R) (hfixed : 0 ≤ fixed) (maxK : Nat) (hk : 1 ≤ k) :
    calibrateBreakEvenK F R W fixed maxK ≤ k ↔ maxK < k ∨ PaysOff F R fixed W k := by
  unfold calibrateBreakEvenK
  cases hfind : (List.range' 1 maxK).find? fun k => decide (PaysOff F R fixed W k) with
  | none =>
    rw [List.find?_range'_eq_none] at hfind
    dsimp only
    constructor
    · intro h
      exact Or.inl (by omega)
    · rintro (h | h)
      · omega
      · by_contra hlt
        have := hfind k hk (by omega)
        simp [h] at this
  | some k₀ =>
    obtain ⟨hpays, hmem, hleast⟩ := List.find?_range'_eq_some.mp hfind
    rw [decide_eq_true_eq] at hpays
    obtain ⟨h1, hmax⟩ := List.mem_range'_1.mp hmem
    dsimp only
    rw [Nat.cast_le]
    constructor
    · intro hle
      exact Or.inr (paysOff_mono hR hfixed hpays hle)
    · rintro (h | h)
      · omega
      · by_contra hlt
        have := hleast k hk (by omega)
        simp [h] at this

end

/-- Both gates let a match through as it pays off, but that lengths above 256 always pass. -/
theorem gate_admits_profitable_iff {F R fixed : Rat} {W : Int} (hR : 0 ≤ R) (hfixed : 0 ≤ fixed)
    {cfg : WorldKVConfig} (hcfg : cfg.breakEvenK = calibrateBreakEvenK F R W fixed) {f : NamespaceForest}
    {root : Bytes} {actions : List ActionKey} {ns : Namespace} {n : NodeId} {K : Nat}
    (hm : f.lookup root actions = ⟨some ns, some n, K⟩) (hK : 1 ≤ K) :
    (((∃ node ns', exactLookup cfg f ⟨some root, some actions⟩ = .fastForward K node ns') ↔
      PaysOff F R fixed W K) ↔ K ≤ 256 ∨ PaysOff F R fixed W K) ∧
    ((cfg.Admits K ↔ PaysOff F R fixed W K) ↔ K ≤ 256 ∨ PaysOff F R fixed W K) ∧
    ∀ {σ ω P L : Type} (S : KVTierStore σ P L) (window : RollingWindow ω P) (now : Rat) (s : σ) (w : ω),
      tryFastForward S window cfg now f s root actions w =
        if cfg.Admits K then pastGate S window cfg now f s ns n K w
        else (.ok ⟨0, some ns.root, some ns⟩, f, s, w) := by
  have hadmits : cfg.Admits K ↔ 256 < K ∨ PaysOff F R fixed W K := by
    rw [WorldKVConfig.Admits, hcfg, calibrate_le_iff hR hfixed 256 hK]
    exact and_iff_right (Nat.ne_of_gt hK)
  have hexact : (cfg.Admits K ↔ PaysOff F R fixed W K) ↔ K ≤ 256 ∨ PaysOff F R fixed W K := by
    rw [hadmits, or_iff_right_iff_imp, ← not_lt, ← imp_iff_not_or]
  refine ⟨?_, hexact, fun S window now s w => tryFastForward_matched S window now s w hm⟩
  rw [exactLookup_matched hm]
  exact hexact

/-- One world whose chunks all have the action 0, `count` of them published. -/
def straightForest (count : Nat) : NamespaceForest where
  namespaces := (∅ : Dict Bytes Namespace).set [1] ⟨[1], [1], 0, false⟩
  nodes := ⟨count + 1, fun i =>
    { nodeKey := List.replicate (i + 1) 1
      action := if i = 0 then .int (-1) else .int 0
      depth := (i : Int) - 1
      parent := if i = 0 then none else some (i - 1)
      children := if i < count then (∅ : Dict ActionKey NodeId).set (.int 0) (i + 1) else ∅
      blob := if i = 0 then none else some (i - 1) }⟩
  handles := ⟨count, fun _ => ⟨.cpu, "", 0, 1, true⟩⟩

def calibrated (F R : Rat) (W : Int) : WorldKVConfig := ⟨W, 0, calibrateBreakEvenK F R W 0, .cpu⟩

/-- Where nothing is gained, 257 chunks pass. -/
theorem unprofitable_length_admitted :
    (straightForest 257).lookup [1] (List.replicate 257 (.int 0)) = ⟨some ⟨[1], [1], 0, false⟩, some 257, 257⟩ ∧
    exactLookup (calibrated 0 0 1) (straightForest 257) ⟨some [1], some (List.replicate 257 (.int 0))⟩ =
      .fastForward 257 257 ⟨[1], [1], 0, false⟩ ∧
    ∀ k, ¬ PaysOff 0 0 0 1 k := by
  refine ⟨by decide +kernel, by decide +kernel, fun k h => ?_⟩
  simp [PaysOff] at h

theorem gate_admits_profitable_iff_three : ∃ node ns', exactLookup (calibrated 1 2 2) (straightForest 3)
    ⟨some [1], some (List.replicate 3 (.int 0))⟩ = .fastForward 3 node ns' := by
  have hm : (straightForest 3).lookup [1] (List.replicate 3 (.int 0)) =
      ⟨some ⟨[1], [1], 0, false⟩, some 3, 3⟩ := by decide +kernel
  have hpays : PaysOff 1 2 0 2 3 := by decide +kernel
  exact (((gate_admits_profitable_iff (R := 2) (by decide) (le_refl 0) rfl hm (by decide)).1).mpr
    (Or.inl (by decide))).mpr hpays

end CacheSeek.Proofs.BreakEven
