import CacheSeek.Proofs.LookupDecision

namespace CacheSeek.Proofs.Staircase
open CacheSeek.Lib CacheSeek.Approximate CacheSeek.Proofs.LookupDecision

variable {cfg : CacheConfig} {savedSteps : List Int} {s t : Score}

def Reaches (cfg : CacheConfig) (s : Score) : Prop :=
  ∃ (K : Int) (tau : Rat), (K, tau) ∈ cfg.skipStepTauTable ∧ (tau : Score) ≤ s

theorem Reaches.mono (h : Reaches cfg s) (hst : s ≤ t) : Reaches cfg t := by
  obtain ⟨K, tau, hmem, htau⟩ := h
  exact ⟨K, tau, hmem, Score.le_trans htau hst⟩

/-- A score that opens a tier has a deepest one. -/
theorem Reaches.tier (hstair : cfg.staircaseSkipEnabled = true) (h : Reaches cfg s) :
    ∃ K, cfg.selectKByScore s = some K ∧ Tier cfg s K := by
  obtain ⟨K, tau, hmem, htau⟩ := h
  cases hsel : cfg.selectKByScore s with
  | some K' => exact ⟨K', rfl, ((selectKByScore_eq s K').mp hsel).2⟩
  | none =>
    have hempty : cfg.skipStepTauTable.isEmpty = false := by
      cases htable : cfg.skipStepTauTable with
      | nil =>
        rw [htable] at hmem
        cases hmem
      | cons e table => rfl
    simp only [CacheConfig.selectKByScore, hstair, hempty, Bool.not_true, Bool.false_eq_true, if_false,
      List.max?_eq_none_iff, List.map_eq_nil_iff, List.filter_eq_nil_iff, decide_eq_true_eq] at hsel
    exact absurd htau (hsel (K, tau) hmem)

theorem select_of_not_reaches (h : ¬ Reaches cfg s) : cfg.selectKByScore s = none := by
  cases hsel : cfg.selectKByScore s with
  | none => rfl
  | some K =>
    obtain ⟨tau, hmem, htau⟩ := ((selectKByScore_eq s K).mp hsel).2.1
    exact absurd ⟨K, tau, hmem, htau⟩ h

theorem tier_mono (hst : s ≤ t) {K K' : Int} (h : Tier cfg s K) (h' : Tier cfg t K') : K ≤ K' := by
  obtain ⟨tau, hmem, htau⟩ := h.1
  exact h'.2 ⟨tau, hmem, Score.le_trans htau hst⟩

/-- The step is the least bound of 0 and the saved steps within the cap. -/
theorem determineSkipStep_le_iff (score : Option Score) (n : Int) :
    cfg.determineSkipStep savedSteps score ≤ n ↔
      0 ≤ n ∧ ∀ k ∈ savedSteps, 0 < k → k ≤ cfg.stepCap score → k ≤ n := by
  have hmem : ∀ k, k ∈ savedSteps.filter (fun k => 0 < k ∧ k ≤ cfg.stepCap score) ↔
      k ∈ savedSteps ∧ 0 < k ∧ k ≤ cfg.stepCap score := by simp [List.mem_filter]
  have hmax : ((savedSteps.filter fun k => 0 < k ∧ k ≤ cfg.stepCap score).max?).getD 0 ≤ n ↔
      0 ≤ n ∧ ∀ k ∈ savedSteps, 0 < k → k ≤ cfg.stepCap score → k ≤ n := by
    cases hm : (savedSteps.filter fun k => 0 < k ∧ k ≤ cfg.stepCap score).max? with
    | none =>
      rw [List.max?_eq_none_iff] at hm
      refine ⟨fun hn => ⟨hn, fun k hk hpos hcap => ?_⟩, fun h => h.1⟩
      have := (hmem k).mpr ⟨hk, hpos, hcap⟩
      rw [hm] at this
      cases this
    | some m =>
      obtain ⟨hin, hle⟩ := List.max?_eq_some_iff.mp hm
      obtain ⟨hk, hpos, hcap⟩ := (hmem m).mp hin
      constructor
      · intro hn
        refine ⟨le_trans hpos.le hn, fun k hk hpos hcap => ?_⟩
        exact le_trans (hle k ((hmem k).mpr ⟨hk, hpos, hcap⟩)) hn
      · intro h
        exact h.2 m hk hpos hcap
  unfold CacheConfig.determineSkipStep
  split
  · rename_i hempty
    rw [List.isEmpty_iff.mp hempty]
    simp
  · exact hmax

theorem determineSkipStep_cap_mono {score score' : Option Score} (h : cfg.stepCap score ≤ cfg.stepCap score') :
    cfg.determineSkipStep savedSteps score ≤ cfg.determineSkipStep savedSteps score' := by
  obtain ⟨hpos, hall⟩ := (@determineSkipStep_le_iff cfg savedSteps score' _).mp (le_refl _)
  refine (determineSkipStep_le_iff score _).mpr ⟨hpos, fun k hk hk0 hcap => ?_⟩
  exact hall k hk hk0 (le_trans hcap h)

theorem stepCap_of_reaches (hstair : cfg.staircaseSkipEnabled = true) (h : Reaches cfg s) :
    ∃ K, Tier cfg s K ∧ cfg.stepCap (some s) = min cfg.skipCap K := by
  obtain ⟨K, hsel, htier⟩ := h.tier hstair
  exact ⟨K, htier, by rw [CacheConfig.stepCap, hsel]⟩

theorem stepCap_of_not_reaches (h : ¬ Reaches cfg s) : cfg.stepCap (some s) = cfg.stepCap none := by
  simp only [CacheConfig.stepCap, select_of_not_reaches h]

/-- No score takes the cap above the flat one. -/
theorem stepCap_le_flat (s : Score) : cfg.stepCap (some s) ≤ cfg.stepCap none := by
  simp only [CacheConfig.stepCap]
  split
  · exact le_refl _
  · exact min_le_left _ _

/-- A higher score gets no smaller step, but from below every tier into one that is
less deep than a saved step within the flat cap; below every tier the flat cap applies. -/
theorem skip_monotone_iff (cfg : CacheConfig) (hstair : cfg.staircaseSkipEnabled = true) (savedSteps : List Int)
    {s t : Score} (hst : s ≤ t) :
    (cfg.determineSkipStep savedSteps (some s) ≤ cfg.determineSkipStep savedSteps (some t) ↔
      Reaches cfg s ∨ ¬ Reaches cfg t ∨
        ∀ K, Tier cfg t K → ∀ k ∈ savedSteps, 0 < k → k ≤ cfg.skipCap → k ≤ K) ∧
    (¬ Reaches cfg s → cfg.determineSkipStep savedSteps (some s) = cfg.determineSkipStep savedSteps none) ∧
    cfg.determineSkipStep savedSteps (some s) ≤ cfg.determineSkipStep savedSteps none := by
  refine ⟨?_, ?_, determineSkipStep_cap_mono (stepCap_le_flat s)⟩
  · by_cases hs : Reaches cfg s
    · obtain ⟨K, htier, hcap⟩ := stepCap_of_reaches hstair hs
      obtain ⟨K', htier', hcap'⟩ := stepCap_of_reaches hstair (hs.mono hst)
      refine iff_of_true ?_ (Or.inl hs)
      apply determineSkipStep_cap_mono
      rw [hcap, hcap']
      exact min_le_min_left _ (tier_mono hst htier htier')
    by_cases ht : Reaches cfg t
    · obtain ⟨K, htier, hcap⟩ := stepCap_of_reaches hstair ht
      rw [or_iff_right hs, or_iff_right (not_not_intro ht)]
      obtain ⟨hpos, hall⟩ := (@determineSkipStep_le_iff cfg savedSteps (some t) _).mp (le_refl _)
      rw [hcap] at hall
      constructor
      · intro hle K' htier' k hk hk0 hkcap
        rw [htier'.unique htier]
        have hkt : k ≤ cfg.determineSkipStep savedSteps (some t) := by
          refine ((determineSkipStep_le_iff (some s) _).mp hle).2 k hk hk0 ?_
          rw [stepCap_of_not_reaches hs]
          exact hkcap
        have htK : cfg.determineSkipStep savedSteps (some t) ≤ max 0 K := by
          refine (determineSkipStep_le_iff (some t) _).mpr ⟨le_max_left 0 K, fun j _ _ hj => ?_⟩
          rw [hcap] at hj
          exact le_trans hj (le_trans (min_le_right _ _) (le_max_right 0 K))
        rcases le_max_iff.mp (le_trans hkt htK) with h | h
        · omega
        · exact h
      · intro h
        refine (determineSkipStep_le_iff (some s) _).mpr ⟨hpos, fun k hk hk0 hkcap => ?_⟩
        rw [stepCap_of_not_reaches hs] at hkcap
        exact hall k hk hk0 (le_min hkcap (h K htier k hk hk0 hkcap))
    · refine iff_of_true ?_ (Or.inr (Or.inl ht))
      apply determineSkipStep_cap_mono
      rw [stepCap_of_not_reaches hs, stepCap_of_not_reaches ht]
  · intro hs
    have hcap := stepCap_of_not_reaches hs
    exact le_antisymm (determineSkipStep_cap_mono hcap.le) (determineSkipStep_cap_mono hcap.ge)

def staircase : CacheConfig := { staircaseSkipEnabled := true, maxSkipStep := 14 }

/-- Below every tier the donor is reused deeper than in the first one. -/
theorem low_score_skips_deeper :
    staircase.determineSkipStep [3, 7, 11, 14] (some ((1 / 2 : Rat) : Score)) = 14 ∧
    staircase.determineSkipStep [3, 7, 11, 14] (some ((7 / 10 : Rat) : Score)) = 3 ∧
    ¬ ∀ s t : Rat, s ≤ t → staircase.determineSkipStep [3, 7, 11, 14] (some (s : Score)) ≤
      staircase.determineSkipStep [3, 7, 11, 14] (some (t : Score)) := by
  have hlow : staircase.determineSkipStep [3, 7, 11, 14] (some ((1 / 2 : Rat) : Score)) = 14 := by decide +kernel
  have hmid : staircase.determineSkipStep [3, 7, 11, 14] (some ((7 / 10 : Rat) : Score)) = 3 := by decide +kernel
  refine ⟨hlow, hmid, fun h => ?_⟩
  have hle := h (1 / 2) (7 / 10) (by decide +kernel)
  rw [hlow, hmid] at hle
  exact absurd hle (by decide)

theorem skip_monotone_iff_default :
    staircase.determineSkipStep [3, 7, 11, 14] (some ((7 / 10 : Rat) : Score)) ≤
      staircase.determineSkipStep [3, 7, 11, 14] (some ((9 / 10 : Rat) : Score)) :=
  (skip_monotone_iff staircase rfl [3, 7, 11, 14] (by decide +kernel)).1.mpr
    (Or.inl ⟨3, 63 / 100, by decide +kernel, by decide +kernel⟩)

end CacheSeek.Proofs.Staircase
