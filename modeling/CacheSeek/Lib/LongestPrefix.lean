import Mathlib.Order.Bounds.Basic

namespace CacheSeek.Lib

variable {α : Type}

/-- How far `xs` can be followed past `pre` while every prefix reached satisfies `p`. -/
def longestFrom (p : List α → Bool) (pre : List α) : List α → Nat
  | [] => 0
  | x :: xs => if p (pre ++ [x]) then longestFrom p (pre ++ [x]) xs + 1 else 0

/-- The longest run of nonempty prefixes of `xs` that all satisfy `p`. -/
def longest (p : List α → Bool) (xs : List α) : Nat := longestFrom p [] xs

theorem longestFrom_le (p : List α → Bool) (pre xs : List α) :
    longestFrom p pre xs ≤ xs.length := by
  induction xs generalizing pre with
  | nil => exact Nat.le_refl 0
  | cons x xs ih =>
    simp only [longestFrom, List.length_cons]
    split
    · exact Nat.succ_le_succ (ih _)
    · exact Nat.zero_le _

/-- Following to length `k` is possible exactly when the `k` prefixes on the way qualify. -/
theorem le_longestFrom_iff (p : List α → Bool) (pre xs : List α) (k : Nat) (hk : k ≤ xs.length) :
    k ≤ longestFrom p pre xs ↔ ∀ j, 1 ≤ j → j ≤ k → p (pre ++ xs.take j) = true := by
  induction xs generalizing pre k with
  | nil =>
    have h0 : k = 0 := Nat.le_zero.mp hk
    subst k
    constructor
    · intro _ j h1 h2
      omega
    · intro _
      exact Nat.zero_le _
  | cons x xs ih =>
    cases k with
    | zero =>
      constructor
      · intro _ j h1 h2
        omega
      · intro _
        exact Nat.zero_le _
    | succ k =>
      have hk' : k ≤ xs.length := by simpa using hk
      simp only [longestFrom]
      by_cases hp : p (pre ++ [x]) = true
      · rw [if_pos hp, Nat.succ_le_succ_iff, ih (pre ++ [x]) k hk']
        constructor
        · intro h j h1 h2
          cases j with
          | zero => omega
          | succ j =>
            cases j with
            | zero => simpa using hp
            | succ j => simpa using h (j + 1) (by omega) (by omega)
        · intro h j h1 h2
          simpa using h (j + 1) (by omega) (by omega)
      · rw [if_neg hp]
        constructor
        · intro h
          omega
        · intro h
          exact False.elim (hp (by simpa using h 1 (Nat.le_refl 1) (by omega)))

theorem longest_le (p : List α → Bool) (xs : List α) : longest p xs ≤ xs.length :=
  longestFrom_le p [] xs

theorem le_longest_iff (p : List α → Bool) (xs : List α) (k : Nat) (hk : k ≤ xs.length) :
    k ≤ longest p xs ↔ ∀ j, 1 ≤ j → j ≤ k → p (xs.take j) = true := by
  unfold longest
  simpa using le_longestFrom_iff p [] xs k hk

/-- Every nonempty prefix up to the longest match qualifies. -/
theorem longest_holds (p : List α → Bool) (xs : List α) {j : Nat} (h1 : 1 ≤ j)
    (h2 : j ≤ longest p xs) : p (xs.take j) = true :=
  (le_longest_iff p xs _ (longest_le p xs)).mp (Nat.le_refl _) j h1 h2

/-- The longest match is the largest length all of whose prefixes qualify. -/
theorem longest_isGreatest (p : List α → Bool) (xs : List α) :
    IsGreatest {k | k ≤ xs.length ∧ ∀ j, 1 ≤ j → j ≤ k → p (xs.take j) = true} (longest p xs) :=
  ⟨⟨longest_le p xs, fun _ h1 h2 => longest_holds p xs h1 h2⟩,
    fun k hk => (le_longest_iff p xs k hk.1).mpr hk.2⟩

/-- Qualifying more prefixes of `xs` only lengthens its match. -/
theorem longest_mono {p q : List α → Bool} {xs : List α}
    (h : ∀ j, 1 ≤ j → j ≤ longest p xs → p (xs.take j) = true → q (xs.take j) = true) :
    longest p xs ≤ longest q xs :=
  (le_longest_iff q xs _ (longest_le p xs)).mpr fun j h1 h2 =>
    h j h1 h2 (longest_holds p xs h1 h2)

/-- Only the prefixes of `xs` matter for its match. -/
theorem longest_congr {p q : List α → Bool} {xs : List α}
    (h : ∀ j, 1 ≤ j → j ≤ xs.length → p (xs.take j) = q (xs.take j)) :
    longest p xs = longest q xs :=
  Nat.le_antisymm
    (longest_mono fun j h1 h2 hp => by
      rw [← h j h1 (Nat.le_trans h2 (longest_le p xs))]; exact hp)
    (longest_mono fun j h1 h2 hq => by
      rw [h j h1 (Nat.le_trans h2 (longest_le q xs))]; exact hq)

/-- A whole list matches when all its nonempty prefixes qualify. -/
theorem longest_eq_length_iff (p : List α → Bool) (xs : List α) :
    longest p xs = xs.length ↔ ∀ j, 1 ≤ j → j ≤ xs.length → p (xs.take j) = true := by
  rw [← le_longest_iff p xs xs.length (Nat.le_refl _)]
  constructor
  · intro h
    rw [h]
  · exact Nat.le_antisymm (longest_le p xs)

end CacheSeek.Lib
