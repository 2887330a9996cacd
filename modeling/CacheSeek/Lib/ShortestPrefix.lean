import Mathlib.Algebra.BigOperators.Group.List.Basic
import Mathlib.Algebra.Order.BigOperators.Group.List
import Mathlib.Algebra.Order.Monoid.Defs
import Mathlib.Data.List.Sort
import Mathlib.Order.Defs.LinearOrder

namespace CacheSeek.Lib

variable {α κ M : Type}

/-- `ordered` holds the members of `all` by ascending key, those with equal keys in their old order. -/
structure StableOrder [LE κ] (key : α → κ) (all ordered : List α) : Prop where
  perm : ordered.Perm all
  sorted : ordered.Pairwise fun a b => key a ≤ key b
  stable : ∀ a b, [a, b].Sublist all → key a ≤ key b → [a, b].Sublist ordered

theorem stableOrder_insertionSort [LinearOrder κ] (key : α → κ) (r : α → α → Prop) [DecidableRel r]
    (hr : ∀ a b, r a b ↔ key a ≤ key b) (all : List α) : StableOrder key all (all.insertionSort r) := by
  have : Std.Total r := ⟨fun a b => by
    rw [hr, hr]
    exact le_total (key a) (key b)⟩
  have : IsTrans α r := ⟨fun a b c hab hbc => by
    rw [hr] at hab hbc ⊢
    exact le_trans hab hbc⟩
  refine ⟨List.perm_insertionSort r all, ?_, ?_⟩
  · exact (List.pairwise_insertionSort r all).imp fun h => (hr _ _).mp h
  · intro a b hab hkey
    exact List.pair_sublist_insertionSort ((hr a b).mpr hkey) hab

/-- The items up to the one with which the sum of the weights reaches the goal. -/
def takeReaching [Add M] [LE M] [DecidableLE M] (weight : α → M) (goal : M) : M → List α → List α
  | _, [] => []
  | sum, x :: xs => x :: if goal ≤ sum + weight x then [] else takeReaching weight goal (sum + weight x) xs

/-- `front` is the shortest prefix of `front ++ rest` that reaches the goal, or all of it where none does. -/
structure ShortestPrefix [AddMonoid M] [LinearOrder M] (weight : α → M) (goal : M) (front rest : List α) : Prop where
  reaches : goal ≤ (front.map weight).sum ∨ rest = []
  minimal : ∀ p, p <+: front → p ≠ front → (p.map weight).sum < goal

section Reaching
variable [AddMonoid M] [LinearOrder M]

theorem takeReaching_split (weight : α → M) (goal sum : M) (items : List α) (hsum : sum < goal) :
    ∃ rest, items = takeReaching weight goal sum items ++ rest ∧
      (goal ≤ sum + ((takeReaching weight goal sum items).map weight).sum ∨ rest = []) ∧
      ∀ p, p <+: takeReaching weight goal sum items → p ≠ takeReaching weight goal sum items →
        sum + (p.map weight).sum < goal := by
  induction items generalizing sum with
  | nil =>
    refine ⟨[], rfl, Or.inr rfl, fun p hp hne => absurd ?_ hne⟩
    exact List.prefix_nil.mp hp
  | cons x xs ih =>
    simp only [takeReaching]
    split
    · rename_i hgoal
      refine ⟨xs, rfl, Or.inl (by simpa using hgoal), fun p hp hne => ?_⟩
      rcases List.prefix_cons_iff.mp hp with rfl | ⟨t, rfl, ht⟩
      · simpa using hsum
      · rw [List.prefix_nil.mp ht] at hne
        exact absurd rfl hne
    · rename_i hgoal
      obtain ⟨rest, hitems, hreach, hmin⟩ := ih (sum + weight x) (not_le.mp hgoal)
      refine ⟨rest, ?_, ?_, fun p hp hne => ?_⟩
      · rw [List.cons_append, ← hitems]
      · rw [List.map_cons, List.sum_cons, ← add_assoc]
        exact hreach
      · rcases List.prefix_cons_iff.mp hp with rfl | ⟨t, rfl, ht⟩
        · simpa using hsum
        · rw [List.map_cons, List.sum_cons, ← add_assoc]
          exact hmin t ht fun h => hne (by rw [h])

/-- The loop finds the shortest prefix when the goal is not reached at once. -/
theorem takeReaching_shortest (weight : α → M) {goal : M} (items : List α) (hgoal : 0 < goal) :
    ∃ rest, items = takeReaching weight goal 0 items ++ rest ∧
      ShortestPrefix weight goal (takeReaching weight goal 0 items) rest := by
  obtain ⟨rest, hitems, hreach, hmin⟩ := takeReaching_split weight goal 0 items hgoal
  simp only [zero_add] at hreach hmin
  exact ⟨rest, hitems, hreach, hmin⟩

/-- Without negative weights all items are taken where all together fall short. -/
theorem ShortestPrefix.rest_nil [AddLeftMono M] {weight : α → M} {goal : M} {front rest : List α}
    (h : ShortestPrefix weight goal front rest)
    (hpos : ∀ x ∈ rest, 0 ≤ weight x) (hshort : ((front ++ rest).map weight).sum < goal) : rest = [] := by
  refine h.reaches.resolve_left fun hreach => ?_
  rw [List.map_append, List.sum_append] at hshort
  have hrest : 0 ≤ (rest.map weight).sum := List.sum_nonneg (by
    intro w hw
    obtain ⟨x, hx, rfl⟩ := List.mem_map.mp hw
    exact hpos x hx)
  have := le_add_of_le_of_nonneg hreach hrest
  exact absurd hshort (not_lt.mpr this)

end Reaching

/-- Over a stable order no item left out has a smaller key than one taken. -/
theorem StableOrder.front_le [LE κ] {key : α → κ} {all front rest : List α}
    (h : StableOrder key all (front ++ rest)) : ∀ a ∈ front, ∀ b ∈ rest, key a ≤ key b :=
  (List.pairwise_append.mp h.sorted).2.2

end CacheSeek.Lib
