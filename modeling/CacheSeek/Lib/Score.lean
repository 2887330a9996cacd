import CacheSeek.Lib.FirstMax
import Mathlib.Algebra.Order.Ring.Rat
import Mathlib.Order.WithBot

namespace CacheSeek.Lib

/-- A float as comparisons see it. -/
inductive Score where
  | num (x : WithBot (WithTop Rat))
  | nan
  deriving DecidableEq

namespace Score

instance : Coe Rat Score := ⟨fun q => num (WithBot.some (WithTop.some q))⟩

-- no comparison with a NaN holds
instance : LT Score where
  lt
    | num x, num y => x < y
    | _, _ => False

instance : LE Score where
  le
    | num x, num y => x ≤ y
    | _, _ => False

instance : DecidableRel (LT.lt : Score → Score → Prop)
  | num x, num y => inferInstanceAs (Decidable (x < y))
  | num _, nan => .isFalse id
  | nan, _ => .isFalse id

instance : DecidableRel (LE.le : Score → Score → Prop)
  | num x, num y => inferInstanceAs (Decidable (x ≤ y))
  | num _, nan => .isFalse id
  | nan, _ => .isFalse id

/-- The place of a score in the order of all; a NaN is below the numbers. -/
def rank : Score → WithBot (WithBot (WithTop Rat))
  | num x => WithBot.some x
  | nan => ⊥

variable {a b c : Score}

theorem lt_iff_rank (ha : a ≠ nan) : a < b ↔ a.rank < b.rank := by
  cases a with
  | nan => exact absurd rfl ha
  | num x =>
    cases b with
    | nan => exact iff_of_false id (WithBot.not_lt_bot _)
    | num y =>
      change x < y ↔ (WithBot.some x) < WithBot.some y
      exact WithBot.coe_lt_coe.symm

theorem le_iff_rank : a ≤ b ↔ a ≠ nan ∧ a.rank ≤ b.rank := by
  cases a with
  | nan => exact iff_of_false id fun h => h.1 rfl
  | num x =>
    rw [and_iff_right fun h => nomatch h]
    cases b with
    | nan => exact iff_of_false id (WithBot.not_coe_le_bot x)
    | num y =>
      change x ≤ y ↔ (WithBot.some x) ≤ WithBot.some y
      exact WithBot.coe_le_coe.symm

theorem not_nan_lt : ¬ nan < a := id

theorem ne_nan_of_le (h : a ≤ b) : b ≠ nan := by
  rintro rfl
  cases a <;> exact h

theorem not_lt_iff (ha : a ≠ nan) (hb : b ≠ nan) : ¬ a < b ↔ b ≤ a := by
  rw [lt_iff_rank ha, le_iff_rank, not_lt, and_iff_right hb]

theorem le_trans (h : a ≤ b) (h' : b ≤ c) : a ≤ c := by
  rw [le_iff_rank] at h h' ⊢
  exact ⟨h.1, h.2.trans h'.2⟩

theorem not_le_of_lt (h : a < b) : ¬ b ≤ a := by
  have ha : a ≠ nan := by
    rintro rfl
    exact h
  rw [lt_iff_rank ha] at h
  exact fun hle => absurd (le_iff_rank.mp hle).2 (not_le_of_gt h)

theorem coe_ne_nan (q : Rat) : (q : Score) ≠ nan := fun h => nomatch h

end Score

/-- The arguments of `max(..., key=...)` so far, and the next: the first of the largest stays. -/
def keepMax {α : Type} (key : α → Score) (best x : α) : α := if key best < key x then x else best

section
variable {α : Type} {key : α → Score}

/-- A NaN in front is kept. -/
theorem foldl_keepMax_nan {best : α} (hbest : key best = .nan) (l : List α) : l.foldl (keepMax key) best = best := by
  induction l with
  | nil => rfl
  | cons x l ih =>
    rw [List.foldl_cons, keepMax, hbest, if_neg Score.not_nan_lt]
    exact ih

/-- Behind a number the NaNs are passed over. -/
theorem foldl_keepMax {best : α} (hbest : key best ≠ .nan) (l : List α) :
    FirstMax (fun x => (key x).rank) (best :: l) (l.foldl (keepMax key) best) ∧
      key (l.foldl (keepMax key) best) ≠ .nan := by
  have hfold : l.foldl (keepMax key) best =
      l.foldl (fun b x => if (key b).rank < (key x).rank then x else b) best ∧
      key (l.foldl (keepMax key) best) ≠ .nan := by
    induction l generalizing best with
    | nil => exact ⟨rfl, hbest⟩
    | cons x l ih =>
      have hstep : keepMax key best x = if (key best).rank < (key x).rank then x else best := by
        unfold keepMax
        simp only [Score.lt_iff_rank hbest]
      have hnext : key (keepMax key best x) ≠ .nan := by
        unfold keepMax
        split
        · rename_i hlt
          rintro hx
          rw [Score.lt_iff_rank hbest, hx] at hlt
          exact absurd hlt (WithBot.not_lt_bot _)
        · exact hbest
      rw [List.foldl_cons, List.foldl_cons, ← hstep]
      exact ih hnext
  refine ⟨?_, hfold.2⟩
  rw [hfold.1]
  exact foldl_firstMax _ best l

theorem foldl_keepMax_mem (key : α → Score) (best : α) (l : List α) : l.foldl (keepMax key) best ∈ best :: l := by
  induction l generalizing best with
  | nil => exact List.mem_singleton_self best
  | cons x l ih =>
    rw [List.foldl_cons]
    rcases List.mem_cons.mp (ih (keepMax key best x)) with h | h
    · rw [h]
      unfold keepMax
      split
      · exact List.mem_cons_of_mem _ List.mem_cons_self
      · exact List.mem_cons_self
    · exact List.mem_cons_of_mem _ (List.mem_cons_of_mem _ h)

end

end CacheSeek.Lib
