import Mathlib.Data.List.Sort
import Mathlib.Order.Basic

namespace CacheSeek.Lib

variable {α κ : Type} [LinearOrder κ] {key : α → κ}

/-- The first of the elements with the largest key. -/
def FirstMax (key : α → κ) (l : List α) (x : α) : Prop :=
  ∃ i : Nat, l[i]? = some x ∧ (∀ (j : Nat) y, j < i → l[j]? = some y → key y < key x) ∧
    ∀ (j : Nat) y, l[j]? = some y → key y ≤ key x

theorem FirstMax.mem {l : List α} {x : α} (h : FirstMax key l x) : x ∈ l := by
  obtain ⟨i, hi, _⟩ := h
  exact List.mem_of_getElem? hi

theorem FirstMax.unique {l : List α} {x y : α} (hx : FirstMax key l x) (hy : FirstMax key l y) : x = y := by
  obtain ⟨i, hi, hxlt, hxle⟩ := hx
  obtain ⟨j, hj, hylt, hyle⟩ := hy
  rcases Nat.lt_trichotomy i j with hij | hij | hij
  · exact absurd (hylt i x hij hi) (not_lt_of_ge (hxle j y hj))
  · subst hij
    exact Option.some.inj (hi.symm.trans hj)
  · exact absurd (hxlt j y hij hj) (not_lt_of_ge (hyle i x hi))

theorem firstMax_singleton (x : α) : FirstMax key [x] x := by
  refine ⟨0, rfl, ?_, ?_⟩
  · intro j y hj
    exact absurd hj (Nat.not_lt_zero j)
  · intro j y hy
    cases j with
    | zero =>
      cases hy
      exact le_refl _
    | succ j => cases hy

/-- An element in front wins unless the rest has a larger key. -/
theorem FirstMax.cons {l : List α} {x : α} (h : FirstMax key l x) (a : α) :
    FirstMax key (a :: l) (if key a < key x then x else a) := by
  obtain ⟨i, hi, hlt, hle⟩ := h
  split
  · rename_i hax
    refine ⟨i + 1, hi, ?_, ?_⟩
    · intro j y hj hy
      cases j with
      | zero =>
        cases hy
        exact hax
      | succ j => exact hlt j y (by omega) hy
    · intro j y hy
      cases j with
      | zero =>
        cases hy
        exact le_of_lt hax
      | succ j => exact hle j y hy
  · rename_i hax
    refine ⟨0, rfl, fun j y hj => absurd hj (Nat.not_lt_zero j), ?_⟩
    intro j y hy
    cases j with
    | zero =>
      cases hy
      exact le_refl _
    | succ j => exact le_trans (hle j y hy) (not_lt.mp hax)

/-- Keeping the better of two all along the list finds it. -/
theorem foldl_firstMax (key : α → κ) (best : α) (l : List α) :
    FirstMax key (best :: l) (l.foldl (fun b x => if key b < key x then x else b) best) := by
  induction l generalizing best with
  | nil => exact firstMax_singleton best
  | cons x l ih =>
    obtain ⟨i, hi, hlt, hle⟩ := ih (if key best < key x then x else best)
    rw [List.foldl_cons]
    generalize l.foldl _ _ = y at hi hlt hle
    have hhead := hle 0 _ rfl
    by_cases hbx : key best < key x
    · rw [if_pos hbx] at hi hlt hle hhead
      refine ⟨i + 1, hi, ?_, ?_⟩
      · intro j z hj hz
        cases j with
        | zero =>
          cases hz
          exact lt_of_lt_of_le hbx hhead
        | succ j => exact hlt j z (by omega) hz
      · intro j z hz
        cases j with
        | zero =>
          cases hz
          exact le_trans (le_of_lt hbx) hhead
        | succ j => exact hle j z hz
    · rw [if_neg hbx] at hi hlt hle hhead
      have hxb : key x ≤ key best := not_lt.mp hbx
      -- the place of the best is kept, the others move by one
      refine ⟨if i = 0 then 0 else i + 1, ?_, ?_, ?_⟩
      · cases i with
        | zero => exact hi
        | succ i => exact hi
      · intro j z hj hz
        cases i with
        | zero => exact absurd hj (Nat.not_lt_zero j)
        | succ i =>
          have hpos := hlt 0 best (Nat.succ_pos i) rfl
          rw [if_neg (Nat.succ_ne_zero i)] at hj
          cases j with
          | zero =>
            cases hz
            exact hpos
          | succ j =>
            cases j with
            | zero =>
              cases hz
              exact lt_of_le_of_lt hxb hpos
            | succ j => exact hlt (j + 1) z (by omega) hz
      · intro j z hz
        cases j with
        | zero =>
          cases hz
          exact hhead
        | succ j =>
          cases j with
          | zero =>
            cases hz
            exact le_trans hxb hhead
          | succ j => exact hle (j + 1) z hz

/-- A stable sort puts it first. -/
theorem head?_insertionSort (l : List α) (x : α) :
    (l.insertionSort fun a b => key b ≤ key a).head? = some x ↔ FirstMax key l x := by
  have hhead : ∀ l : List α, l ≠ [] →
      ∃ x, (l.insertionSort fun a b => key b ≤ key a).head? = some x ∧ FirstMax key l x := by
    intro l
    induction l with
    | nil => exact fun h => absurd rfl h
    | cons a l ih =>
      intro _
      cases l with
      | nil => exact ⟨a, rfl, firstMax_singleton a⟩
      | cons b l =>
        obtain ⟨y, hy, hmax⟩ := ih (List.cons_ne_nil b l)
        refine ⟨_, ?_, hmax.cons a⟩
        rw [List.insertionSort_cons]
        cases hs : (b :: l).insertionSort fun a b => key b ≤ key a with
        | nil =>
          rw [hs] at hy
          cases hy
        | cons c rest =>
          rw [hs] at hy
          cases hy
          rw [List.orderedInsert]
          split
          · rename_i hle
            rw [if_neg (not_lt_of_ge hle)]
            rfl
          · rename_i hle
            rw [if_pos (not_le.mp hle)]
            rfl
  constructor
  · intro h
    have hne : l ≠ [] := by
      rintro rfl
      cases h
    obtain ⟨y, hy, hmax⟩ := hhead l hne
    rw [h] at hy
    cases hy
    exact hmax
  · intro h
    have hne : l ≠ [] := List.ne_nil_of_mem h.mem
    obtain ⟨y, hy, hmax⟩ := hhead l hne
    rw [hy, hmax.unique h]

/-- What a sort does depends only on how the elements compare. -/
theorem insertionSort_congr {r r' : α → α → Prop} [DecidableRel r] [DecidableRel r'] {l : List α}
    (h : ∀ a ∈ l, ∀ b ∈ l, r a b ↔ r' a b) : l.insertionSort r = l.insertionSort r' := by
  have hins : ∀ (a : α) (l : List α), (∀ b ∈ l, r a b ↔ r' a b) → l.orderedInsert r a = l.orderedInsert r' a := by
    intro a l hl
    induction l with
    | nil => rfl
    | cons b l ih =>
      have hb := hl b List.mem_cons_self
      simp only [List.orderedInsert, hb, ih fun c hc => hl c (List.mem_cons_of_mem b hc)]
  induction l with
  | nil => rfl
  | cons a l ih =>
    rw [List.insertionSort_cons, List.insertionSort_cons, hins,
      ih fun b hb c hc => h b (List.mem_cons_of_mem a hb) c (List.mem_cons_of_mem a hc)]
    intro b hb
    exact h a List.mem_cons_self b (List.mem_cons_of_mem a ((List.mem_insertionSort r).mp hb))

end CacheSeek.Lib
