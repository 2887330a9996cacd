import Mathlib.Data.List.Dedup
import Mathlib.Data.List.Sort

namespace CacheSeek.Lib

variable {α : Type}

/-- An entry of an updated list is the new one or an old one elsewhere. -/
theorem set_cases {l : List α} {i j : Nat} {a b : α} (h : (l.set i a)[j]? = some b) :
    (j = i ∧ b = a) ∨ (j ≠ i ∧ l[j]? = some b) := by
  rw [List.getElem?_set] at h
  split at h
  · rename_i he
    split at h
    · exact Or.inl ⟨he.symm, (Option.some.inj h).symm⟩
    · cases h
  · rename_i he
    exact Or.inr ⟨Ne.symm he, h⟩

/-- An entry of an extended list is an old one or the new one at the end. -/
theorem concat_cases {l : List α} {j : Nat} {a b : α} (h : (l ++ [a])[j]? = some b) :
    l[j]? = some b ∨ (j = l.length ∧ b = a) := by
  rw [List.getElem?_append] at h
  split at h
  · exact Or.inl h
  · rename_i hj
    cases hk : j - l.length with
    | zero =>
      rw [hk] at h
      exact Or.inr ⟨by omega, (Option.some.inj h).symm⟩
    | succ k =>
      rw [hk] at h
      cases h

/-- A search meets the same first hit where nothing of what is left out is one. -/
theorem findSome?_eq_of_sublist {β : Type} {l m : List α} {g : α → Option β} (h : l.Sublist m) (hnodup : m.Nodup)
    (hrest : ∀ x, x ∈ m → x ∉ l → g x = none) : m.findSome? g = l.findSome? g := by
  induction h with
  | slnil => rfl
  | @cons l m a h ih =>
    obtain ⟨ha, hm⟩ := List.nodup_cons.mp hnodup
    have hnone : g a = none := hrest a List.mem_cons_self fun hl => ha (h.subset hl)
    rw [List.findSome?_cons, hnone]
    exact ih hm fun x hx => hrest x (List.mem_cons_of_mem a hx)
  | @cons_cons l m a h ih =>
    obtain ⟨ha, hm⟩ := List.nodup_cons.mp hnodup
    have htail : m.findSome? g = l.findSome? g := by
      refine ih hm fun x hx hl => hrest x (List.mem_cons_of_mem a hx) fun hmem => ?_
      have hne : x ≠ a := fun heq => ha (by rw [← heq]; exact hx)
      exact hl (List.mem_of_ne_of_mem hne hmem)
    rw [List.findSome?_cons, List.findSome?_cons, htail]

/-- An element that comes after all of a sublist extends it. -/
theorem sublist_snoc {l m : List α} {t : α} (h : l.Sublist m) (hnodup : m.Nodup) (ht : t ∈ m)
    (hbefore : ∀ u, u ∈ l → [u, t].Sublist m) (hnot : t ∉ l) : (l ++ [t]).Sublist m := by
  obtain ⟨x, y, rfl⟩ := List.append_of_mem ht
  have hparts := List.nodup_append.mp hnodup
  have hx : ∀ u, u ∈ l → u ∈ x := by
    intro u hu
    obtain ⟨p, q, hpq, hp, hq⟩ := List.sublist_append_iff.mp (hbefore u hu)
    cases p with
    | nil =>
      -- both would stand from `t` on
      rw [List.nil_append] at hpq
      subst q
      have hty : t ∈ y := by
        cases hq with
        | cons _ hsub => exact hsub.subset (by simp)
        | cons_cons _ hsub => exact absurd hu hnot
      exact absurd hty (List.nodup_cons.mp hparts.2.1).1
    | cons v p =>
      have hv : v = u := (List.cons.inj hpq).1.symm
      exact hp.subset (by rw [hv]; exact List.mem_cons_self)
  have hl : l.Sublist x := by
    obtain ⟨p, q, hpq, hp, hq⟩ := List.sublist_append_iff.mp h
    have hqnil : q = [] := by
      refine List.eq_nil_iff_forall_not_mem.mpr fun u hu => ?_
      exact hparts.2.2 u (hx u (by rw [hpq]; exact List.mem_append_right p hu)) u (hq.subset hu) rfl
    rw [hpq, hqnil, List.append_nil]
    exact hp
  exact hl.append (List.cons_sublist_cons.mpr (List.nil_sublist y))

section
variable {β : Type} [LinearOrder β]

/-- `sorted(set(xs))`. -/
def sortedSet (xs : List β) : List β := xs.dedup.insertionSort (· ≤ ·)

theorem sortedSet_sorted (xs : List β) : (sortedSet xs).Pairwise (· < ·) := by
  have hle : (sortedSet xs).Pairwise (· ≤ ·) := List.pairwise_insertionSort _ _
  have hne : (sortedSet xs).Nodup := (List.perm_insertionSort _ _).nodup_iff.mpr (List.nodup_dedup xs)
  exact hle.imp₂ (fun _ _ h h' => lt_of_le_of_ne h h') hne

theorem sortedSet_of_sorted {xs : List β} (h : xs.Pairwise (· < ·)) : sortedSet xs = xs := by
  have hne : xs.Nodup := h.imp fun hlt => ne_of_lt hlt
  rw [sortedSet, hne.dedup]
  exact List.Pairwise.insertionSort_eq (h.imp fun hlt => le_of_lt hlt)

end

end CacheSeek.Lib
