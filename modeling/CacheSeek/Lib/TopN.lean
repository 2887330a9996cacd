import Mathlib.Data.List.Nodup
import Mathlib.Data.List.Perm.Subperm
import Mathlib.Data.List.Sort

namespace CacheSeek.Lib

variable {α β : Type}

/-- `hits` are the first `n` of the multiset `all` in the order `le`; ties fall either way. -/
structure TopN (le : α → α → Prop) (n : Nat) (all hits : List α) : Prop where
  sorted : hits.Pairwise le
  length : hits.length = min n all.length
  rest : ∃ rest, (hits ++ rest).Perm all ∧ ∀ x ∈ hits, ∀ y ∈ rest, le x y

/-- The same for a set: `hits` are `n` of its members, or all of them. -/
structure Best (le : α → α → Prop) (n : Nat) (S : α → Prop) (hits : List α) : Prop where
  nodup : hits.Nodup
  mem : ∀ x ∈ hits, S x
  length : hits.length ≤ n
  sorted : hits.Pairwise le
  rest : ∀ y, S y → y ∈ hits ∨ hits.length = n ∧ ∀ x ∈ hits, le x y

variable {le : α → α → Prop} {n : Nat} {all hits : List α} {S : α → Prop}

theorem TopN.mem (h : TopN le n all hits) {x : α} (hx : x ∈ hits) : x ∈ all := by
  obtain ⟨rest, hp, _⟩ := h.rest
  exact hp.subset (List.mem_append_left rest hx)

/-- With room for all of them nothing is left out. -/
theorem TopN.perm (h : TopN le n all hits) (hn : all.length ≤ n) : hits.Perm all := by
  obtain ⟨rest, hp, _⟩ := h.rest
  have hlen := hp.length_eq
  rw [List.length_append, h.length, Nat.min_eq_right hn] at hlen
  have hnil : rest = [] := List.length_eq_zero_iff.mp (by omega)
  rwa [hnil, List.append_nil] at hp

/-- Sorting and cutting is one way to choose. -/
theorem topN_take [DecidableRel le] (htotal : ∀ x y, le x y ∨ le y x)
    (htrans : ∀ x y z, le x y → le y z → le x z) (n : Nat) (all : List α) :
    TopN le n all ((all.insertionSort le).take n) := by
  have : Std.Total le := ⟨htotal⟩
  have : IsTrans α le := ⟨htrans⟩
  have hsorted := List.pairwise_insertionSort le all
  refine ⟨hsorted.sublist (List.take_sublist n _), ?_, (all.insertionSort le).drop n, ?_, ?_⟩
  · rw [List.length_take, List.length_insertionSort]
  · rw [List.take_append_drop]
    exact List.perm_insertionSort le all
  · rw [← List.take_append_drop n (all.insertionSort le), List.pairwise_append] at hsorted
    exact hsorted.2.2

theorem TopN.best (h : TopN le n all hits) (hall : all.Nodup) : Best le n (· ∈ all) hits := by
  obtain ⟨rest, hp, hrest⟩ := h.rest
  have hlen := h.length
  refine ⟨(List.nodup_append.mp (hp.nodup_iff.mpr hall)).1, fun x hx => h.mem hx,
    hlen ▸ Nat.min_le_left n _, h.sorted, ?_⟩
  intro y hy
  rcases List.mem_append.mp (hp.mem_iff.mpr hy) with hy | hy
  · exact Or.inl hy
  · have hlt := hp.length_eq
    rw [List.length_append] at hlt
    have := List.length_pos_of_mem hy
    exact Or.inr ⟨by omega, fun x hx => hrest x hx y hy⟩

theorem Best.topN [DecidableEq α] (h : Best le n (· ∈ all) hits) (hall : all.Nodup) :
    TopN le n all hits := by
  have hsub : hits.Subperm all := List.subperm_of_subset h.nodup h.mem
  have hp : (hits ++ all.diff hits).Perm all := List.subperm_append_diff_self_of_count_le
    (List.subperm_ext_iff.mp hsub)
  have hrest : ∀ y ∈ all.diff hits, hits.length = n ∧ ∀ x ∈ hits, le x y := by
    intro y hy
    rw [hall.mem_sdiff_iff] at hy
    exact (h.rest y hy.1).resolve_left hy.2
  refine ⟨h.sorted, ?_, all.diff hits, hp, fun x hx y hy => (hrest y hy).2 x hx⟩
  have hlen := hp.length_eq
  rw [List.length_append] at hlen
  have hle := h.length
  cases hd : all.diff hits with
  | nil =>
    rw [hd, List.length_nil] at hlen
    omega
  | cons y _ =>
    have := (hrest y (by rw [hd]; exact List.mem_cons_self)).1
    omega

theorem topN_iff_best [DecidableEq α] (hall : all.Nodup) :
    TopN le n all hits ↔ Best le n (· ∈ all) hits :=
  ⟨fun h => h.best hall, fun h => h.topN hall⟩

/-- Choosing from the image of a set under a map that keeps its members apart. -/
theorem Best.map {le' : β → β → Prop} {S' : β → Prop} {f : α → β} (h : Best le n S hits)
    (hf : ∀ x y, S x → S y → f x = f y → x = y) (hS : ∀ x, S x → S' (f x))
    (hS' : ∀ y, S' y → ∃ x, S x ∧ f x = y) (hle : ∀ x y, S x → S y → le x y → le' (f x) (f y)) :
    Best le' n S' (hits.map f) := by
  refine ⟨?_, ?_, ?_, ?_, ?_⟩
  · exact h.nodup.map_on fun x hx y hy => hf x y (h.mem x hx) (h.mem y hy)
  · intro y hy
    obtain ⟨x, hx, rfl⟩ := List.mem_map.mp hy
    exact hS x (h.mem x hx)
  · rw [List.length_map]
    exact h.length
  · rw [List.pairwise_map]
    exact h.sorted.imp_of_mem fun hx hy => hle _ _ (h.mem _ hx) (h.mem _ hy)
  · intro y hy
    obtain ⟨x, hx, rfl⟩ := hS' y hy
    rcases h.rest x hx with hmem | ⟨hlen, hrest⟩
    · exact Or.inl (List.mem_map_of_mem hmem)
    · refine Or.inr ⟨by rw [List.length_map, hlen], ?_⟩
      intro z hz
      obtain ⟨w, hw, rfl⟩ := List.mem_map.mp hz
      exact hle w x (h.mem w hw) hx (hrest w hw)

/-- And choosing from the preimage. -/
theorem Best.comap {le' : β → β → Prop} {S' : β → Prop} {f : α → β} {picked : List β}
    (h : Best le' n S' picked) (hf : ∀ x y, S x → S y → f x = f y → x = y) (hS : ∀ x, S x → S' (f x))
    (hS' : ∀ y, S' y → ∃ x, S x ∧ f x = y) (hle : ∀ x y, S x → S y → le' (f x) (f y) → le x y) :
    ∃ hits, hits.map f = picked ∧ Best le n S hits := by
  obtain ⟨hits, hmap, hmem⟩ : ∃ hits : List α, hits.map f = picked ∧ ∀ x ∈ hits, S x := by
    have hpicked := h.mem
    clear h
    induction picked with
    | nil => exact ⟨[], rfl, fun x hx => by cases hx⟩
    | cons y picked ih =>
      obtain ⟨x, hx, rfl⟩ := hS' y (hpicked y List.mem_cons_self)
      obtain ⟨hits, rfl, hmem⟩ := ih fun z hz => hpicked z (List.mem_cons_of_mem _ hz)
      refine ⟨x :: hits, rfl, ?_⟩
      intro z hz
      rcases List.mem_cons.mp hz with rfl | hz
      · exact hx
      · exact hmem z hz
  subst hmap
  refine ⟨hits, rfl, h.nodup.of_map f, hmem, by rw [← List.length_map f]; exact h.length, ?_, ?_⟩
  · exact (List.pairwise_map.mp h.sorted).imp_of_mem fun hx hy => hle _ _ (hmem _ hx) (hmem _ hy)
  · intro y hy
    rcases h.rest (f y) (hS y hy) with hin | ⟨hlen, hrest⟩
    · obtain ⟨x, hx, he⟩ := List.mem_map.mp hin
      exact Or.inl (hf x y (hmem x hx) hy he ▸ hx)
    · refine Or.inr ⟨by rw [← hlen, List.length_map], ?_⟩
      intro x hx
      exact hle x y (hmem x hx) hy (hrest (f x) (List.mem_map_of_mem hx))

end CacheSeek.Lib
