import Mathlib.Data.List.Nodup

namespace CacheSeek.Lib

/-- An insertion-ordered dictionary: storing under a key that is present keeps
its place, a new key goes to the end. No key occurs twice. -/
structure Dict (κ ν : Type) where
  entries : List (κ × ν)
  nodup : (entries.map Prod.fst).Nodup

namespace Dict

variable {κ ν : Type}

@[ext] theorem ext {d e : Dict κ ν} (h : d.entries = e.entries) : d = e := by
  cases d
  cases e
  cases h
  rfl

def empty : Dict κ ν := ⟨[], by simp⟩

instance : EmptyCollection (Dict κ ν) := ⟨empty⟩
instance : Inhabited (Dict κ ν) := ⟨empty⟩

def keys (d : Dict κ ν) : List κ := d.entries.map Prod.fst

def values (d : Dict κ ν) : List ν := d.entries.map Prod.snd

@[simp] theorem entries_empty : (∅ : Dict κ ν).entries = [] := rfl

variable [DecidableEq κ]

instance [DecidableEq ν] : DecidableEq (Dict κ ν) := fun d e =>
  decidable_of_iff (d.entries = e.entries) ⟨ext, congrArg entries⟩

def get? (d : Dict κ ν) (k : κ) : Option ν := d.entries.lookup k

def replaceIn (k : κ) (v : ν) (l : List (κ × ν)) : List (κ × ν) :=
  l.map (fun e => if e.1 = k then (k, v) else e)

theorem replaceIn_keys (k : κ) (v : ν) (l : List (κ × ν)) :
    (replaceIn k v l).map Prod.fst = l.map Prod.fst := by
  simp only [replaceIn, List.map_map]
  apply List.map_congr_left
  intro e _
  by_cases he : e.1 = k <;> simp [he]

def set (d : Dict κ ν) (k : κ) (v : ν) : Dict κ ν :=
  if h : k ∈ d.entries.map Prod.fst then
    ⟨replaceIn k v d.entries, by rw [replaceIn_keys]; exact d.nodup⟩
  else
    ⟨d.entries ++ [(k, v)], by
      simp only [List.map_append, List.map_cons, List.map_nil]
      exact List.nodup_append.mpr ⟨d.nodup, by simp, by
        intro a ha b hb hab
        simp only [List.mem_singleton] at hb
        exact h (by rw [← hb, ← hab]; exact ha)⟩⟩

/-- `dict.pop(k, None)` as a state change. -/
def erase (d : Dict κ ν) (k : κ) : Dict κ ν :=
  ⟨d.entries.filter (fun e => e.1 ≠ k), d.nodup.sublist (List.filter_sublist.map Prod.fst)⟩

@[simp] theorem get?_empty (k : κ) : (∅ : Dict κ ν).get? k = none := rfl

theorem get?_eq_some_iff (d : Dict κ ν) {k : κ} {v : ν} :
    d.get? k = some v ↔ (k, v) ∈ d.entries := by
  obtain ⟨l, hl⟩ := d
  simp only [get?]
  induction l with
  | nil => simp
  | cons e l ih =>
    obtain ⟨k', v'⟩ := e
    simp only [List.map_cons, List.nodup_cons] at hl
    by_cases hk : k = k'
    · subst k'
      simp only [List.lookup_cons, BEq.rfl, Option.some.injEq, List.mem_cons, Prod.mk.injEq,
        true_and]
      constructor
      · intro h
        exact Or.inl h.symm
      · rintro (h | h)
        · exact h.symm
        · exact False.elim (hl.1 (List.mem_map.mpr ⟨_, h, rfl⟩))
    · simp [List.lookup_cons, beq_eq_false_iff_ne.mpr hk, hk, ih hl.2]

theorem get?_eq_none_iff (d : Dict κ ν) {k : κ} : d.get? k = none ↔ k ∉ d.keys := by
  rw [← Option.not_isSome_iff_eq_none, Option.isSome_iff_exists]
  simp only [get?_eq_some_iff, keys, List.mem_map, Prod.exists, exists_and_right, exists_eq_right]

theorem mem_values {d : Dict κ ν} {v : ν} : v ∈ d.values ↔ ∃ k, d.get? k = some v := by
  simp only [values, List.mem_map, Prod.exists, exists_eq_right, get?_eq_some_iff]

theorem mem_keys {d : Dict κ ν} {k : κ} : k ∈ d.keys ↔ ∃ v, d.get? k = some v := by
  rw [← not_iff_not, ← get?_eq_none_iff, Option.eq_none_iff_forall_ne_some]
  simp

/-- Replacing in place moves no key. -/
theorem lookup_replaceIn (k k' : κ) (v : ν) (l : List (κ × ν)) (h : k ∈ l.map Prod.fst) :
    (replaceIn k v l).lookup k' = if k' = k then some v else l.lookup k' := by
  induction l with
  | nil => simp at h
  | cons e l ih =>
    obtain ⟨a, b⟩ := e
    simp only [replaceIn, List.map_cons] at ih h ⊢
    by_cases ha : a = k
    · subst a
      by_cases hk : k' = k
      · simp [hk]
      · simp only [↓reduceIte, List.lookup_cons, beq_eq_false_iff_ne.mpr hk, hk]
        by_cases hm : k ∈ l.map Prod.fst
        · simpa [hk] using ih hm
        · congr 1
          rw [List.map_congr_left (g := id), List.map_id]
          intro e he
          have : e.1 ≠ k := fun h' => hm (List.mem_map.mpr ⟨e, he, h'⟩)
          simp [this]
    · have hm : k ∈ l.map Prod.fst := by
        rcases List.mem_cons.mp h with h | h
        · exact False.elim (ha h.symm)
        · exact h
      simp only [ha, ↓reduceIte, List.lookup_cons]
      by_cases hk' : k' = a
      · subst k'
        simp [ha]
      · simp only [beq_eq_false_iff_ne.mpr hk']
        exact ih hm

theorem get?_set (d : Dict κ ν) (k k' : κ) (v : ν) :
    (d.set k v).get? k' = if k' = k then some v else d.get? k' := by
  unfold set
  split
  · rename_i h
    exact lookup_replaceIn k k' v d.entries h
  · rename_i h
    have hn : d.get? k = none := d.get?_eq_none_iff.mpr h
    change (d.entries ++ [(k, v)]).lookup k' = _
    rw [List.lookup_append]
    by_cases hk : k' = k
    · subst k'
      change (d.get? k).or _ = _
      simp [hn]
    · simp [hk, get?, List.lookup_cons, beq_eq_false_iff_ne.mpr hk]

@[simp] theorem get?_set_self (d : Dict κ ν) (k : κ) (v : ν) : (d.set k v).get? k = some v := by
  simp [get?_set]

theorem get?_set_ne (d : Dict κ ν) {k k' : κ} (v : ν) (h : k' ≠ k) :
    (d.set k v).get? k' = d.get? k' := by
  simp [get?_set, h]

/-- No key occurs twice, so one removal is enough. -/
theorem get?_erase (d : Dict κ ν) (k k' : κ) :
    (d.erase k).get? k' = if k' = k then none else d.get? k' := by
  ext v
  rw [get?_eq_some_iff]
  simp only [erase, List.mem_filter, decide_not, Bool.not_eq_true', decide_eq_false_iff_not]
  by_cases hk : k' = k <;> simp [hk, get?_eq_some_iff]

theorem erase_absent (d : Dict κ ν) {k : κ} (h : d.get? k = none) : d.erase k = d := by
  apply ext
  refine List.filter_eq_self.mpr fun e he => ?_
  have hne : e.1 ≠ k := fun hk => d.get?_eq_none_iff.mp h (hk ▸ List.mem_map.mpr ⟨e, he, rfl⟩)
  simp [hne]

/-- A new key is appended to the entries. -/
theorem entries_set_new (d : Dict κ ν) {k : κ} (v : ν) (h : d.get? k = none) :
    (d.set k v).entries = d.entries ++ [(k, v)] := by
  have hk : k ∉ d.entries.map Prod.fst := d.get?_eq_none_iff.mp h
  unfold set
  rw [dif_neg hk]

end Dict

end CacheSeek.Lib
