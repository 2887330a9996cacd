import CacheSeek.Lib.Dict

namespace CacheSeek.Lib.Dict

variable {κ ν μ ε : Type}

/-- `{k: f(v) for k, v in d.items()}`. -/
def mapValues (f : ν → μ) (d : Dict κ ν) : Dict κ μ :=
  ⟨d.entries.map fun e => (e.1, f e.2), by rw [List.map_map]; exact d.nodup⟩

/-- `{k: v for k, v in d.items() if p(k, v)}`. -/
def filter (p : κ → ν → Bool) (d : Dict κ ν) : Dict κ ν :=
  ⟨d.entries.filter fun e => p e.1 e.2, d.nodup.sublist (List.filter_sublist.map Prod.fst)⟩

@[simp] theorem keys_mapValues (f : ν → μ) (d : Dict κ ν) : (d.mapValues f).keys = d.keys := by
  simp only [keys, mapValues, List.map_map]
  rfl

theorem keys_filter (p : κ → ν → Bool) (d : Dict κ ν) : (d.filter p).keys.Sublist d.keys :=
  List.filter_sublist.map Prod.fst

theorem filter_all {p : κ → ν → Bool} {d : Dict κ ν} (h : ∀ k v, (k, v) ∈ d.entries → p k v = true) :
    d.filter p = d :=
  ext (List.filter_eq_self.mpr fun e he => h e.1 e.2 he)

variable [DecidableEq κ]

theorem get?_mapValues (f : ν → μ) (d : Dict κ ν) (k : κ) : (d.mapValues f).get? k = (d.get? k).map f := by
  ext v
  simp only [get?_eq_some_iff, mapValues, List.mem_map, Option.map_eq_some_iff, Prod.mk.injEq, Prod.exists]
  constructor
  · rintro ⟨k', w, hmem, rfl, rfl⟩
    exact ⟨w, hmem, rfl⟩
  · rintro ⟨w, hmem, rfl⟩
    exact ⟨k, w, hmem, rfl, rfl⟩

theorem get?_filter (p : κ → ν → Bool) (d : Dict κ ν) (k : κ) :
    (d.filter p).get? k = (d.get? k).filter (p k) := by
  ext v
  rw [get?_eq_some_iff, Option.filter_eq_some_iff, get?_eq_some_iff]
  exact List.mem_filter

theorem keys_set (d : Dict κ ν) (k : κ) (v : ν) :
    (d.set k v).keys = if k ∈ d.keys then d.keys else d.keys ++ [k] := by
  by_cases h : k ∈ d.keys
  · rw [if_pos h, set, dif_pos (show k ∈ d.entries.map Prod.fst from h)]
    exact replaceIn_keys k v d.entries
  · rw [if_neg h, set, dif_neg (show k ∉ d.entries.map Prod.fst from h)]
    exact List.map_append

/-- Of two members with one key the last counts, at the place of the first. -/
def ofEntries (l : List (κ × ν)) : Dict κ ν := l.foldl (fun d e => d.set e.1 e.2) ∅

/-- Go through the members: one may be left out, and one may be refused. -/
def collect (read : κ → μ → Except ε (Option ν)) : List (κ × μ) → Dict κ ν → Except ε (Dict κ ν)
  | [], d => .ok d
  | (k, x) :: l, d =>
    match read k x with
    | .error e => .error e
    | .ok none => collect read l d
    | .ok (some v) => collect read l (d.set k v)

theorem get?_fresh {d : Dict κ ν} {k : κ} {v : ν} {l : List (κ × ν)}
    (hnodup : ((d.entries ++ (k, v) :: l).map Prod.fst).Nodup) : d.get? k = none := by
  rw [get?_eq_none_iff]
  intro hkey
  rw [List.map_append, List.nodup_append] at hnodup
  exact hnodup.2.2 k hkey k (by simp) rfl

theorem foldl_set_entries (l : List (κ × ν)) (d : Dict κ ν) (hnodup : ((d.entries ++ l).map Prod.fst).Nodup) :
    (l.foldl (fun d e => d.set e.1 e.2) d).entries = d.entries ++ l := by
  induction l generalizing d with
  | nil => simp
  | cons e l ih =>
    have hset := d.entries_set_new e.2 (get?_fresh hnodup)
    rw [List.foldl_cons, ih (d.set e.1 e.2) (by rw [hset, List.append_assoc]; exact hnodup), hset,
      List.append_assoc]
    rfl

theorem ofEntries_nodup {l : List (κ × ν)} (h : (l.map Prod.fst).Nodup) : (ofEntries l).entries = l :=
  foldl_set_entries l ∅ h

theorem get?_ofEntries {l : List (κ × ν)} (h : (l.map Prod.fst).Nodup) {k : κ} {v : ν} :
    (ofEntries l).get? k = some v ↔ (k, v) ∈ l := by
  rw [get?_eq_some_iff, ofEntries_nodup h]

@[simp] theorem ofEntries_entries (d : Dict κ ν) : ofEntries d.entries = d := ext (ofEntries_nodup d.nodup)

theorem collect_entries (read : κ → μ → Except ε (Option ν)) (keep : κ → ν → Bool) (write : κ → ν → μ)
    (l : List (κ × ν)) (d : Dict κ ν) (hnodup : ((d.entries ++ l).map Prod.fst).Nodup)
    (h : ∀ k v, (k, v) ∈ l → read k (write k v) = .ok (if keep k v then some v else none)) :
    ∃ d', collect read (l.map fun e => (e.1, write e.1 e.2)) d = .ok d' ∧
      d'.entries = d.entries ++ l.filter fun e => keep e.1 e.2 := by
  induction l generalizing d with
  | nil => exact ⟨d, rfl, by simp⟩
  | cons e l ih =>
    obtain ⟨k, v⟩ := e
    have hread := h k v List.mem_cons_self
    have hrest : ∀ k' v', (k', v') ∈ l → read k' (write k' v') = .ok (if keep k' v' then some v' else none) :=
      fun k' v' hmem => h k' v' (List.mem_cons_of_mem _ hmem)
    simp only [List.map_cons, collect, hread]
    cases hkeep : keep k v with
    | false =>
      have hnodup' : ((d.entries ++ l).map Prod.fst).Nodup :=
        hnodup.sublist (((List.sublist_cons_self _ _).append_left _).map Prod.fst)
      obtain ⟨d', hd', hentries⟩ := ih d hnodup' hrest
      exact ⟨d', hd', by rw [hentries, List.filter_cons_of_neg (by simp [hkeep])]⟩
    | true =>
      have hset := d.entries_set_new v (get?_fresh hnodup)
      obtain ⟨d', hd', hentries⟩ := ih (d.set k v) (by simpa [hset] using hnodup) hrest
      exact ⟨d', hd', by rw [hentries, hset, List.filter_cons_of_pos (by simp [hkeep])]; simp⟩

/-- What was written member by member reads back, up to what is left out. -/
theorem collect_written (read : κ → μ → Except ε (Option ν)) (keep : κ → ν → Bool) (write : κ → ν → μ)
    (d : Dict κ ν) (h : ∀ k v, d.get? k = some v → read k (write k v) = .ok (if keep k v then some v else none)) :
    collect read (d.entries.map fun e => (e.1, write e.1 e.2)) ∅ = .ok (d.filter keep) := by
  obtain ⟨d', hd', hentries⟩ := collect_entries read keep write d.entries ∅ d.nodup
    (fun k v hmem => h k v ((d.get?_eq_some_iff).mpr hmem))
  rw [hd']
  exact congrArg Except.ok (ext hentries)

end CacheSeek.Lib.Dict
