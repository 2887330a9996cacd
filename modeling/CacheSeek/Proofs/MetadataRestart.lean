import CacheSeek.Lib.Lists
import CacheSeek.Proofs.MetadataFiles
import Mathlib.Data.List.Induction

namespace CacheSeek.Proofs.MetadataRestart
open CacheSeek.Lib CacheSeek.Backends.Metadata LocalCacheMetadataManager CacheSeek.Proofs.MetadataFiles

def withoutRestart : MetadataOp → MetadataOp
  | .restart _ => .flush
  | op => op

/-- Every query has the same answer. -/
def SameAnswers (a b : LocalCacheMetadataManager) : Prop :=
  (∀ cacheId, b.getCacheMeta cacheId = a.getCacheMeta cacheId) ∧
  (∀ prompt cacheType, b.lookupPrompt prompt cacheType = a.lookupPrompt prompt cacheType) ∧
  ∀ (F : Type) (ops : FloatOps F) (requiredMb limitMb : F),
    b.planEviction ops requiredMb limitMb = a.planEviction ops requiredMb limitMb

/-- The operation does not bring back a cache type that the restarted instance `b` had
dropped as empty, when `b` has one that comes after it in `a`. The default type is
looked at first in any case. -/
def KeepsPlace (a b : LocalCacheMetadataManager) : MetadataOp → Prop
  | .registerCache _ _ _ _ _ _ cacheType =>
    let t := normalizeCacheType cacheType
    t ≠ defaultCacheType → t ∈ a.index.keys → t ∉ b.index.keys →
      ∀ u, u ∈ b.index.keys → u ≠ defaultCacheType → [u, t].Sublist a.index.keys
  | _ => True

def otherTypes (index : PromptIndex) : List String := index.keys.filter (· ≠ defaultCacheType)

/-- The restarted instance lacks some empty buckets, and has the others in the same order. -/
structure Alike (a b : LocalCacheMetadataManager) : Prop where
  stats : b.stats = a.stats
  bucket : ∀ t, bucket b.index t = bucket a.index t
  order : (otherTypes b.index).Sublist (otherTypes a.index)

/-- Searching the buckets goes by the order of their types. -/
theorem values_findSome? {α : Type} (index : PromptIndex) (g : Dict String IndexEntry → Option α) :
    index.values.findSome? g = index.keys.findSome? fun t => g (LocalCacheMetadataManager.bucket index t) := by
  have hvalues : index.values = index.keys.map (LocalCacheMetadataManager.bucket index) := by
    rw [Dict.values, Dict.keys, List.map_map]
    refine List.map_congr_left fun e he => ?_
    have hget : index.get? e.1 = some e.2 := index.get?_eq_some_iff.mpr he
    rw [Function.comp_apply, LocalCacheMetadataManager.bucket, hget]
    rfl
  rw [hvalues, List.findSome?_map]
  rfl

theorem otherTypes_nodup (index : PromptIndex) : (otherTypes index).Nodup := index.nodup.filter _

/-- What a lookup finds beyond the default type. -/
theorem scan_others {index : PromptIndex} {prompt : String}
    (h : scan prompt (LocalCacheMetadataManager.bucket index defaultCacheType) = none) :
    index.values.findSome? (scan prompt) =
      (otherTypes index).findSome? fun t => scan prompt (LocalCacheMetadataManager.bucket index t) := by
  rw [values_findSome?]
  refine findSome?_eq_of_sublist List.filter_sublist index.nodup fun t ht hother => ?_
  have hdefault : t = defaultCacheType := by
    by_contra hne
    exact hother (List.mem_filter.mpr ⟨ht, by simpa using hne⟩)
  rw [hdefault]
  exact h

theorem bucket_absent {index : PromptIndex} {t : String} (h : t ∉ index.keys) :
    LocalCacheMetadataManager.bucket index t = ∅ := by
  rw [LocalCacheMetadataManager.bucket, index.get?_eq_none_iff.mpr h]
  rfl

variable {a b a' b' : LocalCacheMetadataManager}

/-- The empty buckets that the restarted instance lacks answer no prompt. -/
theorem Alike.lookupPrompt (h : Alike a b) (prompt : String) (cacheType : Option String) :
    b.lookupPrompt prompt cacheType = a.lookupPrompt prompt cacheType := by
  unfold LocalCacheMetadataManager.lookupPrompt
  cases cacheType.filter (· ≠ "") with
  | some t => simp only [h.bucket]
  | none =>
    simp only [h.bucket]
    cases hdefault : scan prompt (LocalCacheMetadataManager.bucket a.index defaultCacheType) with
    | some entry => rfl
    | none =>
      dsimp only
      rw [scan_others hdefault, scan_others (by rw [h.bucket]; exact hdefault)]
      simp only [h.bucket]
      refine (findSome?_eq_of_sublist h.order (otherTypes_nodup a.index) fun t ht hnot => ?_).symm
      have habsent : t ∉ b.index.keys := fun hmem =>
        hnot (List.mem_filter.mpr ⟨hmem, (List.mem_filter.mp ht).2⟩)
      rw [← h.bucket, bucket_absent habsent]
      rfl

theorem Alike.sameAnswers (h : Alike a b) : SameAnswers a b := by
  refine ⟨fun cacheId => ?_, h.lookupPrompt, fun F ops requiredMb limitMb => ?_⟩
  · rw [getCacheMeta, getCacheMeta, h.stats]
  · rw [planEviction, planEviction, h.stats]

theorem bucket_dropEntry_congr {i j : PromptIndex}
    (h : ∀ t, LocalCacheMetadataManager.bucket j t = LocalCacheMetadataManager.bucket i t) (cacheId : String)
    (cacheType : Option String) (t : String) :
    LocalCacheMetadataManager.bucket (dropEntry j cacheId cacheType) t =
      LocalCacheMetadataManager.bucket (dropEntry i cacheId cacheType) t := by
  have hunknown : LocalCacheMetadataManager.bucket (dropEntry j cacheId none) t =
      LocalCacheMetadataManager.bucket (dropEntry i cacheId none) t := by
    rw [bucket_dropEntry_unknown, bucket_dropEntry_unknown, h]
  cases cacheType with
  | none => exact hunknown
  | some t' =>
    by_cases ht : t' = ""
    · subst t'
      exact hunknown
    · rw [bucket_dropEntry_known _ _ _ _ ht, bucket_dropEntry_known _ _ _ _ ht, h]

theorem keys_dropEntry (index : PromptIndex) (cacheId : String) (cacheType : Option String) :
    (dropEntry index cacheId cacheType).keys = index.keys := by
  unfold dropEntry
  split
  · rename_i t ht
    cases hb : index.get? t with
    | none => rfl
    | some b => exact (Dict.keys_set _ _ _).trans (if_pos (Dict.mem_keys.mpr ⟨b, hb⟩))
  · exact Dict.keys_mapValues _ _

/-- A new type goes to the end of the order. -/
theorem otherTypes_set (index : PromptIndex) (t : String) (m : Dict String IndexEntry) :
    otherTypes (index.set t m) =
      if t ∈ index.keys ∨ t = defaultCacheType then otherTypes index else otherTypes index ++ [t] := by
  rw [otherTypes, Dict.keys_set]
  by_cases ht : t ∈ index.keys
  · rw [if_pos ht, if_pos (Or.inl ht)]
    rfl
  · rw [if_neg ht, List.filter_append]
    by_cases hdefault : t = defaultCacheType
    · rw [if_pos (Or.inr hdefault), hdefault]
      simp [otherTypes]
    · rw [if_neg (not_or.mpr ⟨ht, hdefault⟩)]
      simp [otherTypes, hdefault]

/-- This is where the place of a type counts. -/
theorem Alike.registered (h : Alike a b) {t : String}
    (hplace : t ≠ defaultCacheType → t ∈ a.index.keys → t ∉ b.index.keys →
      ∀ u, u ∈ b.index.keys → u ≠ defaultCacheType → [u, t].Sublist a.index.keys) (m : Dict String IndexEntry) :
    (otherTypes (b.index.set t m)).Sublist (otherTypes (a.index.set t m)) := by
  rw [otherTypes_set, otherTypes_set]
  by_cases hdefault : t = defaultCacheType
  · rw [if_pos (Or.inr hdefault), if_pos (Or.inr hdefault)]
    exact h.order
  · have hmem : ∀ {index : PromptIndex} {u : String}, u ∈ otherTypes index ↔ u ∈ index.keys ∧ u ≠ defaultCacheType := by
      intro index u
      simp [otherTypes]
    by_cases hb : t ∈ b.index.keys
    · have ha : t ∈ a.index.keys := (hmem.mp (h.order.subset (hmem.mpr ⟨hb, hdefault⟩))).1
      rw [if_pos (Or.inl hb), if_pos (Or.inl ha)]
      exact h.order
    · rw [if_neg (not_or.mpr ⟨hb, hdefault⟩)]
      by_cases ha : t ∈ a.index.keys
      · rw [if_pos (Or.inl ha)]
        refine sublist_snoc h.order (otherTypes_nodup a.index) (hmem.mpr ⟨ha, hdefault⟩) (fun u hu => ?_)
          (fun hmem' => hb (hmem.mp hmem').1)
        have hu' := hmem.mp hu
        have hpair := (hplace hdefault ha hb u hu'.1 hu'.2).filter (· ≠ defaultCacheType)
        simpa only [otherTypes, List.filter_cons, List.filter_nil, ne_eq, hu'.2, hdefault, not_false_eq_true,
          decide_true, if_true] using hpair
      · rw [if_neg (not_or.mpr ⟨ha, hdefault⟩)]
        exact h.order.append (List.Sublist.refl [t])

theorem Alike.step (h : Alike a b) {op : MetadataOp} (hplace : KeepsPlace a b op)
    (hia : a'.index = stepIndex a (withoutRestart op)) (hsa : a'.stats = stepStats a.stats (withoutRestart op))
    (hib : b'.index = stepIndex b op) (hsb : b'.stats = stepStats b.stats op) : Alike a' b' := by
  have hstats : b'.stats = a'.stats := by
    rw [hsa, hsb, h.stats]
    cases op <;> rfl
  cases op with
  | registerCache now cacheId prompt savedSteps sizeMb numFrames cacheType =>
    simp only [withoutRestart, stepIndex] at hia hib
    refine ⟨hstats, fun t => ?_, ?_⟩
    · rw [hia, hib, bucket_set, bucket_set, h.bucket, h.bucket]
    · rw [hia, hib, h.bucket]
      exact h.registered hplace _
  | removeCache cacheId =>
    simp only [withoutRestart, stepIndex] at hia hib
    refine ⟨hstats, fun t => ?_, ?_⟩
    · rw [hia, hib, h.stats]
      exact bucket_dropEntry_congr h.bucket _ _ t
    · rw [hia, hib, otherTypes, otherTypes, keys_dropEntry, keys_dropEntry]
      exact h.order
  | recordAccess now cacheId => exact ⟨hstats, by rw [hia, hib]; exact h.bucket, by rw [hia, hib]; exact h.order⟩
  | flush => exact ⟨hstats, by rw [hia, hib]; exact h.bucket, by rw [hia, hib]; exact h.order⟩
  | restart flag =>
    refine ⟨hstats, fun t => ?_, ?_⟩
    · rw [hia, hib, stepIndex, bucket_pruned]
      exact h.bucket t
    · rw [hia, hib]
      exact ((Dict.keys_filter _ _).filter _).trans h.order

theorem alike_new (flag : Bool) : Alike (newManager flag) (newManager flag) :=
  ⟨rfl, fun _ => rfl, List.Sublist.refl _⟩

/-- The two managers stay alike as long as every call keeps the type's place. -/
theorem history_alike (flag : Bool) (ops : List MetadataOp)
    (h : ∀ before op after, ops = before ++ op :: after → ∀ a b, history flag (before.map withoutRestart) = .ok a →
      history flag before = .ok b → KeepsPlace a b op) :
    ∃ a b, history flag (ops.map withoutRestart) = .ok a ∧ history flag ops = .ok b ∧ Stored a ∧ Stored b ∧
      Alike a b := by
  induction ops using List.reverseRecOn with
  | nil => exact ⟨_, _, history_nil flag, history_nil flag, stored_new flag, stored_new flag, alike_new flag⟩
  | append_singleton ops op ih =>
    obtain ⟨a, b, ha, hb, hstoreda, hstoredb, halike⟩ := ih (fun before op' after heq =>
      h before op' (after ++ [op]) (by rw [heq, List.append_assoc, List.cons_append]))
    obtain ⟨a', hstepa, hstoreda', hia, hsa⟩ := hstoreda.step (withoutRestart op)
    obtain ⟨b', hstepb, hstoredb', hib, hsb⟩ := hstoredb.step op
    refine ⟨a', b', ?_, (history_snoc hb op).trans hstepb, hstoreda', hstoredb',
      halike.step (h ops op [] rfl a b ha hb) hia hsa hib hsb⟩
    rw [List.map_append]
    exact (history_snoc ha (withoutRestart op)).trans hstepa

/-- As long as no operation brings back a dropped cache type ahead of its old place,
nobody can tell a history with restarts from the same one without them. -/
theorem restart_invisible (flag : Bool) (ops : List MetadataOp)
    (h : ∀ before op after, ops = before ++ op :: after → ∀ a b, history flag (before.map withoutRestart) = .ok a →
      history flag before = .ok b → KeepsPlace a b op) (before after : List MetadataOp) (hops : ops = before ++ after) :
    ∃ a b, history flag (before.map withoutRestart) = .ok a ∧ history flag before = .ok b ∧ SameAnswers a b := by
  obtain ⟨a, b, ha, hb, -, -, halike⟩ := history_alike flag before (fun before' op after' heq =>
    h before' op (after' ++ after) (by rw [hops, heq, List.append_assoc, List.cons_append]))
  exact ⟨a, b, ha, hb, halike.sameAnswers⟩

def instant : FloatRepr := ⟨['1', '.', '5'], by decide⟩

def oneTypeOps : List MetadataOp :=
  [.registerCache instant "a" "a cat" [2, 1] instant 1 (some "image"), .recordAccess instant "a", .restart true,
    .removeCache "a", .registerCache instant "b" "a cat" [] instant 1 none]

theorem restart_invisible_one_type : ∃ a b, history false (oneTypeOps.map withoutRestart) = .ok a ∧
    history false oneTypeOps = .ok b ∧ SameAnswers a b := by
  refine restart_invisible false oneTypeOps ?_ oneTypeOps [] (List.append_nil _).symm
  intro before op after hops a b ha _
  rcases before with - | ⟨_, - | ⟨_, - | ⟨_, - | ⟨_, - | ⟨_, before⟩⟩⟩⟩⟩
  · cases hops
    cases ha
    exact fun _ hmem => nomatch hmem
  · cases hops
    trivial
  · cases hops
    trivial
  · cases hops
    trivial
  · cases hops
    exact fun hdefault => absurd rfl hdefault
  · simp [oneTypeOps] at hops

/-- An emptied cache type that is used again after a restart has lost its place. -/
theorem restart_changes_answer : ∃ a b,
    history true ([.registerCache instant "a" "a dog" [] instant 1 (some "image"),
      .registerCache instant "b" "a cat" [] instant 1 (some "text"), .removeCache "a", .restart true,
      .registerCache instant "c" "a cat" [] instant 1 (some "image")].map withoutRestart) = .ok a ∧
    history true [.registerCache instant "a" "a dog" [] instant 1 (some "image"),
      .registerCache instant "b" "a cat" [] instant 1 (some "text"), .removeCache "a", .restart true,
      .registerCache instant "c" "a cat" [] instant 1 (some "image")] = .ok b ∧
    a.lookupPrompt "a cat" none = some ⟨"c", "a cat", [], "image"⟩ ∧
    b.lookupPrompt "a cat" none = some ⟨"b", "a cat", [], "text"⟩ := by
  obtain ⟨b₁, hb₁, hstored⟩ := history_ok true [.registerCache instant "a" "a dog" [] instant 1 (some "image"),
    .registerCache instant "b" "a cat" [] instant 1 (some "text"), .removeCache "a"]
  obtain ⟨b₂, hstep₂, hstored₂, hindex₂, -⟩ := hstored.restart true
  obtain ⟨b₃, hstep₃, -, hindex₃, -⟩ :=
    hstored₂.step (.registerCache instant "c" "a cat" [] instant 1 (some "image"))
  refine ⟨_, b₃, rfl, (history_snoc ((history_snoc hb₁ _).trans hstep₂) _).trans hstep₃, by decide, ?_⟩
  cases hb₁
  simp only [lookupPrompt, hindex₃, stepIndex, hindex₂]
  decide

end CacheSeek.Proofs.MetadataRestart
