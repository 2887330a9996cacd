import CacheSeek.Stores.LocalFile
import CacheSeek.Proofs.KeyIdentity

namespace CacheSeek.Proofs.LocalFileCrash
open CacheSeek.Lib CacheSeek.Prefix CacheSeek.Stores LocalFileKVStore CacheSeek.Proofs.KeyIdentity

theorem loadIndex_saved {disk : Disk UInt8} {index : Dict String String}
    (h : disk.get? indexFile = some (utf8 (indexText index))) : loadIndex disk = .ok index := by
  have hmembers : Dict.ofEntries (index.entries.map fun e => (e.1, Json.str e.2)) = index.mapValues Json.str :=
    Dict.ofEntries_entries (index.mapValues Json.str)
  simp only [loadIndex, h, decodeUtf8_utf8, indexText, Json.loads_dumps, hmembers]
  have hread := Dict.collect_written readEntry (fun _ _ => true) (fun _ => Json.str) index (fun _ _ _ => rfl)
  rw [Dict.filter_all (fun _ _ _ => rfl)] at hread
  exact hread

theorem loadIndex_congr {d d' : Disk UInt8} (h : d'.get? indexFile = d.get? indexFile) :
    loadIndex d' = loadIndex d := by
  rw [loadIndex, loadIndex, h]

variable {digest : Bytes → Bytes}

theorem hashKey_toList (key : String) :
    (hashKey digest key).toList = (hex (digest (utf8 key))).toList ++ ['.', 'b', 'i', 'n'] :=
  String.toList_append

theorem hashKey_ne_empty (key : String) : hashKey digest key ≠ "" := by
  intro h
  have := congrArg String.toList h
  rw [hashKey_toList] at this
  simp at this

/-- A blob file never is the index. -/
theorem hashKey_ne_indexFile (key : String) : hashKey digest key ≠ indexFile := by
  intro h
  have := congrArg (fun s => s.toList.reverse) h
  simp [hashKey_toList, indexFile] at this

/-- No file the store reads is a temporary one. -/
theorem hashKey_ne_tmp (key file : String) : hashKey digest key ≠ file ++ ".tmp" := by
  intro h
  have := congrArg (fun s => s.toList.reverse) h
  simp [hashKey_toList] at this

theorem indexFile_ne_tmp (file : String) : indexFile ≠ file ++ ".tmp" := by
  intro h
  have := congrArg (fun s => s.toList.reverse) h
  simp [indexFile] at this

/-- Every key is filed under the name its hash gives. -/
def Named (digest : Bytes → Bytes) (index : Dict String String) : Prop :=
  ∀ key file, index.get? key = some file → file = hashKey digest key

theorem Named.filename {index : Dict String String} (h : Named digest index) (key : String) :
    filename index key = index.get? key := by
  unfold LocalFileKVStore.filename
  cases hk : index.get? key with
  | none => rfl
  | some file =>
    rw [h key file hk]
    simp [hashKey_ne_empty]

theorem Named.set {index : Dict String String} (h : Named digest index) (key : String) :
    Named digest (index.set key (hashKey digest key)) := by
  intro k file hk
  rw [Dict.get?_set] at hk
  split at hk
  · rename_i heq
    rw [heq, Option.some.inj hk]
  · exact h k file hk

theorem Named.erase {index : Dict String String} (h : Named digest index) (key : String) :
    Named digest (index.erase key) := by
  intro k file hk
  rw [Dict.get?_erase] at hk
  split at hk
  · cases hk
  · exact h k file hk

theorem Named.putIndex_get? {index : Dict String String} (h : Named digest index) (key k : String) :
    (putIndex digest index key).get? k = if k = key then some (hashKey digest key) else index.get? k := by
  rw [putIndex, h.filename]
  cases hk : index.get? key with
  | none => exact Dict.get?_set _ _ _ _
  | some name =>
    dsimp only
    split
    · rename_i heq
      rw [heq, hk, h key name hk]
    · rfl

theorem Named.putIndex {index : Dict String String} (h : Named digest index) (key : String) :
    Named digest (putIndex digest index key) := by
  rw [LocalFileKVStore.putIndex, h.filename]
  split
  · exact h
  · exact h.set key

theorem Named.putSteps {index : Dict String String} (h : Named digest index) (key : String) (value : Bytes) :
    putSteps digest index key value = replaceSteps (hashKey digest key ++ ".tmp") (hashKey digest key) value ++
      saveSteps (LocalFileKVStore.putIndex digest index key) := by
  have hfile : (LocalFileKVStore.filename index key).getD (hashKey digest key) = hashKey digest key := by
    rw [h.filename]
    cases hk : index.get? key with
    | none => rfl
    | some name => exact h key name hk
  simp only [LocalFileKVStore.putSteps, hfile]

theorem Named.removeSteps_some {index : Dict String String} (h : Named digest index) {key name : String}
    (hk : index.get? key = some name) (d : Disk UInt8) :
    removeSteps ⟨index, d⟩ key =
      (if (d.get? (hashKey digest key)).isSome then [.unlink (hashKey digest key)] else []) ++
        saveSteps (index.erase key) := by
  have hname : name = hashKey digest key := h key name hk
  simp only [removeSteps, h.filename, hk, hname]

/-- Removing an unknown key touches no file. -/
theorem Named.removeSteps_none {index : Dict String String} (h : Named digest index) {key : String}
    (hk : index.get? key = none) (d : Disk UInt8) : removeSteps ⟨index, d⟩ key = [] := by
  simp only [removeSteps, h.filename, hk]

/-- The directory holds `index`, and for every key what the plain map has. -/
structure Holds (digest : Bytes → Bytes) (disk : Disk UInt8) (index : Dict String String) (m : PlainMap) :
    Prop where
  saved : loadIndex disk = .ok index
  named : Named digest index
  contents : ∀ key, (index.get? key).bind disk.get? = m key

theorem Holds.get {disk : Disk UInt8} {index : Dict String String} {m : PlainMap}
    (h : Holds digest disk index m) (key : String) : (⟨index, disk⟩ : LocalFileKVStore).get key = m key := by
  rw [← h.contents key]
  simp only [LocalFileKVStore.get, h.named.filename]
  cases index.get? key <;> rfl

theorem Holds.init {disk : Disk UInt8} {index : Dict String String} {m : PlainMap}
    (h : Holds digest disk index m) : init disk = .ok ⟨index, disk⟩ := by
  rw [LocalFileKVStore.init, h.saved]
  rfl

theorem holds_empty : Holds digest ∅ ∅ (fun _ => none) :=
  ⟨rfl, (fun _ _ h => nomatch h), fun _ => rfl⟩

variable {d d' : Disk UInt8} {index : Dict String String} {m : PlainMap}

/-- What a temporary file holds does not matter. -/
theorem Holds.sameBut (h : Holds digest d index m) {file : String} (hsame : SameBut (file ++ ".tmp") d d') :
    Holds digest d' index m := by
  refine ⟨?_, h.named, fun key => ?_⟩
  · rw [loadIndex_congr (hsame indexFile (indexFile_ne_tmp file))]
    exact h.saved
  · rw [← h.contents key]
    cases hk : index.get? key with
    | none => rfl
    | some name =>
      rw [h.named key name hk]
      exact hsame _ (hashKey_ne_tmp key file)

/-- Only what concerns `key` changes, in the index or among the files. -/
theorem Holds.change (h : Holds digest d index m) (key : String) {index' : Dict String String}
    (hnamed : Named digest index') (hsaved : loadIndex d' = .ok index')
    (hindex : ∀ k, k ≠ key → index'.get? k = index.get? k)
    (hfiles : ∀ k, k ≠ key → d'.get? (hashKey digest k) = d.get? (hashKey digest k)) :
    Holds digest d' index' (m.update key ((index'.get? key).bind d'.get?)) := by
  refine ⟨hsaved, hnamed, fun k => ?_⟩
  by_cases heq : k = key
  · simp only [PlainMap.update, heq, if_pos]
  · simp only [PlainMap.update, if_neg heq]
    rw [← h.contents k, hindex k heq]
    cases hk : index.get? k with
    | none => rfl
    | some name =>
      rw [h.named k name hk]
      exact hfiles k heq

/-- The index is saved while the file of `key` is as it should be. -/
theorem Holds.saveIndex (h : Holds digest d index m) (key : String) {index' : Dict String String}
    (hnamed : Named digest index') (hindex : ∀ k, k ≠ key → index'.get? k = index.get? k) {v : Option Bytes}
    (hv : (index'.get? key).bind d.get? = v) :
    Holds digest (d.set indexFile (utf8 (indexText index'))) index' (m.update key v) := by
  have hfiles : ∀ k, (d.set indexFile (utf8 (indexText index'))).get? (hashKey digest k) =
      d.get? (hashKey digest k) := fun k => Dict.get?_set_ne _ _ (hashKey_ne_indexFile k)
  have hnew := h.change key hnamed (loadIndex_saved (Dict.get?_set_self _ _ _)) hindex (fun k _ => hfiles k)
  have hkey : (index'.get? key).bind (d.set indexFile (utf8 (indexText index'))).get? = v := by
    rw [← hv]
    cases hk : index'.get? key with
    | none => rfl
    | some name =>
      rw [hnamed key name hk]
      exact hfiles key
  rwa [hkey] at hnew

section Put
variable (hnames : Function.Injective (hashKey digest)) (h : Holds digest d index m) (key : String)
  (value : Bytes)

include hnames h

/-- The blob is in place, the index is not saved yet. -/
theorem Holds.putFile : Holds digest (d.set (hashKey digest key) value) index m ∨
    Holds digest (d.set (hashKey digest key) value) index (m.update key (some value)) := by
  have hsaved : loadIndex (d.set (hashKey digest key) value) = .ok index := by
    rw [loadIndex_congr (Dict.get?_set_ne _ _ (hashKey_ne_indexFile key).symm)]
    exact h.saved
  have hnew := h.change key h.named hsaved (fun _ _ => rfl)
    (fun k hne => Dict.get?_set_ne d value (fun heq => hne (hnames heq)))
  cases hk : index.get? key with
  | none =>
    have hm : m key = none := by rw [← h.contents key, hk]; rfl
    rw [hk, Option.bind_none, ← hm, PlainMap.update_self] at hnew
    exact Or.inl hnew
  | some name =>
    rw [hk, h.named key name hk, Option.bind_some, Dict.get?_set_self] at hnew
    exact Or.inr hnew

/-- The blob is in place, and so is the index. -/
theorem Holds.putSaved {d₁ : Disk UInt8}
    (hd₁ : SameBut (hashKey digest key ++ ".tmp") (d.set (hashKey digest key) value) d₁) :
    Holds digest (d₁.set indexFile (utf8 (indexText (putIndex digest index key)))) (putIndex digest index key)
      (m.update key (some value)) := by
  have hindex : ∀ k, k ≠ key → (putIndex digest index key).get? k = index.get? k := by
    intro k hne
    rw [h.named.putIndex_get?, if_neg hne]
  have hv : ((putIndex digest index key).get? key).bind d₁.get? = some value := by
    rw [h.named.putIndex_get?, if_pos rfl, Option.bind_some, hd₁ _ (hashKey_ne_tmp key _), Dict.get?_set_self]
  rcases h.putFile hnames key value with hfile | hfile
  · exact (hfile.sameBut hd₁).saveIndex key (h.named.putIndex key) hindex hv
  · have hnew := (hfile.sameBut hd₁).saveIndex key (h.named.putIndex key) hindex hv
    rwa [PlainMap.update_update] at hnew

theorem Holds.put : Holds digest (runSteps d (LocalFileKVStore.putSteps digest index key value))
    (putIndex digest index key) (m.update key (some value)) := by
  rw [h.named.putSteps, runSteps_append]
  exact (h.putSaved hnames key value (runSteps_replaceSteps d _ _ value)).sameBut (runSteps_replaceSteps _ _ _ _)

/-- An interrupted `put` has happened or not. -/
theorem Holds.crashPut (done : Nat) (torn : Option Nat) : ∃ index',
    Holds digest (crashed d (LocalFileKVStore.putSteps digest index key value) done torn) index' m ∨
    Holds digest (crashed d (LocalFileKVStore.putSteps digest index key value) done torn) index'
      (m.update key (some value)) := by
  rw [h.named.putSteps]
  rcases crashed_append d (replaceSteps (hashKey digest key ++ ".tmp") (hashKey digest key) value)
    (saveSteps (putIndex digest index key)) done torn with ⟨done', hcrash⟩ | ⟨done', hcrash⟩
  · rw [hcrash]
    rcases crashed_replaceSteps d (hashKey digest key ++ ".tmp") (hashKey digest key) value done' torn
      with hsame | hsame
    · exact ⟨index, Or.inl (h.sameBut hsame)⟩
    · refine ⟨index, (h.putFile hnames key value).imp ?_ ?_⟩ <;> exact fun hfile => hfile.sameBut hsame
  · rw [hcrash]
    have hd₁ := runSteps_replaceSteps d (hashKey digest key ++ ".tmp") (hashKey digest key) value
    rcases crashed_replaceSteps (runSteps d (replaceSteps (hashKey digest key ++ ".tmp") (hashKey digest key) value))
      (indexFile ++ ".tmp") indexFile (utf8 (indexText (putIndex digest index key))) done' torn with hsame | hsame
    · refine ⟨index, (h.putFile hnames key value).imp ?_ ?_⟩ <;>
        exact fun hfile => (hfile.sameBut hd₁).sameBut hsame
    · exact ⟨putIndex digest index key, Or.inr ((h.putSaved hnames key value hd₁).sameBut hsame)⟩

end Put

section Remove
variable (hnames : Function.Injective (hashKey digest)) (h : Holds digest d index m) (key : String)

theorem Holds.absent (h : Holds digest d index m) (hk : index.get? key = none) : m.update key none = m := by
  have hm : m key = none := by rw [← h.contents key, hk]; rfl
  rw [← hm, PlainMap.update_self]

/-- Between the unlink and the save the key is listed without a file, and reads as missing. -/
theorem Holds.removeSaved (h : Holds digest d index m) (key : String) {d₁ : Disk UInt8}
    (hd₁ : Holds digest d₁ index (m.update key none)) :
    Holds digest (d₁.set indexFile (utf8 (indexText (index.erase key)))) (index.erase key)
      (m.update key none) := by
  have hnew := hd₁.saveIndex key (h.named.erase key)
    (fun k hne => by rw [Dict.get?_erase, if_neg hne])
    (v := none) (by rw [Dict.get?_erase, if_pos rfl, Option.bind_none])
  rwa [PlainMap.update_update] at hnew

include hnames h

/-- The file is gone, the index still names it. -/
theorem Holds.unlinked : Holds digest (d.erase (hashKey digest key)) index (m.update key none) := by
  have hsaved : loadIndex (d.erase (hashKey digest key)) = .ok index := by
    have hfile : (d.erase (hashKey digest key)).get? indexFile = d.get? indexFile := by
      rw [Dict.get?_erase, if_neg (hashKey_ne_indexFile key).symm]
    rw [loadIndex_congr hfile]
    exact h.saved
  have hnew := h.change key h.named hsaved (fun _ _ => rfl) (fun k hne => by
    rw [Dict.get?_erase, if_neg (fun heq => hne (hnames heq))])
  have hgone : (index.get? key).bind (d.erase (hashKey digest key)).get? = none := by
    cases hk : index.get? key with
    | none => rfl
    | some name => rw [Option.bind_some, Dict.get?_erase, if_pos (h.named key name hk)]
  rwa [hgone] at hnew

/-- The files as `remove` leaves them before it saves the index. -/
theorem Holds.unlinkSteps :
    Holds digest (runSteps d (if (d.get? (hashKey digest key)).isSome then [.unlink (hashKey digest key)] else []))
      index (m.update key none) := by
  split
  · exact h.unlinked hnames key
  · rename_i hfile
    have hm : m key = none := by
      rw [← h.contents key]
      cases hk : index.get? key with
      | none => rfl
      | some name => rwa [h.named key name hk, Option.bind_some, ← Option.not_isSome_iff_eq_none]
    rw [← hm, PlainMap.update_self]
    exact h

theorem Holds.remove :
    Holds digest (runSteps d (removeSteps ⟨index, d⟩ key)) (index.erase key) (m.update key none) := by
  cases hk : index.get? key with
  | none =>
    rw [h.named.removeSteps_none hk, h.absent key hk, Dict.erase_absent _ hk]
    exact h
  | some name =>
    rw [h.named.removeSteps_some hk, runSteps_append]
    exact (h.removeSaved key (h.unlinkSteps hnames key)).sameBut (runSteps_replaceSteps _ _ _ _)

/-- An interrupted `remove` has happened or not. -/
theorem Holds.crashRemove (done : Nat) (torn : Option Nat) : ∃ index',
    Holds digest (crashed d (removeSteps ⟨index, d⟩ key) done torn) index' m ∨
    Holds digest (crashed d (removeSteps ⟨index, d⟩ key) done torn) index' (m.update key none) := by
  cases hk : index.get? key with
  | none =>
    rw [h.named.removeSteps_none hk]
    exact ⟨index, Or.inl h⟩
  | some name =>
    rw [h.named.removeSteps_some hk]
    have hunlinked := h.unlinkSteps hnames key
    rcases crashed_append d (if (d.get? (hashKey digest key)).isSome then [.unlink (hashKey digest key)] else [])
      (saveSteps (index.erase key)) done torn with ⟨done', hcrash⟩ | ⟨done', hcrash⟩
    · rw [hcrash]
      rcases crashed_unlink d (hashKey digest key) (d.get? (hashKey digest key)).isSome done' torn with heq | heq
      · rw [heq]
        exact ⟨index, Or.inl h⟩
      · rw [heq]
        exact ⟨index, Or.inr hunlinked⟩
    · rw [hcrash]
      rcases crashed_replaceSteps (runSteps d _) (indexFile ++ ".tmp") indexFile
        (utf8 (indexText (index.erase key))) done' torn with hsame | hsame
      · exact ⟨index, Or.inr (hunlinked.sameBut hsame)⟩
      · exact ⟨index.erase key, Or.inr ((h.removeSaved key hunlinked).sameBut hsame)⟩

end Remove

/-- Each operation succeeds and does what it does to the plain map. -/
theorem Holds.step (hnames : Function.Injective (hashKey digest)) (h : Holds digest d index m) (op : FileOp) :
    ∃ index' d' m' answer, LocalFileKVStore.step digest ⟨index, d⟩ op = .ok (⟨index', d'⟩, answer) ∧
      PlainStep m op m' answer ∧ Holds digest d' index' m' := by
  cases op with
  | put key value => exact ⟨_, _, _, _, rfl, .put key value, h.put hnames key value⟩
  | get key =>
    refine ⟨_, _, _, _, rfl, ?_, h⟩
    rw [h.get]
    exact .get key
  | remove key => exact ⟨_, _, _, _, rfl, .remove key, h.remove hnames key⟩
  | reopen => exact ⟨_, _, _, _, by simp only [LocalFileKVStore.step, h.init]; rfl, .reopen, h⟩
  | crashPut key value done torn =>
    obtain ⟨index', hcrash | hcrash⟩ := h.crashPut hnames key value done torn
    · exact ⟨_, _, _, _, by simp only [LocalFileKVStore.step, hcrash.init]; rfl, .putNot key value done torn,
        hcrash⟩
    · exact ⟨_, _, _, _, by simp only [LocalFileKVStore.step, hcrash.init]; rfl, .putDone key value done torn,
        hcrash⟩
  | crashRemove key done torn =>
    obtain ⟨index', hcrash | hcrash⟩ := h.crashRemove hnames key done torn
    · exact ⟨_, _, _, _, by simp only [LocalFileKVStore.step, hcrash.init]; rfl, .removeNot key done torn, hcrash⟩
    · exact ⟨_, _, _, _, by simp only [LocalFileKVStore.step, hcrash.init]; rfl, .removeDone key done torn, hcrash⟩

theorem Holds.runOps (hnames : Function.Injective (hashKey digest)) (h : Holds digest d index m)
    (ops : List FileOp) : ∃ index' d' m' answers,
      LocalFileKVStore.runOps digest ⟨index, d⟩ ops = .ok (⟨index', d'⟩, answers) ∧
      PlainRun m ops m' answers ∧ Holds digest d' index' m' := by
  induction ops generalizing d index m with
  | nil => exact ⟨_, _, _, _, rfl, .nil m, h⟩
  | cons op ops ih =>
    obtain ⟨index₁, d₁, m₁, answer, hstep, hplain, h₁⟩ := h.step hnames op
    obtain ⟨index', d', m', answers, hrun, hrest, h'⟩ := ih h₁
    exact ⟨index', d', m', answer :: answers, by simp only [LocalFileKVStore.runOps, hstep, hrun],
      .cons hplain hrest, h'⟩

/-- Whatever crashes: every instance loads, and the store answers as a plain map to
which each interrupted operation happened as a whole or not at all. -/
theorem crashes_are_atomic (digest : Bytes → Bytes) (hnames : Function.Injective (hashKey digest))
    (ops : List FileOp) : ∃ s₀ s m answers, init ∅ = .ok s₀ ∧ s₀.runOps digest ops = .ok (s, answers) ∧
      PlainRun (fun _ => none) ops m answers ∧ ∀ key, s.get key = m key := by
  obtain ⟨index, d, m, answers, hrun, hplain, h⟩ := holds_empty.runOps hnames ops
  exact ⟨⟨∅, ∅⟩, ⟨index, d⟩, m, answers, rfl, hrun, hplain, h.get⟩

theorem hashKey_injective (hdigest : Function.Injective digest) : Function.Injective (hashKey digest) := by
  intro k k' h
  have hchars := congrArg String.toList h
  rw [hashKey_toList, hashKey_toList] at hchars
  exact utf8_injective (hdigest (hex_injective (String.toList_injective (List.append_cancel_right hchars))))

/-- Killed within a blob's and an index's temporary write, and after an unlink. -/
theorem crashes_are_atomic_torn_writes : ∃ s₀ s m answers, init ∅ = .ok s₀ ∧
    s₀.runOps id [.put "a" [1], .crashPut "a" [2, 3] 0 (some 1), .get "a", .crashPut "b" [4] 2 (some 7), .get "b",
      .crashRemove "a" 1 none, .get "a", .put "a" [5], .reopen, .get "a"] = .ok (s, answers) ∧
    PlainRun (fun _ => none) [.put "a" [1], .crashPut "a" [2, 3] 0 (some 1), .get "a", .crashPut "b" [4] 2 (some 7),
      .get "b", .crashRemove "a" 1 none, .get "a", .put "a" [5], .reopen, .get "a"] m answers ∧
    ∀ key, s.get key = m key :=
  crashes_are_atomic id (hashKey_injective Function.injective_id) _

end CacheSeek.Proofs.LocalFileCrash
