import CacheSeek.Proofs.LocalFileCrash

namespace CacheSeek.Proofs.FailedPut
open CacheSeek.Lib CacheSeek.Prefix CacheSeek.Stores LocalFileKVStore CacheSeek.Proofs.LocalFileCrash

variable {digest : Bytes → Bytes} {d d' d'' : Disk UInt8} {index : Dict String String}

def SameFiles (d d' : Disk UInt8) : Prop := ∀ path, (∀ file, path ≠ file ++ ".tmp") → d'.get? path = d.get? path

theorem SameFiles.refl (d : Disk UInt8) : SameFiles d d := fun _ _ => rfl

theorem SameFiles.trans (h : SameFiles d d') (h' : SameFiles d' d'') : SameFiles d d'' :=
  fun path hp => (h' path hp).trans (h path hp)

/-- A difference in a temporary file does not count. -/
theorem SameFiles.of_sameBut {file : String} (h : SameBut (file ++ ".tmp") d d') : SameFiles d d' :=
  fun path hp => h path (hp file)

theorem SameFiles.set (h : SameFiles d d') (path : String) (data : Bytes) :
    SameFiles (d.set path data) (d'.set path data) := by
  intro p hp
  rw [Dict.get?_set, Dict.get?_set, h p hp]

theorem SameFiles.erase (h : SameFiles d d') (path : String) : SameFiles (d.erase path) (d'.erase path) := by
  intro p hp
  rw [Dict.get?_erase, Dict.get?_erase, h p hp]

theorem SameFiles.blob (h : SameFiles d d') (key : String) :
    d'.get? (hashKey digest key) = d.get? (hashKey digest key) := h _ fun file => hashKey_ne_tmp key file

theorem SameFiles.loadIndex (h : SameFiles d d') : loadIndex d' = loadIndex d :=
  loadIndex_congr (h indexFile indexFile_ne_tmp)

theorem sameFiles_saveSteps (d : Disk UInt8) (index : Dict String String) :
    SameFiles (d.set indexFile (utf8 (indexText index))) (runSteps d (saveSteps index)) :=
  .of_sameBut (runSteps_replaceSteps d _ _ _)

/-- A save of the index that raises leaves the index file as it was. -/
theorem saveSteps_raising (d : Disk UInt8) (index : Dict String String) (done : Nat) (hdone : done < 2)
    (torn : Option Nat) : SameFiles d (crashed d (saveSteps index) done torn) := by
  have hset : ∀ data : Bytes, SameFiles d (d.set (indexFile ++ ".tmp") data) := fun data =>
    .of_sameBut (SameBut.set (indexFile ++ ".tmp") d data)
  match done, torn with
  | 0, none => exact .refl d
  | 0, some k => exact hset _
  | 1, _ => exact hset _

theorem put_files (h : Named digest index) (key : String) (value : Bytes) :
    SameFiles ((d.set (hashKey digest key) value).set indexFile (utf8 (indexText (putIndex digest index key))))
      ((⟨index, d⟩ : LocalFileKVStore).put digest key value).disk := by
  simp only [LocalFileKVStore.put, h.putSteps, runSteps_append]
  exact (SameFiles.of_sameBut (runSteps_replaceSteps d _ _ value)).set _ _ |>.trans (sameFiles_saveSteps _ _)

/-- Before the rename the files are as they were; after it the blob is the new one. -/
theorem failPut_files (h : Named digest index) (key : String) (value : Bytes) (step : PutStep) (torn : Option Nat) :
    SameFiles (if step.done < 2 then d else d.set (hashKey digest key) value)
      ((⟨index, d⟩ : LocalFileKVStore).failPut digest key value step torn).disk := by
  have htmp : ∀ data : Bytes, SameFiles d (d.set (hashKey digest key ++ ".tmp") data) := fun data =>
    .of_sameBut (SameBut.set (hashKey digest key ++ ".tmp") d data)
  have hblob : SameFiles (d.set (hashKey digest key) value)
      (runSteps d (replaceSteps (hashKey digest key ++ ".tmp") (hashKey digest key) value)) :=
    .of_sameBut (runSteps_replaceSteps d _ _ value)
  simp only [LocalFileKVStore.failPut, h.putSteps]
  cases step with
  | writeTemp =>
    cases torn with
    | none => exact .refl d
    | some k => exact htmp _
  | rename => exact htmp _
  | writeIndex => exact hblob.trans (saveSteps_raising _ _ 0 (by decide) torn)
  | renameIndex => exact hblob.trans (saveSteps_raising _ _ 1 (by decide) torn)

theorem sameFiles_unlink (d : Disk UInt8) (path : String) :
    SameFiles (d.erase path) (runSteps d (if (d.get? path).isSome then [.unlink path] else [])) := by
  split
  · exact .refl _
  · rename_i habsent
    intro p _
    rw [Dict.get?_erase]
    split
    · rename_i hp
      rw [hp]
      exact Option.not_isSome_iff_eq_none.mp habsent
    · rfl

theorem remove_files (h : Named digest index) (key : String) :
    SameFiles (if index.get? key = none then d
        else (d.erase (hashKey digest key)).set indexFile (utf8 (indexText (index.erase key))))
      ((⟨index, d⟩ : LocalFileKVStore).remove key).disk := by
  simp only [LocalFileKVStore.remove]
  cases hk : index.get? key with
  | none =>
    rw [h.removeSteps_none hk, if_pos rfl]
    exact .refl d
  | some name =>
    rw [h.removeSteps_some hk, runSteps_append, if_neg (Option.some_ne_none name)]
    exact ((sameFiles_unlink d _).set _ _).trans (sameFiles_saveSteps _ _)

/-- The file is gone once it is unlinked, and the index file names it still. -/
theorem failRemove_files (h : Named digest index) (key : String) (step : RemoveStep) (torn : Option Nat) :
    SameFiles (if index.get? key = none ∨ step = .unlink then d else d.erase (hashKey digest key))
      ((⟨index, d⟩ : LocalFileKVStore).failRemove key step torn).disk := by
  simp only [LocalFileKVStore.failRemove, h.filename]
  cases hk : index.get? key with
  | none =>
    rw [h.removeSteps_none hk, if_pos (Or.inl rfl)]
    exact .refl d
  | some name =>
    have hname := h key name hk
    subst hname
    rw [h.removeSteps_some hk, Option.bind_some]
    have hunlink := sameFiles_unlink d (hashKey digest key)
    cases hd : d.get? (hashKey digest key) with
    | none =>
      rw [hd] at hunlink
      have hsame : SameFiles (d.erase (hashKey digest key)) d := hunlink
      cases step with
      | unlink => exact saveSteps_raising d _ 0 (by decide) torn
      | writeIndex => exact hsame.trans (saveSteps_raising d _ 0 (by decide) torn)
      | renameIndex => exact hsame.trans (saveSteps_raising d _ 1 (by decide) torn)
    | some data =>
      cases step with
      | unlink => exact .refl d
      | writeIndex => exact saveSteps_raising (d.erase (hashKey digest key)) _ 0 (by decide) torn
      | renameIndex => exact saveSteps_raising (d.erase (hashKey digest key)) _ 1 (by decide) torn

/-- The index in memory and the one on disk name each file by its key's hash. -/
structure Sane (digest : Bytes → Bytes) (s : LocalFileKVStore) : Prop where
  named : Named digest s.index
  saved : ∃ index, loadIndex s.disk = .ok index ∧ Named digest index

/-- The same index and the same files, temporary ones apart. -/
structure Alike (s s' : LocalFileKVStore) : Prop where
  index : s'.index = s.index
  files : SameFiles s.disk s'.disk

theorem SameFiles.symm (h : SameFiles d d') : SameFiles d' d := fun path hp => (h path hp).symm

theorem sane_empty : Sane digest ⟨∅, ∅⟩ :=
  ⟨(fun _ _ hk => by cases hk), ∅, rfl, (fun _ _ hk => by cases hk)⟩

variable {s s' : LocalFileKVStore}

theorem Alike.get (hs : Named digest s.index) (h : Alike s s') (key : String) : s'.get key = s.get key := by
  simp only [LocalFileKVStore.get, h.index, hs.filename]
  cases hk : s.index.get? key with
  | none => rfl
  | some name =>
    rw [hs key name hk]
    exact h.files.blob key

/-- The index file alone counts on disk. -/
theorem Sane.sameIndex (h : Sane digest s) (hload : loadIndex d = loadIndex s.disk) (hindex : Named digest index) :
    Sane digest ⟨index, d⟩ := by
  obtain ⟨saved, hsaved, hnamed⟩ := h.saved
  exact ⟨hindex, saved, hload.trans hsaved, hnamed⟩

theorem Sane.files (h : Sane digest s) (hfiles : SameFiles s.disk d) (hindex : Named digest index) :
    Sane digest ⟨index, d⟩ :=
  h.sameIndex hfiles.loadIndex hindex

theorem Sane.blob (h : Sane digest s) {key : String} {value : Bytes}
    (hfiles : SameFiles (s.disk.set (hashKey digest key) value) d) (hindex : Named digest index) :
    Sane digest ⟨index, d⟩ := by
  apply h.sameIndex _ hindex
  rw [hfiles.loadIndex, loadIndex_congr (Dict.get?_set_ne _ _ (hashKey_ne_indexFile key).symm)]

theorem Sane.unlinked (h : Sane digest s) {key : String} (hfiles : SameFiles (s.disk.erase (hashKey digest key)) d)
    (hindex : Named digest index) : Sane digest ⟨index, d⟩ := by
  have hfile : (s.disk.erase (hashKey digest key)).get? indexFile = s.disk.get? indexFile := by
    rw [Dict.get?_erase, if_neg (hashKey_ne_indexFile key).symm]
  apply h.sameIndex _ hindex
  rw [hfiles.loadIndex, loadIndex_congr hfile]

theorem loadIndex_stored {d₁ : Disk UInt8} (hfiles : SameFiles (d.set indexFile (utf8 (indexText index))) d₁) :
    loadIndex d₁ = .ok index := by
  rw [hfiles.loadIndex]
  exact loadIndex_saved (Dict.get?_set_self _ _ _)

theorem sane_saved {d₁ : Disk UInt8} (hindex : Named digest index)
    (hfiles : SameFiles (d.set indexFile (utf8 (indexText index))) d₁) : Sane digest ⟨index, d₁⟩ :=
  ⟨hindex, index, loadIndex_stored hfiles, hindex⟩

theorem failPut_sane (h : Sane digest s) (key : String) (value : Bytes) (step : PutStep) (torn : Option Nat) :
    Sane digest (s.failPut digest key value step torn) := by
  have hfiles := @failPut_files digest s.disk s.index h.named key value step torn
  split at hfiles
  · exact h.files hfiles (h.named.putIndex key)
  · exact h.blob hfiles (h.named.putIndex key)

/-- Every call of a store that names its files well is carried out, and so leaves it. -/
theorem call_sane (h : Sane digest s) (c : FileCall) : ∃ t, s.call digest c = .ok t ∧ Sane digest t := by
  cases c with
  | put key value => exact ⟨_, rfl, sane_saved (h.named.putIndex key) (put_files h.named key value)⟩
  | get key => exact ⟨s, rfl, h⟩
  | listKeys => exact ⟨s, rfl, h⟩
  | remove key =>
    refine ⟨_, rfl, ?_⟩
    have hfiles := @remove_files digest s.disk s.index h.named key
    split at hfiles
    · exact h.files hfiles (h.named.erase key)
    · exact sane_saved (h.named.erase key) hfiles
  | reopen =>
    obtain ⟨saved, hload, hnamed⟩ := h.saved
    exact ⟨⟨saved, s.disk⟩, by simp only [call, init, hload]; rfl, hnamed, saved, hload, hnamed⟩
  | failPut key value step torn => exact ⟨_, rfl, failPut_sane h key value step torn⟩
  | failRemove key step torn =>
    refine ⟨_, rfl, ?_⟩
    have hfiles := @failRemove_files digest s.disk s.index h.named key step torn
    split at hfiles
    · exact h.files hfiles (h.named.erase key)
    · exact h.unlinked hfiles (h.named.erase key)

/-- Stores that are alike stay so. -/
theorem call_alike (h : Sane digest s) (ha : Alike s s') (c : FileCall) :
    ∃ t t', s.call digest c = .ok t ∧ s'.call digest c = .ok t' ∧ Alike t t' := by
  obtain ⟨index, d⟩ := s
  obtain ⟨index', d'⟩ := s'
  obtain ⟨hindex, hfiles⟩ := ha
  dsimp only at hindex hfiles
  subst hindex
  have hn := h.named
  cases c with
  | put key value =>
    exact ⟨_, _, rfl, rfl, rfl, (put_files hn key value).symm.trans
      (((hfiles.set _ _).set _ _).trans (put_files hn key value))⟩
  | get key => exact ⟨_, _, rfl, rfl, rfl, hfiles⟩
  | listKeys => exact ⟨_, _, rfl, rfl, rfl, hfiles⟩
  | remove key =>
    refine ⟨_, _, rfl, rfl, rfl, (remove_files hn key).symm.trans (.trans ?_ (remove_files hn key))⟩
    split
    · exact hfiles
    · exact (hfiles.erase _).set _ _
  | reopen =>
    obtain ⟨saved, hload, _⟩ := h.saved
    refine ⟨⟨saved, d⟩, ⟨saved, d'⟩, by simp only [call, init, hload]; rfl, ?_, rfl, hfiles⟩
    simp only [call, init, hfiles.loadIndex, hload]
    rfl
  | failPut key value step torn =>
    refine ⟨_, _, rfl, rfl, rfl, (failPut_files hn key value step torn).symm.trans
      (.trans ?_ (failPut_files hn key value step torn))⟩
    split
    · exact hfiles
    · exact hfiles.set _ _
  | failRemove key step torn =>
    refine ⟨_, _, rfl, rfl, rfl, (failRemove_files hn key step torn).symm.trans
      (.trans ?_ (failRemove_files hn key step torn))⟩
    split
    · exact hfiles
    · exact hfiles.erase _

theorem runCalls_sane (h : Sane digest s) (calls : List FileCall) :
    ∃ t, s.runCalls digest calls = .ok t ∧ Sane digest t := by
  induction calls generalizing s with
  | nil => exact ⟨s, rfl, h⟩
  | cons c calls ih =>
    obtain ⟨t, hcall, ht⟩ := call_sane h c
    simp only [runCalls, hcall]
    exact ih ht

/-- Two stores alike stay alike through the same calls. -/
theorem runCalls_alike (h : Sane digest s) (ha : Alike s s') (calls : List FileCall) :
    ∃ t t', s.runCalls digest calls = .ok t ∧ s'.runCalls digest calls = .ok t' ∧ Sane digest t ∧ Alike t t' := by
  induction calls generalizing s s' with
  | nil => exact ⟨s, s', rfl, rfl, h, ha⟩
  | cons c calls ih =>
    obtain ⟨t, t', hcall, hcall', hta⟩ := call_alike h ha c
    obtain ⟨u, hu, ht⟩ := call_sane h c
    rw [hcall] at hu
    cases hu
    simp only [runCalls, hcall, hcall']
    exact ih ht hta

def observe (r : Except IndexError LocalFileKVStore) : Except IndexError (List String × (String → Option Bytes)) :=
  r.map fun s => (s.listKeys, s.get)

/-- Whatever is called later, the two stores answer the same. -/
def Unnoticed (digest : Bytes → Bytes) (s s' : LocalFileKVStore) : Prop :=
  ∀ later, observe (s'.runCalls digest later) = observe (s.runCalls digest later)

/-- The key is there, and the put raises before the rename or the value is there too. -/
def Unfelt (s : LocalFileKVStore) (key : String) (value : Bytes) (step : PutStep) : Prop :=
  key ∈ s.listKeys ∧ (step = .writeTemp ∨ step = .rename ∨ s.get key = some value)

theorem unnoticed_of_alike (h : Sane digest s) (ha : Alike s s') : Unnoticed digest s s' := by
  intro later
  obtain ⟨t, t', ht, ht', hsane, halike⟩ := runCalls_alike h ha later
  have hget : t'.get = t.get := funext (halike.get hsane.named)
  simp only [observe, ht, ht', Except.map, LocalFileKVStore.listKeys, halike.index, hget]

/-- A put raises either before its blob file is in place or after. -/
theorem early_or_late (step : PutStep) : step = .writeTemp ∨ step = .rename ∨ 2 ≤ step.done := by
  cases step <;> simp [PutStep.done]

/-- An unfelt put leaves index and files as they were. -/
theorem failPut_alike (h : Sane digest s) {key : String} {value : Bytes} {step : PutStep} {torn : Option Nat}
    (hunfelt : Unfelt s key value step) : Alike s (s.failPut digest key value step torn) := by
  obtain ⟨hkey, hstep⟩ := hunfelt
  obtain ⟨name, hk⟩ := Dict.mem_keys.mp hkey
  have hname := h.named key name hk
  subst hname
  have hindex : putIndex digest s.index key = s.index := by simp only [putIndex, h.named.filename, hk]
  have hfiles := @failPut_files digest s.disk s.index h.named key value step torn
  refine ⟨hindex, ?_⟩
  split at hfiles
  · exact hfiles
  · rename_i hdone
    have hvalue : s.disk.get? (hashKey digest key) = some value := by
      rcases hstep with rfl | rfl | hget
      · exact absurd (by decide) hdone
      · exact absurd (by decide) hdone
      · simpa only [LocalFileKVStore.get, h.named.filename, hk] using hget
    refine SameFiles.trans (fun path _ => ?_) hfiles
    rw [Dict.get?_set]
    split
    · rename_i hp
      rw [hp, hvalue]
    · rfl

theorem unfelt_of_unnoticed (h : Sane digest s) {key : String} {value : Bytes} {step : PutStep} {torn : Option Nat}
    (hsame : Unnoticed digest s (s.failPut digest key value step torn)) : Unfelt s key value step := by
  have hnow := hsame []
  simp only [observe, runCalls, Except.map, Except.ok.injEq, Prod.mk.injEq] at hnow
  obtain ⟨hkeys, hget⟩ := hnow
  have hput : (s.failPut digest key value step torn).index = putIndex digest s.index key := rfl
  constructor
  · rw [← hkeys]
    exact Dict.mem_keys.mpr ⟨hashKey digest key, by rw [hput, h.named.putIndex_get?, if_pos rfl]⟩
  · rcases early_or_late step with hstep | hstep | hdone
    · exact Or.inl hstep
    · exact Or.inr (Or.inl hstep)
    · -- the new value is in place
      right
      right
      have hfiles := @failPut_files digest s.disk s.index h.named key value step torn
      rw [if_neg (Nat.not_lt.mpr hdone)] at hfiles
      rw [← hget]
      simp only [LocalFileKVStore.get, hput, (h.named.putIndex key).filename, h.named.putIndex_get?, if_pos]
      rw [hfiles.blob, Dict.get?_set_self]

def FileCall.raisesPut : FileCall → Bool
  | .failPut _ _ _ _ => true
  | _ => false

def PutsUnfelt (digest : Bytes → Bytes) : LocalFileKVStore → List FileCall → Prop
  | _, [] => True
  | s, c :: calls =>
    (∀ key value step torn, c = .failPut key value step torn → Unfelt s key value step) ∧
      ∀ t, s.call digest c = .ok t → PutsUnfelt digest t calls

theorem Alike.symm (h : Alike s s') : Alike s' s := ⟨h.index.symm, h.files.symm⟩

theorem Alike.trans {s'' : LocalFileKVStore} (h : Alike s s') (h' : Alike s' s'') : Alike s s'' :=
  ⟨h'.index.trans h.index, h.files.trans h'.files⟩

theorem Sane.alike (h : Sane digest s) (ha : Alike s s') : Sane digest s' := by
  obtain ⟨index', d'⟩ := s'
  obtain ⟨hindex, hfiles⟩ := ha
  dsimp only at hindex hfiles
  subst hindex
  exact h.files hfiles h.named

/-- The calls without the puts that raise leave the same. -/
theorem run_unfelt (h : Sane digest s) (ha : Alike s' s) {calls : List FileCall} (hunfelt : PutsUnfelt digest s calls) :
    ∃ t t', s.runCalls digest calls = .ok t ∧
      s'.runCalls digest (calls.filter fun c => !FileCall.raisesPut c) = .ok t' ∧ Sane digest t ∧ Alike t' t := by
  induction calls generalizing s s' with
  | nil => exact ⟨s, s', rfl, rfl, h, ha⟩
  | cons c calls ih =>
    obtain ⟨hc, hrest⟩ := hunfelt
    obtain ⟨t, hcall, ht⟩ := call_sane h c
    simp only [runCalls, hcall]
    cases hraises : FileCall.raisesPut c with
    | false =>
      obtain ⟨u, u', hu, hu', hua⟩ := call_alike h ha.symm c
      rw [hcall] at hu
      cases hu
      simp only [List.filter_cons, hraises, Bool.not_false, if_true, runCalls, hu']
      exact ih ht hua.symm (hrest t hcall)
    | true =>
      cases c with
      | failPut key value step torn =>
        cases hcall
        simp only [List.filter_cons, hraises, Bool.not_true, Bool.false_eq_true, if_false]
        exact ih ht (ha.trans (failPut_alike h (hc key value step torn rfl))) (hrest _ rfl)
      | _ => cases hraises

structure Backed (digest : Bytes → Bytes) (K : String → Prop) (s : LocalFileKVStore) : Prop where
  memory : ∀ {key}, s.index.get? key ≠ none → K key ∧ s.disk.get? (hashKey digest key) ≠ none
  saved : ∀ {index key}, loadIndex s.disk = .ok index → index.get? key ≠ none →
    K key ∧ s.disk.get? (hashKey digest key) ≠ none

variable {K : String → Prop}

theorem backed_empty : Backed digest K ⟨∅, ∅⟩ := by
  refine ⟨fun hk => absurd rfl hk, fun hload hk => ?_⟩
  cases hload
  exact absurd rfl hk

theorem Backed.files (h : Backed digest K s) (hfiles : SameFiles s.disk d)
    (hindex : ∀ key, index.get? key ≠ none → s.index.get? key ≠ none) : Backed digest K ⟨index, d⟩ := by
  refine ⟨fun {key} hk => ?_, fun {saved key} hload hk => ?_⟩
  · rw [hfiles.blob]
    exact h.memory (hindex key hk)
  · rw [hfiles.loadIndex] at hload
    rw [hfiles.blob]
    exact h.saved hload hk

theorem Backed.alike (h : Backed digest K s) (ha : Alike s s') : Backed digest K s' := by
  obtain ⟨index', d'⟩ := s'
  obtain ⟨hindex, hfiles⟩ := ha
  dsimp only at hindex hfiles
  subst hindex
  exact h.files hfiles fun _ hk => hk

theorem backed_saved {d₁ : Disk UInt8} (hfiles : SameFiles (d.set indexFile (utf8 (indexText index))) d₁)
    (h : ∀ {key}, index.get? key ≠ none → K key ∧ d.get? (hashKey digest key) ≠ none) :
    Backed digest K ⟨index, d₁⟩ := by
  have hmemory : ∀ {key}, index.get? key ≠ none → K key ∧ d₁.get? (hashKey digest key) ≠ none := by
    intro key hk
    rw [hfiles.blob, Dict.get?_set_ne _ _ (hashKey_ne_indexFile key)]
    exact h hk
  refine ⟨hmemory, fun {saved key} hload hk => ?_⟩
  rw [loadIndex_stored hfiles] at hload
  cases hload
  exact hmemory hk

theorem erase_get? {key k : String} (hk : (index.erase key).get? k ≠ none) : k ≠ key ∧ index.get? k ≠ none := by
  rw [Dict.get?_erase] at hk
  split at hk
  · exact absurd rfl hk
  · rename_i hne
    exact ⟨hne, hk⟩

def FileCall.key : FileCall → Option String
  | .put key _ => some key
  | .remove key => some key
  | _ => none

theorem call_backed (hnames : ∀ k k', K k → K k' → hashKey digest k = hashKey digest k' → k = k') (h : Sane digest s)
    (hb : Backed digest K s) {c : FileCall} (hkey : ∀ key, FileCall.key c = some key → K key)
    (hput : ∀ key value step torn, c = .failPut key value step torn → Unfelt s key value step)
    (hremove : ∀ key step torn, c = .failRemove key step torn → step = .unlink) {t : LocalFileKVStore}
    (hcall : s.call digest c = .ok t) : Backed digest K t := by
  cases c with
  | put key value =>
    cases hcall
    refine backed_saved (put_files h.named key value) fun {k} hk => ?_
    rw [h.named.putIndex_get?] at hk
    split at hk
    · rename_i heq
      subst k
      rw [Dict.get?_set_self]
      exact ⟨hkey key rfl, Option.some_ne_none value⟩
    · obtain ⟨h1, h2⟩ := hb.memory hk
      rw [Dict.get?_set]
      split
      · exact ⟨h1, Option.some_ne_none value⟩
      · exact ⟨h1, h2⟩
  | get key =>
    cases hcall
    exact hb
  | listKeys =>
    cases hcall
    exact hb
  | remove key =>
    cases hcall
    have hfiles := @remove_files digest s.disk s.index h.named key
    split at hfiles
    · exact hb.files hfiles fun k hk => (erase_get? hk).2
    · refine backed_saved hfiles fun {k} hk => ?_
      obtain ⟨hne, hk⟩ := erase_get? hk
      obtain ⟨h1, h2⟩ := hb.memory hk
      rw [Dict.get?_erase, if_neg fun heq => hne (hnames k key h1 (hkey key rfl) heq)]
      exact ⟨h1, h2⟩
  | reopen =>
    obtain ⟨saved, hload, _⟩ := h.saved
    simp only [call, init, hload] at hcall
    cases hcall
    exact ⟨fun hk => hb.saved hload hk, hb.saved⟩
  | failPut key value step torn =>
    cases hcall
    exact hb.alike (failPut_alike h (hput key value step torn rfl))
  | failRemove key step torn =>
    cases hcall
    have hfiles := @failRemove_files digest s.disk s.index h.named key step torn
    rw [if_pos (Or.inr (hremove key step torn rfl))] at hfiles
    exact hb.files hfiles fun k hk => (erase_get? hk).2

theorem run_backed (hnames : ∀ k k', K k → K k' → hashKey digest k = hashKey digest k' → k = k') (h : Sane digest s)
    (hb : Backed digest K s) {calls : List FileCall} (hkeys : ∀ c ∈ calls, ∀ key, FileCall.key c = some key → K key)
    (hputs : PutsUnfelt digest s calls) (hremoves : ∀ key step torn, .failRemove key step torn ∈ calls → step = .unlink)
    {t : LocalFileKVStore} (hr : s.runCalls digest calls = .ok t) : Backed digest K t := by
  induction calls generalizing s with
  | nil =>
    cases hr
    exact hb
  | cons c calls ih =>
    obtain ⟨hc, hrest⟩ := hputs
    obtain ⟨u, hcall, hu⟩ := call_sane h c
    simp only [runCalls, hcall] at hr
    refine ih hu (call_backed hnames h hb (hkeys c List.mem_cons_self) hc ?_ hcall)
      (fun c' hc' => hkeys c' (List.mem_cons_of_mem c hc')) (hrest u hcall)
      (fun key step torn hm => hremoves key step torn (List.mem_cons_of_mem c hm)) hr
    rintro key step torn rfl
    exact hremoves key step torn List.mem_cons_self

/-- Every listed key has a file to read. -/
theorem Backed.listKeys_iff (hb : Backed digest K s) (h : Sane digest s) (key : String) :
    key ∈ s.listKeys ↔ s.get key ≠ none := by
  simp only [LocalFileKVStore.listKeys, Dict.mem_keys, LocalFileKVStore.get, h.named.filename]
  cases hk : s.index.get? key with
  | none => simp
  | some name =>
    rw [h.named key name hk]
    exact iff_of_true ⟨_, rfl⟩ (hb.memory (by rw [hk]; exact Option.some_ne_none name)).2

/-- Of a put that raises nothing shows just when the key was there and the blob did not change;
while all puts that raise are like that the store answers as without them, and if no remove has
raised after it unlinked a file, the keys are those with a value. -/
theorem failed_put_unnoticed_iff (digest : Bytes → Bytes) (calls : List FileCall) (s : LocalFileKVStore)
    (hr : runCalls digest ⟨∅, ∅⟩ calls = .ok s) :
    (∀ key value step torn, Unnoticed digest s (s.failPut digest key value step torn) ↔ Unfelt s key value step) ∧
    (PutsUnfelt digest ⟨∅, ∅⟩ calls → ∃ t,
      runCalls digest ⟨∅, ∅⟩ (calls.filter fun c => !FileCall.raisesPut c) = .ok t ∧ Unnoticed digest t s) ∧
    (PutsUnfelt digest ⟨∅, ∅⟩ calls → (∀ key step torn, .failRemove key step torn ∈ calls → step = .unlink) →
      (∀ c ∈ calls, ∀ c' ∈ calls, ∀ k k', FileCall.key c = some k → FileCall.key c' = some k' →
        hashKey digest k = hashKey digest k' → k = k') → ∀ key, key ∈ s.listKeys ↔ s.get key ≠ none) := by
  obtain ⟨u, hu, hsane⟩ := runCalls_sane (@sane_empty digest) calls
  rw [hr] at hu
  cases hu
  refine ⟨fun key value step torn => ?_, fun hputs => ?_, fun hputs hremoves hnames key => ?_⟩
  · constructor
    · exact unfelt_of_unnoticed hsane
    · exact fun hunfelt => unnoticed_of_alike hsane (failPut_alike hsane hunfelt)
  · obtain ⟨t, t', ht, ht', _, ha⟩ := run_unfelt sane_empty ⟨rfl, .refl ∅⟩ hputs
    rw [hr] at ht
    cases ht
    exact ⟨t', ht', unnoticed_of_alike (hsane.alike ha.symm) ha⟩
  · have hb : Backed digest (fun k => ∃ c ∈ calls, FileCall.key c = some k) s := by
      refine run_backed ?_ sane_empty backed_empty (fun c hc k hk => ⟨c, hc, hk⟩) hputs hremoves hr
      rintro k k' ⟨c, hc, hk⟩ ⟨c', hc', hk'⟩ heq
      exact hnames c hc c' hc' k k' hk hk' heq
    exact hb.listKeys_iff hsane key

def retried : List FileCall := [.put "a" [1], .failPut "a" [2] .writeTemp (some 0), .reopen]

theorem failed_put_unnoticed_iff_retried : ∃ s, runCalls id ⟨∅, ∅⟩ retried = .ok s ∧
    (∀ key value step torn, Unnoticed id s (s.failPut id key value step torn) ↔ Unfelt s key value step) ∧
    (∃ t, runCalls id ⟨∅, ∅⟩ [.put "a" [1], .reopen] = .ok t ∧ Unnoticed id t s) ∧
    ∀ key, key ∈ s.listKeys ↔ s.get key ≠ none := by
  obtain ⟨s, hr, _⟩ := runCalls_sane (@sane_empty id) retried
  have hputs : PutsUnfelt id ⟨∅, ∅⟩ retried := by
    refine ⟨(fun _ _ _ _ hc => by cases hc), fun t ht => ?_⟩
    cases ht
    refine ⟨fun _ _ _ _ hc => ?_, fun t _ => ⟨(fun _ _ _ _ hc => by cases hc), fun _ _ => trivial⟩⟩
    cases hc
    exact ⟨List.mem_singleton_self "a", Or.inl rfl⟩
  have hkeys : ∀ c ∈ retried, ∀ k, FileCall.key c = some k → k = "a" := by
    intro c hc k hk
    simp only [retried, List.mem_cons, List.not_mem_nil, or_false] at hc
    rcases hc with rfl | rfl | rfl
    · exact (Option.some.inj hk).symm
    · cases hk
    · cases hk
  obtain ⟨h1, h2, h3⟩ := failed_put_unnoticed_iff id retried s hr
  refine ⟨s, hr, h1, h2 hputs, h3 hputs (fun key step torn hm => ?_) fun c hc c' hc' k k' hk hk' _ => ?_⟩
  · simp [retried] at hm
  · rw [hkeys c hc k hk, hkeys c' hc' k' hk']

/-- A new key is listed without a value, and an old one may have its new value. -/
theorem failed_put_shows :
    let failed := failPut id ⟨∅, ∅⟩ "a" [1] .writeTemp none
    let s := put id ⟨∅, ∅⟩ "a" [1]
    failed.listKeys = ["a"] ∧ failed.get "a" = none ∧ ¬ Unnoticed id ⟨∅, ∅⟩ failed ∧
      s.get "a" = some [1] ∧ (s.failPut id "a" [2] .writeIndex none).get "a" = some [2] := by
  refine ⟨rfl, rfl, fun hsame => ?_, rfl, rfl⟩
  have hkeys := congrArg (Except.map Prod.fst) (hsame [])
  cases hkeys

end CacheSeek.Proofs.FailedPut
