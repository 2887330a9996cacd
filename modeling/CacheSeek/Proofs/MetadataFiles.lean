import CacheSeek.Backends.LocalMetadata
import CacheSeek.Lib.JsonText

namespace CacheSeek.Proofs.MetadataFiles
open CacheSeek.Lib CacheSeek.Prefix CacheSeek.Stores CacheSeek.Backends.Metadata LocalCacheMetadataManager

/-- No entry is ever filed under the empty type. -/
theorem normalizeCacheType_ne_empty (cacheType : Option String) : normalizeCacheType cacheType ≠ "" := by
  unfold normalizeCacheType
  dsimp only
  split
  · decide
  · assumption

theorem bucket_set (index : PromptIndex) (t t' : String) (b : Dict String IndexEntry) :
    bucket (index.set t b) t' = if t' = t then b else bucket index t' := by
  rw [bucket, Dict.get?_set]
  split <;> rfl

def pruned (index : PromptIndex) : PromptIndex := index.filter fun _ b => !b.entries.isEmpty

theorem bucket_pruned (index : PromptIndex) (t : String) : bucket (pruned index) t = bucket index t := by
  rw [bucket, pruned, Dict.get?_filter, bucket]
  cases index.get? t with
  | none => rfl
  | some b =>
    cases hb : b.entries with
    | nil =>
      simp only [Option.filter_some, hb, List.isEmpty_nil, Bool.not_true, Bool.false_eq_true, if_false]
      exact Dict.ext hb.symm
    | cons e l => simp only [Option.filter_some, hb, List.isEmpty_cons, Bool.not_false, if_true]

/-- With the recorded type at hand only that bucket loses the entry. -/
theorem bucket_dropEntry_known (index : PromptIndex) (cacheId t t' : String) (ht : t ≠ "") :
    bucket (dropEntry index cacheId (some t)) t' =
      if t' = t then (bucket index t').erase cacheId else bucket index t' := by
  simp only [dropEntry, Option.filter_some, ne_eq, ht, not_false_eq_true, decide_true, if_true]
  cases hb : index.get? t with
  | none =>
    dsimp only
    split
    · rename_i heq
      rw [heq, bucket, hb]
      rfl
    · rfl
  | some b =>
    simp only [bucket_set]
    split
    · rename_i heq
      rw [heq, bucket, hb]
      rfl
    · rfl

/-- Without a recorded type every bucket loses it. -/
theorem bucket_dropEntry_unknown (index : PromptIndex) (cacheId t : String) :
    bucket (dropEntry index cacheId none) t = (bucket index t).erase cacheId := by
  rw [bucket, dropEntry, Option.filter_none, Dict.get?_mapValues, bucket]
  cases index.get? t <;> rfl

/-- Each entry stands under its own id, in the bucket of its own cache type. -/
def Filed (index : PromptIndex) : Prop := ∀ t b, index.get? t = some b →
  t ≠ "" ∧ ∀ cacheId entry, b.get? cacheId = some entry → entry.cacheId = cacheId ∧ entry.cacheType = t

theorem Filed.bucket {index : PromptIndex} (h : Filed index) {t cacheId : String} {entry : IndexEntry}
    (he : (bucket index t).get? cacheId = some entry) : entry.cacheId = cacheId ∧ entry.cacheType = t := by
  unfold LocalCacheMetadataManager.bucket at he
  cases hb : index.get? t with
  | none =>
    rw [hb] at he
    cases he
  | some b =>
    rw [hb] at he
    exact (h t b hb).2 cacheId entry he

theorem filed_empty : Filed ∅ := fun _ _ h => nomatch h

theorem Filed.set {index : PromptIndex} (h : Filed index) {t : String} (ht : t ≠ "") {b : Dict String IndexEntry}
    (hb : ∀ cacheId entry, b.get? cacheId = some entry → entry.cacheId = cacheId ∧ entry.cacheType = t) :
    Filed (index.set t b) := by
  intro t' b' hget
  rw [Dict.get?_set] at hget
  split at hget
  · rename_i heq
    cases hget
    rw [heq]
    exact ⟨ht, hb⟩
  · exact h t' b' hget

theorem Filed.register {index : PromptIndex} (h : Filed index) {t : String} (ht : t ≠ "") (cacheId prompt : String)
    (savedSteps : List Int) :
    Filed (index.set t ((LocalCacheMetadataManager.bucket index t).set cacheId ⟨cacheId, prompt, savedSteps, t⟩)) := by
  refine h.set ht fun id entry hget => ?_
  rw [Dict.get?_set] at hget
  split at hget
  · rename_i heq
    cases hget
    exact ⟨heq.symm, rfl⟩
  · exact h.bucket hget

theorem Filed.pruned {index : PromptIndex} (h : Filed index) : Filed (pruned index) := by
  intro t b hb
  rw [MetadataFiles.pruned, Dict.get?_filter, Option.filter_eq_some_iff] at hb
  exact h t b hb.1

theorem Filed.dropEntry {index : PromptIndex} (h : Filed index) (cacheId : String) (cacheType : Option String) :
    Filed (dropEntry index cacheId cacheType) := by
  have herase : ∀ t b, index.get? t = some b → ∀ id entry, (b.erase cacheId).get? id = some entry →
      entry.cacheId = id ∧ entry.cacheType = t := by
    intro t b hb id entry hget
    rw [Dict.get?_erase] at hget
    split at hget
    · cases hget
    · exact (h t b hb).2 id entry hget
  unfold LocalCacheMetadataManager.dropEntry
  split
  · rename_i t ht
    have hne : t ≠ "" := by simpa using (Option.filter_eq_some_iff.mp ht).2
    cases hb : index.get? t with
    | none => exact h
    | some b => exact h.set hne (herase t b hb)
  · intro t b hb
    rw [Dict.get?_mapValues] at hb
    obtain ⟨b', hb', rfl⟩ := Option.map_eq_some_iff.mp hb
    exact ⟨(h t b' hb').1, herase t b' hb'⟩

theorem readSteps_written (steps : List Int) : readSteps (.arr (steps.map .int)) = some steps := by
  have hsteps : (steps.map Json.int).mapM Json.asInt = some steps := by
    induction steps with
    | nil => rfl
    | cons x xs ih => simp [Json.asInt, ih]
  simp only [readSteps, Json.asArr, Option.bind_some, hsteps]

theorem readMeta_written (cacheId : String) (m : CacheMeta) : readMeta cacheId m.toJson = .ok (some m) := by
  have hread : CacheMeta.ofJson m.toJson = some m := by
    simp [CacheMeta.ofJson, CacheMeta.toJson, Json.get?, List.lookup_cons, Json.asStr, Json.asInt, Json.field,
      readSteps_written, readFloat]
  rw [readMeta, hread]

theorem readType_some (cacheType : String) {t : String} (ht : t ≠ "") :
    readType cacheType (some (.str t)) = some t := by
  simp [readType]

theorem readEntry_written {t : String} (ht : t ≠ "") (entry : IndexEntry) (htype : entry.cacheType = t) :
    readEntry t entry.cacheId (entryJson t entry) = .ok (some entry) := by
  have hne : entry.cacheType ≠ "" := htype ▸ ht
  simp [readEntry, entryJson, Json.get?, List.lookup_cons, Json.asStr, Json.fieldD, readSteps_written,
    readType_some, hne]

/-- A bucket written empty is not read back. -/
theorem readBucket_written {t : String} (ht : t ≠ "") (b : Dict String IndexEntry)
    (hb : ∀ cacheId entry, b.get? cacheId = some entry → entry.cacheId = cacheId ∧ entry.cacheType = t) :
    readBucket t (.obj (b.entries.map fun e => (e.1, entryJson t e.2))) =
      .ok (if !b.entries.isEmpty then some b else none) := by
  have hmembers : Dict.ofEntries (b.entries.map fun e => (e.1, entryJson t e.2)) = b.mapValues (entryJson t) :=
    Dict.ofEntries_entries (b.mapValues (entryJson t))
  have hread : Dict.collect (readEntry t) (b.mapValues (entryJson t)).entries ∅ = .ok b := by
    have hall := Dict.collect_written (readEntry t) (fun _ _ => true) (fun _ => entryJson t) b (by
      intro cacheId entry he
      obtain ⟨hid, htype⟩ := hb cacheId entry he
      rw [← hid]
      exact readEntry_written ht entry htype)
    rw [Dict.filter_all (fun _ _ _ => rfl)] at hall
    exact hall
  simp only [readBucket, hmembers, hread]
  cases hentries : b.entries <;> simp

theorem readJsonObject_written {disk : Disk UInt8} {path : String} {members : List (String × Json)} (label : String)
    (h : disk.get? path = some (utf8 (Json.dumps Json.defaultStyle (.obj members)))) :
    readJsonObject disk path label = .ok (some (Dict.ofEntries members)) := by
  simp only [readJsonObject, h, decodeUtf8_utf8, Json.loads_dumps]

/-- A written index reads back without its empty buckets. -/
theorem loadIndex_written {disk : Disk UInt8} {index : PromptIndex} (hfiled : Filed index)
    (h : disk.get? indexPath = some (utf8 (Json.dumps Json.defaultStyle (indexJson index)))) :
    loadIndex disk = .ok (pruned index) := by
  let write (t : String) (b : Dict String IndexEntry) : Json :=
    .obj (b.entries.map fun e => (e.1, entryJson t e.2))
  have hmembers : (Dict.ofEntries (index.entries.map fun b => (b.1, write b.1 b.2))).entries =
      index.entries.map fun b => (b.1, write b.1 b.2) :=
    Dict.ofEntries_nodup (by rw [List.map_map]; exact index.nodup)
  rw [loadIndex, readJsonObject_written _ h]
  change Dict.collect readBucket (Dict.ofEntries (index.entries.map fun b => (b.1, write b.1 b.2))).entries ∅ = _
  rw [hmembers]
  exact Dict.collect_written readBucket (fun _ b => !b.entries.isEmpty) write index
    (fun t b hb => readBucket_written (hfiled t b hb).1 b (hfiled t b hb).2)

theorem loadMeta_written {disk : Disk UInt8} {stats : Dict String CacheMeta}
    (h : disk.get? metaPath = some (utf8 (Json.dumps Json.defaultStyle (metaJson stats)))) :
    loadMeta disk = .ok stats := by
  have hmembers : Dict.ofEntries (stats.entries.map fun e => (e.1, e.2.toJson)) = stats.mapValues CacheMeta.toJson :=
    Dict.ofEntries_entries (stats.mapValues CacheMeta.toJson)
  have hread := Dict.collect_written readMeta (fun _ _ => true) (fun _ => CacheMeta.toJson) stats
    (fun cacheId m _ => readMeta_written cacheId m)
  rw [Dict.filter_all (fun _ _ _ => rfl)] at hread
  rw [loadMeta, readJsonObject_written _ h, hmembers]
  exact hread

theorem get?_writeJson (disk : Disk UInt8) (path : String) (data : Json) (hpath : path ≠ path ++ ".tmp") :
    (writeJson disk path data).get? path = some (utf8 (Json.dumps Json.defaultStyle data)) := by
  rw [writeJson, runSteps_replaceSteps disk _ path _ path hpath, Dict.get?_set_self]

/-- Writing a file touches no other but its temporary one. -/
theorem get?_writeJson_ne (disk : Disk UInt8) {path path' : String} (data : Json) (hne : path' ≠ path)
    (htmp : path' ≠ path ++ ".tmp") : (writeJson disk path data).get? path' = disk.get? path' := by
  rw [writeJson, runSteps_replaceSteps disk _ path _ path' htmp, Dict.get?_set_ne _ _ hne]

theorem readJsonObject_congr {d d' : Disk UInt8} {path : String} (label : String)
    (h : d'.get? path = d.get? path) : readJsonObject d' path label = readJsonObject d path label := by
  rw [readJsonObject, readJsonObject, h]

theorem loadIndex_writeIndex (disk : Disk UInt8) {index : PromptIndex} (h : Filed index) :
    loadIndex (writeJson disk indexPath (indexJson index)) = .ok (pruned index) :=
  loadIndex_written h (get?_writeJson _ _ _ (by decide))

theorem loadIndex_writeMeta (disk : Disk UInt8) (data : Json) :
    loadIndex (writeJson disk metaPath data) = loadIndex disk := by
  rw [loadIndex, readJsonObject_congr _ (get?_writeJson_ne disk data (by decide) (by decide))]
  rfl

theorem loadMeta_writeMeta (disk : Disk UInt8) (stats : Dict String CacheMeta) :
    loadMeta (writeJson disk metaPath (metaJson stats)) = .ok stats :=
  loadMeta_written (get?_writeJson _ _ _ (by decide))

/-- A new instance would find the index, and the statistics as of the last flush. -/
structure Stored (s : LocalCacheMetadataManager) : Prop where
  filed : Filed s.index
  index : loadIndex s.disk = .ok (pruned s.index)
  stats : s.metaDirty = false → loadMeta s.disk = .ok s.stats

theorem stored_saved {s : LocalCacheMetadataManager} (h : Filed s.index) : Stored s.saveIndex.saveMeta :=
  ⟨h, (loadIndex_writeMeta _ _).trans (loadIndex_writeIndex _ h), fun _ => loadMeta_writeMeta _ _⟩

theorem Stored.saveMeta {s : LocalCacheMetadataManager} (h : Stored s) (stats : Dict String CacheMeta) :
    Stored { s with stats := stats }.saveMeta :=
  ⟨h.filed, (loadIndex_writeMeta _ _).trans h.index, fun _ => loadMeta_writeMeta _ _⟩

theorem Stored.registerCache {s : LocalCacheMetadataManager} (h : Stored s) (now : FloatRepr)
    (cacheId prompt : String) (savedSteps : List Int) (sizeMb : FloatRepr) (numFrames : Int)
    (cacheType : Option String) :
    Stored (s.registerCache now cacheId prompt savedSteps sizeMb numFrames cacheType) := by
  have ht : normalizeCacheType cacheType ≠ "" := normalizeCacheType_ne_empty cacheType
  unfold LocalCacheMetadataManager.registerCache
  generalize normalizeCacheType cacheType = t at ht ⊢
  exact stored_saved (h.filed.register ht cacheId prompt (sortedSet savedSteps))

theorem Stored.removeCache {s : LocalCacheMetadataManager} (h : Stored s) (cacheId : String) :
    Stored (s.removeCache cacheId) := stored_saved (h.filed.dropEntry cacheId _)

/-- Unless accesses are flushed, one leaves the statistics file behind until the next flush. -/
theorem Stored.recordAccess {s : LocalCacheMetadataManager} (h : Stored s) (now : FloatRepr) (cacheId : String) :
    Stored (s.recordAccess now cacheId) := by
  unfold LocalCacheMetadataManager.recordAccess
  dsimp only
  split
  · exact h
  · split
    · exact h.saveMeta _
    · exact ⟨h.filed, h.index, fun hdirty => nomatch hdirty⟩

theorem Stored.flush {s : LocalCacheMetadataManager} (h : Stored s) : Stored s.flush := by
  unfold LocalCacheMetadataManager.flush
  split
  · exact h.saveMeta s.stats
  · exact h

theorem flush_metaDirty (s : LocalCacheMetadataManager) : s.flush.metaDirty = false := by
  unfold LocalCacheMetadataManager.flush
  split
  · rfl
  · rename_i h
    exact Bool.eq_false_iff.mpr h

@[simp] theorem flush_index (s : LocalCacheMetadataManager) : s.flush.index = s.index := by
  unfold LocalCacheMetadataManager.flush
  split <;> rfl

@[simp] theorem flush_stats (s : LocalCacheMetadataManager) : s.flush.stats = s.stats := by
  unfold LocalCacheMetadataManager.flush
  split <;> rfl

/-- A new instance on the flushed directory has all but the empty buckets. -/
theorem Stored.restart {s : LocalCacheMetadataManager} (h : Stored s) (flag : Bool) : ∃ s',
    s.step (.restart flag) = .ok s' ∧ Stored s' ∧ s'.index = pruned s.index ∧ s'.stats = s.stats := by
  have hindex : loadIndex s.flush.disk = .ok (pruned s.index) := by
    rw [h.flush.index, flush_index]
  have hstats : loadMeta s.flush.disk = .ok s.stats := by
    rw [h.flush.stats (flush_metaDirty s), flush_stats]
  refine ⟨⟨pruned s.index, s.stats, flag, false, s.flush.disk⟩, ?_, ⟨h.filed.pruned, ?_, fun _ => hstats⟩, rfl, rfl⟩
  · simp only [step, init, hindex, hstats]
  · have hidem : pruned (pruned s.index) = pruned s.index :=
      Dict.filter_all fun t b hmem => (List.mem_filter.mp hmem).2
    rw [hindex, hidem]

def stepIndex (s : LocalCacheMetadataManager) : MetadataOp → PromptIndex
  | .registerCache _ cacheId prompt savedSteps _ _ cacheType =>
    s.index.set (normalizeCacheType cacheType) ((bucket s.index (normalizeCacheType cacheType)).set cacheId
      ⟨cacheId, prompt, sortedSet savedSteps, normalizeCacheType cacheType⟩)
  | .removeCache cacheId => dropEntry s.index cacheId ((s.stats.get? cacheId).map CacheMeta.cacheType)
  | .restart _ => pruned s.index
  | _ => s.index

def stepStats (stats : Dict String CacheMeta) : MetadataOp → Dict String CacheMeta
  | .registerCache now cacheId prompt savedSteps sizeMb numFrames cacheType =>
    stats.set cacheId ⟨prompt, sortedSet savedSteps, sizeMb, numFrames,
      ((stats.get? cacheId).map CacheMeta.accessCount).getD 0, now, normalizeCacheType cacheType⟩
  | .removeCache cacheId => stats.erase cacheId
  | .recordAccess now cacheId =>
    match stats.get? (normalizeCacheId cacheId) with
    | none => stats
    | some m => stats.set (normalizeCacheId cacheId) { m with accessCount := m.accessCount + 1, lastAccessTime := now }
  | _ => stats

/-- Every operation succeeds, and does this. -/
theorem Stored.step {s : LocalCacheMetadataManager} (h : Stored s) (op : MetadataOp) : ∃ s',
    s.step op = .ok s' ∧ Stored s' ∧ s'.index = stepIndex s op ∧ s'.stats = stepStats s.stats op := by
  cases op with
  | registerCache now cacheId prompt savedSteps sizeMb numFrames cacheType =>
    exact ⟨_, rfl, h.registerCache now cacheId prompt savedSteps sizeMb numFrames cacheType, rfl, rfl⟩
  | removeCache cacheId => exact ⟨_, rfl, h.removeCache cacheId, rfl, rfl⟩
  | recordAccess now cacheId =>
    refine ⟨_, rfl, h.recordAccess now cacheId, ?_, ?_⟩
    · unfold LocalCacheMetadataManager.recordAccess
      dsimp only
      split
      · rfl
      · split <;> rfl
    · unfold LocalCacheMetadataManager.recordAccess
      dsimp only [stepStats]
      cases s.stats.get? (normalizeCacheId cacheId) with
      | none => rfl
      | some m =>
        dsimp only
        split <;> rfl
  | flush => exact ⟨_, rfl, h.flush, flush_index s, flush_stats s⟩
  | restart flag => exact h.restart flag

def newManager (flushOnRecordAccess : Bool) : LocalCacheMetadataManager := ⟨∅, ∅, flushOnRecordAccess, false, ∅⟩

theorem init_empty (flag : Bool) : init ∅ flag = .ok (newManager flag) := rfl

theorem history_eq (flag : Bool) (ops : List MetadataOp) : history flag ops = (newManager flag).run ops := by
  rw [history, init_empty]

theorem history_nil (flag : Bool) : history flag [] = .ok (newManager flag) := by
  rw [history_eq, LocalCacheMetadataManager.run]

theorem stored_new (flag : Bool) : Stored (newManager flag) := ⟨filed_empty, rfl, fun _ => rfl⟩

theorem run_concat (s : LocalCacheMetadataManager) (a b : List MetadataOp) :
    s.run (a ++ b) = (s.run a).bind fun s' => s'.run b := by
  induction a generalizing s with
  | nil => rfl
  | cons op a ih =>
    simp only [List.cons_append, LocalCacheMetadataManager.run]
    cases s.step op with
    | error e => rfl
    | ok s' => exact ih s'

/-- Every history of a manager goes through. -/
theorem Stored.run {s : LocalCacheMetadataManager} (h : Stored s) (ops : List MetadataOp) :
    ∃ s', s.run ops = .ok s' ∧ Stored s' := by
  induction ops generalizing s with
  | nil => exact ⟨s, rfl, h⟩
  | cons op ops ih =>
    obtain ⟨s₁, hstep, h₁, -, -⟩ := h.step op
    obtain ⟨s', hrun, h'⟩ := ih h₁
    exact ⟨s', by simp only [LocalCacheMetadataManager.run, hstep, hrun], h'⟩

/-- No history meets a load error. -/
theorem history_ok (flag : Bool) (ops : List MetadataOp) : ∃ s, history flag ops = .ok s ∧ Stored s := by
  rw [history_eq]
  exact (stored_new flag).run ops

theorem history_append {flag : Bool} {before : List MetadataOp} {s : LocalCacheMetadataManager}
    (hrun : history flag before = .ok s) (after : List MetadataOp) :
    history flag (before ++ after) = s.run after := by
  rw [history_eq] at hrun ⊢
  rw [run_concat, hrun]
  rfl

/-- A history with one more operation. -/
theorem history_snoc {flag : Bool} {ops : List MetadataOp} {s : LocalCacheMetadataManager}
    (hrun : history flag ops = .ok s) (op : MetadataOp) : history flag (ops ++ [op]) = s.step op := by
  rw [history_append hrun]
  simp only [LocalCacheMetadataManager.run]
  cases s.step op <;> rfl

end CacheSeek.Proofs.MetadataFiles
