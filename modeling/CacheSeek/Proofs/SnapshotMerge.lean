import CacheSeek.Proofs.SnapshotRoundTrip

namespace CacheSeek.Proofs.SnapshotMerge
open CacheSeek.Lib CacheSeek.Prefix CacheSeek.Prefix.NamespaceForest CacheSeek.Stores
open CacheSeek.Proofs.Worlds CacheSeek.Proofs.SnapshotLoad CacheSeek.Proofs.SnapshotMerged
open CacheSeek.Proofs.SnapshotRuns CacheSeek.Proofs.SnapshotRoundTrip

variable {σ ω P L : Type} {digest : Bytes → Bytes} {S : KVTierStore σ P L} {W : RollingWindow ω P}
  {cfg : WorldKVConfig} {t f g : NamespaceForest}

/-- No world starts with the same chunk in both forests. -/
def StartApart (t f : NamespaceForest) : Prop :=
  ∀ r a, t.nodeAt r [a] = none ∨ f.nodeAt r [a] = none

/-- `g` holds what `t` and `f` hold, and goes on where `t` was. -/
structure Union (S : KVTierStore σ P L) (cfg : WorldKVConfig) (digest : Bytes → Bytes)
    (t f g : NamespaceForest) : Prop where
  target : ∀ r actions, (t.lookup r actions).matchedLen ≤ (g.lookup r actions).matchedLen
  source : ∀ r actions, (f.lookup r actions).matchedLen ≤ (g.lookup r actions).matchedLen
  nodes : ∀ r p n, t.nodeAt r p = some n → g.nodeAt r p = some n ∧ g.hasKv n = t.hasKv n
  mounts : ∀ r p (a : IngestArgs P L) s, Synchronous S → t.nodeAt r p = some a.parent →
    Chained digest g a → (∀ j, 1 ≤ j → j ≤ p.length → g.published r (p.take j) = true) →
    ((ingest S cfg g s a).2.1.lookup r (p ++ [a.action])).matchedLen = p.length + 1

section
variable (ht : Sturdy digest t) (hm : Merged digest f t g fun r => f.resolve r ≠ none)
include ht hm

/-- Where nothing is replaced, every path leads where it led. -/
theorem merged_keeps (hapart : StartApart t f) {r : Bytes} {p : List ActionKey} {n : NodeId}
    (hn : t.nodeAt r p = some n) : g.nodeAt r p = some n ∧ g.hasKv n = t.hasKv n := by
  refine ⟨?_, hm.frame.hasKv ht (ht.shape.nodeAt_lt hn)⟩
  cases p with
  | nil =>
    obtain ⟨n0, hr, hroot⟩ := Shape.nodeAt_nil_iff.mp hn
    apply Shape.nodeAt_nil_iff.mpr
    cases hf : f.resolve r with
    | none => exact ⟨n0, by rw [hm.other fun hne => hne hf, hr], hroot⟩
    | some ns =>
      obtain ⟨nt, hnt, _, hold, _⟩ := hm.world (by rw [hf]; exact Option.some_ne_none ns) hf
      exact ⟨nt, hnt, (hold n0 hr).1.trans hroot⟩
  | cons a p =>
    rw [hm.kept ?_, hn]
    intro _
    rcases hapart r a with hnone | hnone
    · have hsplit : t.nodeAt r ([a] ++ p) = some n := hn
      rw [nodeAt_append, hnone] at hsplit
      cases hsplit
    · exact hnone

theorem merged_target (hapart : StartApart t f) (r : Bytes) (actions : List ActionKey) :
    (t.lookup r actions).matchedLen ≤ (g.lookup r actions).matchedLen := by
  rw [ht.shape.matchedLen_eq, hm.sturdy.shape.matchedLen_eq]
  apply longest_mono
  intro j _ _ hp
  obtain ⟨n, hn, hk⟩ := published_iff.mp hp
  obtain ⟨hg, he⟩ := merged_keeps ht hm hapart hn
  exact published_iff.mpr ⟨n, hg, he.trans hk⟩

omit ht in
theorem merged_source (hf : Sturdy digest f) (r : Bytes) (actions : List ActionKey) :
    (f.lookup r actions).matchedLen ≤ (g.lookup r actions).matchedLen := by
  rw [hf.shape.matchedLen_eq, hm.sturdy.shape.matchedLen_eq]
  apply longest_mono
  intro j h1 h2 hp
  have hle := longest_le (f.published r) actions
  obtain ⟨n, hn, hk⟩ := published_iff.mp hp
  obtain ⟨ns, hr, _⟩ := Option.bind_eq_some_iff.mp hn
  cases hj : actions.take j with
  | nil =>
    have := congrArg List.length hj
    rw [List.length_take, List.length_nil] at this
    omega
  | cons a p =>
    rw [hj] at hn
    obtain ⟨m, hgm, _, hc⟩ := hm.copied (by rw [hr]; exact Option.some_ne_none ns) hn
    exact published_iff.mpr ⟨m, hgm, (copy_hasKv hc).trans hk⟩

theorem merged_mounts (hapart : StartApart t f) (hS : Synchronous S) {r : Bytes}
    {p : List ActionKey} {a : IngestArgs P L} (s : σ) (hp : t.nodeAt r p = some a.parent)
    (ha : Chained digest g a)
    (hpub : ∀ j, 1 ≤ j → j ≤ p.length → g.published r (p.take j) = true) :
    ((ingest S cfg g s a).2.1.lookup r (p ++ [a.action])).matchedLen = p.length + 1 := by
  have hshape : Shape (ingest S cfg g s a).2.1 := (ingest_sturdy hm.sturdy ha s).shape
  obtain ⟨s', hi⟩ := ingest_synchronous cfg hS g s a
  have hgp := (merged_keeps ht hm hapart hp).1
  have hnew := published_ingest cfg hm.sturdy.shape (fun _ _ => hm.sturdy.blob_lt) hgp r
  rw [hi] at hshape ⊢
  rw [hshape.matchedLen_eq]
  have hlen : (p ++ [a.action]).length = p.length + 1 := by simp
  rw [← hlen, longest_eq_length_iff]
  intro j h1 h2
  rw [hnew]
  split
  · rfl
  · rename_i hne
    have hj : j ≤ p.length := by
      rw [hlen] at h2
      apply Nat.le_of_lt_succ
      apply Nat.lt_of_le_of_ne h2
      intro he
      exact hne ⟨rfl, List.take_of_length_le (by omega)⟩
    rw [List.take_append_of_le_length hj]
    exact hpub j h1 hj

/-- A first chunk in both forests leads to a new node after the load. -/
theorem merged_replaces {r : Bytes} {a : ActionKey} {n m : NodeId} (hn : t.nodeAt r [a] = some n)
    (hf : f.nodeAt r [a] = some m) : g.nodeAt r [a] ≠ some n := by
  obtain ⟨ns, hr, _⟩ := Option.bind_eq_some_iff.mp hf
  obtain ⟨m', hm', hle, _⟩ := hm.copied (by rw [hr]; exact Option.some_ne_none ns) hf
  intro he
  rw [hm'] at he
  cases he
  exact absurd (ht.shape.nodeAt_lt hn) (Nat.not_lt.mpr hle)

end

/-- Loading a snapshot unites the forests exactly when no world starts alike in both. -/
theorem load_unites_iff (hd : Hash digest) (ht : Reach digest S W cfg t)
    (hf : Reach digest S W cfg f) :
    ∃ k g, t.loadSnapshot f.snapshot = (.ok k, g) ∧ (Union S cfg digest t f g ↔ StartApart t f) := by
  have hst := reach_sturdy hd ht
  have hsf := reach_sturdy hd hf
  obtain ⟨g, hg, hm⟩ := loadSnapshot_merged hd hsf hst
  refine ⟨_, g, hg, ?_, ?_⟩
  · intro hu r a
    cases hn : t.nodeAt r [a] with
    | none => exact Or.inl rfl
    | some n =>
      cases hn' : f.nodeAt r [a] with
      | none => exact Or.inr rfl
      | some m => exact absurd (hu.nodes r [a] n hn).1 (merged_replaces hst hm hn hn')
  · intro hapart
    exact ⟨merged_target hst hm hapart, merged_source hm hsf,
      fun r p n hn => merged_keeps hst hm hapart hn,
      fun r p a s hS hp ha hpub => merged_mounts hst hm hapart hS s hp ha hpub⟩

/-- The world of `oneChunk` with a second chunk below the first. -/
def twoChunks : NamespaceForest :=
  (ingest (inMemoryTierStore Unit Unit) ⟨2, 1, 1, .cpu⟩ oneChunk {}
    (markedChunk 1 (oneChunk.node 1).nodeKey 1 (.int 8))).2.1

theorem twoChunks_reach :
    Reach marked (inMemoryTierStore Unit Unit) ForestMap.idleWindow ⟨2, 1, 1, .cpu⟩ twoChunks := by
  apply Reach.ingest oneChunk_reach
  refine ⟨?_, ?_, ?_⟩
  · exact Nat.one_lt_two
  · rfl
  · rfl

/-- The longer branch in memory is cut by the shorter one in the file. -/
theorem load_cuts_branch :
    Reach marked (inMemoryTierStore Unit Unit) ForestMap.idleWindow ⟨2, 1, 1, .cpu⟩ twoChunks ∧
    Reach marked (inMemoryTierStore Unit Unit) ForestMap.idleWindow ⟨2, 1, 1, .cpu⟩ oneChunk ∧
    (twoChunks.lookup [1] [.int 7, .int 8]).matchedLen = 2 ∧
    ((twoChunks.loadSnapshot oneChunk.snapshot).2.lookup [1] [.int 7, .int 8]).matchedLen = 1 :=
  ⟨twoChunks_reach, oneChunk_reach, rfl, rfl⟩

theorem load_unites_iff_two_chunks : ∃ k g, twoChunks.loadSnapshot oneChunk.snapshot = (.ok k, g) ∧
    (Union (inMemoryTierStore Unit Unit) ⟨2, 1, 1, .cpu⟩ marked twoChunks oneChunk g ↔
      StartApart twoChunks oneChunk) :=
  load_unites_iff marked_hash twoChunks_reach oneChunk_reach

end CacheSeek.Proofs.SnapshotMerge
