import CacheSeek.Proofs.LoadedForest
import CacheSeek.Proofs.SessionStores

namespace CacheSeek.Proofs.CrashReplay
open CacheSeek.Lib CacheSeek.Prefix CacheSeek.Prefix.NamespaceForest CacheSeek.Stores
open CacheSeek.Proofs.ColdRun CacheSeek.Proofs.ColdContents CacheSeek.Proofs.ExactReplay
open CacheSeek.Proofs.FastForward CacheSeek.Proofs.LastPayload CacheSeek.Proofs.LoadedForest
open CacheSeek.Proofs.SessionStores CacheSeek.Proofs.SharedForest CacheSeek.Proofs.SnapshotLoad
open CacheSeek.Proofs.ResumeComplete CacheSeek.Proofs.SnapshotMerged CacheSeek.Proofs.SnapshotRoundTrip
open CacheSeek.Proofs.StoreSlots CacheSeek.Proofs.TensorStoreLaws

variable {γ τ N C ρ β : Type} {digest : Bytes → Bytes} {B : TensorStore γ τ} {spec : τ → TensorSpec}
  {torch : Torch N C ρ} {dim : TensorDim τ β} {E : Engine N C τ ρ β} {h h' : Host γ}

/-- What the next process can rely on: the forest, the tensors and the file may each be
behind the others, and none of them says anything that is wrong. -/
structure Sound (digest : Bytes → Bytes) (B : TensorStore γ τ) (spec : τ → TensorSpec) (torch : Torch N C ρ)
    (dim : TensorDim τ β) (E : Engine N C τ ρ β) (h : Host γ) : Prop where
  forest : Truthful digest (tensorStoreOver B spec) torch dim E h.forest h.store
  contents : ∃ m, Holds B spec h.store m ∧ Faithful digest torch dim E m
  snapshot : ∀ {text}, h.snapshot = some text → ∃ f : NamespaceForest, text = f.saveForestSnapshot ∧
    Truthful digest (tensorStoreOver B spec) torch dim E f h.store

theorem exact_over (hd : Hash digest) (hq : Quantized E torch digest) (hdim : TensorDim.Lawful dim)
    (hB : B.Correct spec) : Exact digest (tensorStoreOver B spec) torch dim E :=
  ⟨hd, tensorStoreOver_keepsPuts hB, hdim, hq⟩

/-- A host over an empty store. -/
theorem init_sound {ts : γ} (hts : ∀ key, B.get ts key = none) :
    Sound digest B spec torch dim E { forest := .empty, store := { ts } } := by
  refine ⟨empty_truthful _, ⟨fun _ => none, ⟨fun a _ => ⟨rfl, hts _⟩, ?_, ?_, ?_⟩, ?_⟩, ?_⟩
  case refine_4 =>
    intro a t ha
    cases ha
  all_goals
    intros
    contradiction

/-- A new store with the same contents or more leaves nothing wrong. -/
theorem Sound.later (hs : Sound digest B spec torch dim E h) {m : Contents τ} (hm : Holds B spec h.store m)
    {f : NamespaceForest} {s : TensorStoreTier γ} (hf : Truthful digest (tensorStoreOver B spec) torch dim E f s)
    (hhas : Has digest torch dim E B spec m s) :
    Sound digest B spec torch dim E { h with forest := f, store := s } := by
  obtain ⟨m', hm', hfaith, hle⟩ := hhas
  refine ⟨hf, ⟨m', hm', hfaith⟩, ?_⟩
  intro text htext
  obtain ⟨g, rfl, hg⟩ := hs.snapshot htext
  exact ⟨g, rfl, truthful_below hg hm hm' hle⟩

theorem Sound.reborn (hs : Sound digest B spec torch dim E h) {m : Contents τ} (hm : Holds B spec h.store m) {ts : γ}
    (hhas : Has digest torch dim E B spec m { ts := ts }) : Sound digest B spec torch dim E (h.reborn ts) :=
  hs.later hm (empty_truthful _) hhas

/-- No world is known when none is counted. -/
theorem resolve_none {f : NamespaceForest} (hlen : f.len = 0) (r : Bytes) : f.resolve r = none := by
  cases hr : f.resolve r with
  | none => rfl
  | some ns =>
    have hmem : ns ∈ f.namespaces.values := Dict.mem_values.mpr ⟨r, hr⟩
    rw [List.eq_nil_of_length_eq_zero hlen] at hmem
    cases hmem

section
variable (hd : Hash digest)
include hd

/-- A binding finds a file that it can load, or none. -/
theorem Sound.bound (hs : Sound digest B spec torch dim E h) :
    ∃ h', h.bound = some h' ∧ Sound digest B spec torch dim E h' ∧ h'.store = h.store := by
  by_cases hlen : h.forest.len = 0
  · have hnone := resolve_none hlen
    cases hsnap : h.snapshot with
    | none =>
      have hload : loadForestSnapshot h.snapshot (some h.forest) = some (.ok 0, h.forest) := by rw [hsnap]; rfl
      refine ⟨h, ?_, hs, rfl⟩
      simp only [Host.bound, hlen, hload, if_true]
    | some text =>
      obtain ⟨f, rfl, hf⟩ := hs.snapshot hsnap
      have hload := load_truthful hd hf hs.forest.sturdy hs.forest.attached hnone
      obtain ⟨g, hg, -⟩ := loadSnapshot_merged hd hf.sturdy hs.forest.sturdy
      rw [hg] at hload
      obtain ⟨m, hm, hfaith⟩ := hs.contents
      refine ⟨{ h with forest := g }, ?_, hs.later hm hload ⟨m, hm, hfaith, Below.refl m⟩, rfl⟩
      simp only [Host.bound, hlen, hsnap, load_saved, if_true, Option.getD_some, hg]
  · refine ⟨h, ?_, hs, rfl⟩
    simp only [Host.bound, hlen, if_false]

variable (hq : Quantized E torch digest) (hdim : TensorDim.Lawful dim) (hB : B.Correct spec)
include hq hdim hB

theorem Sound.session (hs : Sound digest B spec torch dim E h) (plan : SessionPlan C) :
    let fs := Prefix.visit digest (tensorStoreOver B spec) torch dim E (h.forest, h.store) (.session plan)
    Sound digest B spec torch dim E { h with forest := fs.1, store := fs.2 } := by
  obtain ⟨m, hm, hf⟩ := hs.contents
  have hx := exact_over hd hq hdim hB
  apply hs.later hm (runSession_truthful hx hs.forest plan)
  apply runSession_keeps (guarded_shelters (has_guarded hd hq hB m)) hx hs.forest
  exact ⟨m, hm, hf, Below.refl m⟩

omit hq hdim in
/-- An eviction forgets a chunk; its tensors stay where they are. -/
theorem Sound.evict (hs : Sound digest B spec torch dim E h) (n : NodeId) :
    let fs := Prefix.visit digest (tensorStoreOver B spec) torch dim E (h.forest, h.store) (.evict n)
    Sound digest B spec torch dim E { h with forest := fs.1, store := fs.2 } := by
  simp only [Prefix.visit]
  split
  · rename_i hn
    have hkept := hs.forest.evict hd (tensorStoreOver_keepsPuts hB) hn
    have hstore : (evictBlob (tensorStoreOver B spec) h.forest h.store n).2.2 = h.store := by
      unfold evictBlob
      dsimp only
      split
      · rfl
      · split
        · rfl
        · rfl
    obtain ⟨m, hm, hf⟩ := hs.contents
    apply hs.later hm hkept
    rw [hstore]
    exact ⟨m, hm, hf, Below.refl m⟩
  · exact hs

/-- Whatever write of a session was the last, the store is one of those on record. -/
theorem Sound.kill (hs : Sound digest B spec torch dim E h) (plan : SessionPlan C) (writes : Nat) :
    Sound digest B spec torch dim E (h.reborn (h.killed digest B spec torch dim E plan writes)) := by
  obtain ⟨m, hm, hf⟩ := hs.contents
  apply hs.reborn hm
  have hstart : Has digest torch dim E B spec m h.store := ⟨m, hm, hf, Below.refl m⟩
  have hrec : Holds (recorded B) spec { specs := h.store.specs, ts := (h.store.ts, [h.store.ts]) } m :=
    ⟨hm.absent, hm.cached, hm.sidecar, hm.tensor⟩
  have hx := exact_over hd hq hdim (recorded_correct hB)
  have hend := runSession_keeps (guarded_shelters (records_guarded hd hq hB m)) hx
    (truthful_below hs.forest hm hrec (Below.refl m))
    ⟨⟨m, hrec, hf, Below.refl m⟩, fun ts hts => by rw [List.mem_singleton.mp hts]; exact hstart.renew⟩ plan
  simp only [Host.killed]
  generalize (runSession digest (tensorStoreOver (recorded B) spec) torch dim E plan h.forest
    { specs := h.store.specs, ts := (h.store.ts, [h.store.ts]) }).2.store = s at hend ⊢
  obtain ⟨⟨m', hm', hf', hle⟩, hpast⟩ := hend
  cases hw : s.ts.2[writes]? with
  | some ts => exact hpast ts (List.mem_of_getElem? hw)
  | none => exact ⟨m', ⟨fun a ha => ⟨rfl, (hm'.absent a ha).2⟩, fun _ _ _ => Or.inl rfl, hm'.sidecar, hm'.tensor⟩,
      hf', hle⟩

/-- One thing that happens. -/
theorem Sound.happen (hs : Sound digest B spec torch dim E h) (x : Happening C) :
    ∃ h', h.happen digest B spec torch dim E x = some h' ∧ Sound digest B spec torch dim E h' := by
  cases x with
  | visit v =>
    cases v with
    | session plan =>
      obtain ⟨h1, hb, hs1, -⟩ := hs.bound hd
      simp only [Host.happen, hb, Option.map_some]
      exact ⟨_, rfl, hs1.session hd hq hdim hB plan⟩
    | evict n => exact ⟨_, rfl, hs.evict hd hB n⟩
  | flush =>
    obtain ⟨h1, hb, hs1, -⟩ := hs.bound hd
    simp only [Host.happen, hb, Option.map_some]
    refine ⟨_, rfl, hs1.forest, hs1.contents, ?_⟩
    intro text htext
    cases htext
    exact ⟨h1.forest, rfl, hs1.forest⟩
  | kill plan writes =>
    obtain ⟨h1, hb, hs1, -⟩ := hs.bound hd
    simp only [Host.happen, hb, Option.map_some]
    exact ⟨_, rfl, hs1.kill hd hq hdim hB plan writes⟩
  | restart =>
    obtain ⟨m, hm, hf⟩ := hs.contents
    exact ⟨_, rfl, hs.reborn hm ⟨m, hm.renew, hf, Below.refl m⟩⟩

theorem Sound.run (hs : Sound digest B spec torch dim E h) (xs : List (Happening C)) :
    ∃ h', h.run digest B spec torch dim E xs = some h' ∧ Sound digest B spec torch dim E h' := by
  induction xs generalizing h with
  | nil => exact ⟨h, rfl, hs⟩
  | cons x xs ih =>
    obtain ⟨h1, hstep, hs1⟩ := hs.happen hd hq hdim hB x
    obtain ⟨h2, hrun, hs2⟩ := ih hs1
    exact ⟨h2, by simp only [Host.run, hstep, Option.bind_some, hrun], hs2⟩

/-- Over a sound host a session gives what a run without the cache gives. -/
theorem Sound.replay (hs : Sound digest B spec torch dim E h) {plan : SessionPlan C} {r : Bytes} {chain : List Bytes}
    (hroot : sessionRootHash digest plan.session plan.modelFingerprint = some r)
    (hchain : buildActionChain digest r ((actionsOf E torch digest plan).map ActionKey.bytes) = some chain)
    (hle : plan.chunks ≤ (E.noiseChunks plan.keys).length) :
    ∃ K b, h.session digest B spec torch dim E plan = some (.ok (E.coldRun torch plan plan.chunks).outputs, b) ∧
      b.binding.lastFastForward = K ∧ K ≤ (E.noiseChunks plan.keys).length ∧
      b.runtime.selfKvCache.map KvCache.visible =
        (E.coldRun torch plan (max plan.chunks K)).rings.map KvCache.visible ∧
      b.runtime.generator = (E.coldRun torch plan (max plan.chunks K)).generator := by
  have hx := exact_over hd hq hdim hB
  obtain ⟨h1, hb1, hs1, -⟩ := hs.bound hd
  simp only [Host.session, hb1, Option.map_some]
  rcases created hx hs1.forest plan with ⟨e, b, _, _, hno⟩ | ⟨r', K, b, hroot', hb, hat, _, _⟩
  · rw [hno r hroot] at hchain
    cases hchain
  · rw [← Nat.zero_add plan.chunks] at hle
    obtain ⟨b', hrun, hend⟩ := sessionChunks_cold hx hroot' hle hat
    rw [Nat.zero_add] at hle hend
    have hmax : max plan.chunks K ≤ (E.noiseChunks plan.keys).length := Nat.max_le.mpr ⟨hle, hat.skipped⟩
    have hcold : InStep E torch plan (max plan.chunks K) _ _ := cold_inStep (max plan.chunks K) hmax
    refine ⟨K, b', ?_, hend.resumed, hat.skipped, hend.rings.visible_eq hcold⟩
    rw [runSession_ok hb, List.range_eq_range', hrun, coldRun_outputs hle, List.range_eq_range']

/-- Whatever was written, flushed, evicted and lost before, through any number of processes: a session
gives what a run without the cache gives. -/
theorem exact_replay_survives_crashes {ts : γ} (hts : ∀ key, B.get ts key = none) (xs : List (Happening C))
    {plan : SessionPlan C} {r : Bytes} {chain : List Bytes}
    (hroot : sessionRootHash digest plan.session plan.modelFingerprint = some r)
    (hchain : buildActionChain digest r ((actionsOf E torch digest plan).map ActionKey.bytes) = some chain)
    (hle : plan.chunks ≤ (E.noiseChunks plan.keys).length) :
    ∃ h K b, Host.run digest B spec torch dim E { forest := .empty, store := { ts } } xs = some h ∧
      h.session digest B spec torch dim E plan = some (.ok (E.coldRun torch plan plan.chunks).outputs, b) ∧
      b.binding.lastFastForward = K ∧ K ≤ (E.noiseChunks plan.keys).length ∧
      b.runtime.selfKvCache.map KvCache.visible =
        (E.coldRun torch plan (max plan.chunks K)).rings.map KvCache.visible ∧
      b.runtime.generator = (E.coldRun torch plan (max plan.chunks K)).generator := by
  obtain ⟨h, hrun, hs⟩ := Sound.run hd hq hdim hB (init_sound hts) xs
  obtain ⟨K, b, hb⟩ := hs.replay hd hq hdim hB hroot hchain hle
  exact ⟨h, K, b, hrun, hb⟩

end

def listTensors : TensorOps (List Nat) := ⟨fun t => ⟨[t.length], "int64"⟩, fun t _ => .ok t⟩

/-- One session, a flush, the same world cut off after three writes, and a session of the next process. -/
def demoHappenings : List (Happening (List Rat)) :=
  [.visit (.session (demoPlan [[0], [0], [0]] 2)), .flush, .kill (demoPlan [[0], [0], [0]] 3) 3,
    .visit (.session (demoPlan [[1], [0], [0]] 3)), .visit (.evict 2), .restart]

set_option maxRecDepth 8000 in
theorem exact_replay_killed :
    ∃ h K b, Host.run marked (dictStore listTensors) listTensors.spec listTorch listDim
        (countingEngine [[1], [2], [3]] keyedWeight) { forest := .empty, store := { ts := (∅, ∅) } } demoHappenings =
          some h ∧
      h.session marked (dictStore listTensors) listTensors.spec listTorch listDim
        (countingEngine [[1], [2], [3]] keyedWeight) (demoPlan [[0], [1], [0]] 3) =
          some (.ok
            ((countingEngine [[1], [2], [3]] keyedWeight).coldRun listTorch (demoPlan [[0], [1], [0]] 3) 3).outputs,
            b) ∧
      b.binding.lastFastForward = K ∧
      K ≤ ((countingEngine [[1], [2], [3]] keyedWeight).noiseChunks (demoPlan [[0], [1], [0]] 3).keys).length ∧
      b.runtime.selfKvCache.map KvCache.visible =
        ((countingEngine [[1], [2], [3]] keyedWeight).coldRun listTorch (demoPlan [[0], [1], [0]] 3)
          (max 3 K)).rings.map KvCache.visible ∧
      b.runtime.generator = ((countingEngine [[1], [2], [3]] keyedWeight).coldRun listTorch
        (demoPlan [[0], [1], [0]] 3) (max 3 K)).generator := by
  have hroot : sessionRootHash marked demoSession [] =
      some ((sessionRootHash marked demoSession []).getD []) := by decide
  have hchain : buildActionChain marked ((sessionRootHash marked demoSession []).getD [])
      ((actionsOf (countingEngine [[1], [2], [3]] keyedWeight) listTorch marked (demoPlan [[0], [1], [0]] 3)).map
        ActionKey.bytes) = some ((buildActionChain marked ((sessionRootHash marked demoSession []).getD [])
      ((actionsOf (countingEngine [[1], [2], [3]] keyedWeight) listTorch marked (demoPlan [[0], [1], [0]] 3)).map
        ActionKey.bytes)).getD []) := by decide +kernel
  have hB : (dictStore listTensors).Correct listTensors.spec :=
    TensorStoreTier.dictStore_correct listTensors fun _ => rfl
  have hx := keyed_exact
  exact exact_replay_survives_crashes hx.hash hx.controls hx.tensors hB (fun _ => rfl) demoHappenings hroot hchain
    (by decide)

end CacheSeek.Proofs.CrashReplay
