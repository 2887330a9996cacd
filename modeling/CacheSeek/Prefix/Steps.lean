import CacheSeek.Prefix.Holdings
import CacheSeek.Prefix.InFlight
import CacheSeek.Prefix.Publication

namespace CacheSeek.Prefix
open CacheSeek.Lib CacheSeek.Stores NamespaceForest

namespace Machine

variable {τ : Type} (M : MachineConfig τ) (m : Machine τ)

/-- One statement of a call, with a case for each way it can go. -/
inductive Advances (i : Nat) (o : Outcome) (a : IngestArgs (LayerValue τ) τ) :
    IngestPc τ → Machine τ → Prop
  | commit : Advances i o a .commit
      ({ m with forest := (m.forest.commit a.parent a.action a.nodeKey a.depth).1 }.setPc i ⟨a, .commit⟩
        (.pin (m.forest.commit a.parent a.action a.nodeKey a.depth).2))
  | pin (n : NodeId) : Advances i o a (.pin n)
      ({ m with forest := m.forest.pinSink M.cfg n a.depth }.setPc i ⟨a, .pin n⟩ (.putSkeleton n))
  | skeletonPut (n : NodeId) (s : TensorTier τ)
      (hput : tryPut M.ops m.store (latentLocator a.nodeKey) (some a.latent) o = (true, s)) :
      Advances i o a (.putSkeleton n)
        ({ m with store := s }.setPc i ⟨a, .putSkeleton n⟩ (.setSkeleton n))
  | skeletonFails (n : NodeId) (s : TensorTier τ)
      (hput : tryPut M.ops m.store (latentLocator a.nodeKey) (some a.latent) o = (false, s)) :
      Advances i o a (.putSkeleton n) ({ m with store := s }.setPc i ⟨a, .putSkeleton n⟩ .raised)
  | setSkeleton (n : NodeId) : Advances i o a (.setSkeleton n)
      ({ m with forest := m.forest.setSkeleton n a.nodeKey }.setPc i ⟨a, .setSkeleton n⟩ (.attach n))
  | attach (n : NodeId) : Advances i o a (.attach n)
      (({ m with forest := (m.forest.attachBlob n (a.newHandle M.cfg)).1 }.setStatus
        m.forest.handles.size (.caller i)).setPc i ⟨a, .attach n⟩ (.putAsync n m.forest.handles.size))
  | enqueue (n : NodeId) (x : HandleId) (hasync : M.async = true)
      (hroom : M.maxPending ≤ 0 ∨ (m.queue.length : Int) < M.maxPending) :
      Advances i o a (.putAsync n x)
        (({ m with queue := m.queue ++ [(⟨kvLocator a.nodeKey, a.kvPayload, x⟩ : PutItem τ)] }.setStatus x
          .queued).setPc i ⟨a, .putAsync n x⟩ (.returned n))
  | writes (n : NodeId) (x : HandleId) (hsync : ¬ M.async = true) :
      Advances i o a (.putAsync n x) (m.setPc i ⟨a, .putAsync n x⟩
        (.writing n x (TensorTier.payloadWrites (kvLocator a.nodeKey) 0 a.kvPayload)))
  | publish (n : NodeId) (x : HandleId) : Advances i o a (.writing n x [])
      (({ m with forest := m.forest.publish x }.setStatus x .published).setPc i ⟨a, .writing n x []⟩
        (.returned n))
  | written (n : NodeId) (x : HandleId) (key : String) (t : Option τ) (pending : List (String × Option τ))
      (s : TensorTier τ) (hput : tryPut M.ops m.store key t o = (true, s)) :
      Advances i o a (.writing n x ((key, t) :: pending))
        ({ m with store := s }.setPc i ⟨a, .writing n x ((key, t) :: pending)⟩ (.writing n x pending))
  | aborts (n : NodeId) (x : HandleId) (key : String) (t : Option τ) (pending : List (String × Option τ))
      (s : TensorTier τ) (hput : tryPut M.ops m.store key t o = (false, s)) :
      Advances i o a (.writing n x ((key, t) :: pending))
        (({ m with store := s }.setStatus x .aborted).setPc i ⟨a, .writing n x ((key, t) :: pending)⟩
          .raised)

inductive Steps : MachineEvent τ → Machine τ → Prop
  | create (r c : Bytes) :
      Steps (.create r c) { m with forest := (m.forest.getOrCreateNamespace r c).1 }
  | call (a : IngestArgs (LayerValue τ) τ) (hp : a.parent < m.forest.nodes.size)
      (ha : M.accepts m.forest a = true) : Steps (.call a) { m with calls := m.calls ++ [⟨a, .commit⟩] }
  | advance (i : Nat) (o : Outcome) (a : IngestArgs (LayerValue τ) τ) (pc : IngestPc τ) (m' : Machine τ)
      (hi : m.calls[i]? = some ⟨a, pc⟩) (h : Advances M m i o a pc m') : Steps (.advance i o) m'
  | get (item : PutItem τ) (queue : List (PutItem τ)) (hw : m.worker = none) (hq : m.queue = item :: queue) :
      Steps .get ({ m with
        queue
        worker := some (item.handle, TensorTier.payloadWrites item.locator 0 item.payload)
        }.setStatus item.handle .worker)
  | put (o : Outcome) (x : HandleId) (key : String) (t : Option τ) (pending : List (String × Option τ))
      (s : TensorTier τ) (hw : m.worker = some (x, (key, t) :: pending))
      (hput : tryPut M.ops m.store key t o = (true, s)) :
      Steps (.put o) { m with store := s, worker := some (x, pending) }
  | putFails (o : Outcome) (x : HandleId) (key : String) (t : Option τ) (pending : List (String × Option τ))
      (s : TensorTier τ) (hw : m.worker = some (x, (key, t) :: pending))
      (hput : tryPut M.ops m.store key t o = (false, s)) :
      Steps (.put o) ({ m with store := s, worker := none }.setStatus x .aborted)
  | finish (x : HandleId) (hw : m.worker = some (x, [])) :
      Steps .finish ({ m with forest := m.forest.publish x, worker := none }.setStatus x .published)
  | evict (n : NodeId) (b : HandleId) (hn : n < m.forest.nodes.size) (hb : (m.forest.node n).blob = some b)
      (hpin : (m.forest.node n).pinned = false)
      (he : evictBlob (tensorStoreTierStore M.ops) m.forest m.store n =
        (true, m.forest.modifyNode n fun p => { p with blob := none },
          (tensorStoreTierStore M.ops).free m.store (m.forest.handle b))) :
      Steps (.evict n) { m with
        forest := m.forest.modifyNode n fun p => { p with blob := none }
        store := (tensorStoreTierStore M.ops).free m.store (m.forest.handle b) }
  | spare (n : NodeId)
      (he : evictBlob (tensorStoreTierStore M.ops) m.forest m.store n = (false, m.forest, m.store)) :
      Steps (.evict n) m
  | read (b : BlobHandle) (layer : Nat) :
      Steps (.read b layer) { m with store := (m.store.getLayer M.ops b layer).2 }

variable {M m}

theorem advance_cases {m' : Machine τ} {i : Nat} {o : Outcome} {a : IngestArgs (LayerValue τ) τ}
    {pc : IngestPc τ} (h : m.advance M i ⟨a, pc⟩ o = some m') : Advances M m i o a pc m' := by
  cases pc with
  | commit =>
    cases h
    exact .commit
  | pin n =>
    cases h
    exact .pin n
  | putSkeleton n =>
    simp only [advance] at h
    split at h
    · rename_i s hput
      cases h
      exact .skeletonPut n s hput
    · rename_i s hput
      cases h
      exact .skeletonFails n s hput
  | setSkeleton n =>
    cases h
    exact .setSkeleton n
  | attach n =>
    cases h
    exact .attach n
  | putAsync n x =>
    simp only [advance] at h
    split at h
    · rename_i hasync
      split at h
      · rename_i hroom
        cases h
        exact .enqueue n x hasync hroom
      · cases h
    · rename_i hsync
      cases h
      exact .writes n x hsync
  | writing n x pending =>
    cases pending with
    | nil =>
      cases h
      exact .publish n x
    | cons w pending =>
      obtain ⟨key, t⟩ := w
      simp only [advance] at h
      split at h
      · rename_i s hput
        cases h
        exact .written n x key t pending s hput
      · rename_i s hput
        cases h
        exact .aborts n x key t pending s hput
  | returned n => cases h
  | raised => cases h

theorem step_cases {m' : Machine τ} {e : MachineEvent τ} (h : m.step M e = some m') : Steps M m e m' := by
  cases e with
  | create r c =>
    cases h
    exact .create r c
  | call a =>
    simp only [step] at h
    split at h
    · rename_i hg
      cases h
      exact .call a hg.1 hg.2
    · cases h
  | advance i o =>
    simp only [step] at h
    split at h
    · cases h
    · rename_i c hi
      exact .advance i o c.args c.pc m' hi (advance_cases h)
  | get =>
    simp only [step] at h
    split at h
    · rename_i item queue hw hq
      cases h
      exact .get item queue hw hq
    · cases h
  | put o =>
    simp only [step] at h
    split at h
    · rename_i x key t pending hw
      split at h
      · rename_i s hput
        cases h
        exact .put o x key t pending s hw hput
      · rename_i s hput
        cases h
        exact .putFails o x key t pending s hw hput
    · cases h
  | finish =>
    simp only [step] at h
    split at h
    · rename_i x hw
      cases h
      exact .finish x hw
    · cases h
  | evict n =>
    simp only [step] at h
    split at h
    · rename_i hn
      rcases evictBlob_cases (tensorStoreTierStore M.ops) m.forest m.store n with
        ⟨b, hb, hpin, _, he⟩ | ⟨_, he⟩
      · simp only [he, Option.some.injEq] at h
        subst m'
        exact .evict n b hn hb hpin he
      · simp only [he, Option.some.injEq] at h
        subst m'
        exact .spare n he
    · cases h
  | read b layer =>
    cases h
    exact .read b layer

end Machine

theorem MaterializeCall.unfinished_iff {ω : Type} {c : MaterializeCall ω} :
    c.unfinished = true ↔ ∃ k, c.pc = .layer k := by
  unfold unfinished
  cases c.pc with
  | layer k => simp
  | returned ok => simp
  | raised e => simp

namespace ManagerState

variable {σ ω P L : Type} (S : KVTierStore σ P L) (W : RollingWindow ω P) (cfg : WorldKVConfig) (count : Nat)
  (m : ManagerState σ ω)

inductive Steps : ManagerEvent P L ω → ManagerState σ ω → Prop
  | create (r c : Bytes)
      (hfree : (m.forest.resolve r).isSome ∨ ∀ n < m.forest.nodes.size, (m.forest.node n).nodeKey ≠ r) :
      Steps (.create r c) { m with forest := (m.forest.getOrCreateNamespace r c).1 }
  | ingest (a : IngestArgs P L) (hn : a.parent < m.forest.nodes.size)
      (hfree : m.forest.KeyFree a.parent a.action a.nodeKey) (hlen : a.kvPayload.length = count)
      (hlayers : (a.newHandle cfg).nLayers = count) :
      Steps (.ingest a) { m with
        forest := (Prefix.ingest S cfg m.forest m.store a).2.1
        store := (Prefix.ingest S cfg m.forest m.store a).2.2 }
  | evict (n : NodeId) (hn : n < m.forest.nodes.size) :
      Steps (.evict n) { m with
        forest := (evictBlob S m.forest m.store n).2.1
        store := (evictBlob S m.forest m.store n).2.2 }
  | start (n : NodeId) (w : ω) (hn : n < m.forest.nodes.size) : Steps (.start n w) (m.start cfg n w)
  | seed (i : Nat) (c : MaterializeCall ω) (k : Nat) (hi : m.calls[i]? = some c) (hpc : c.pc = .layer k)
      (hk : k < c.nLayers) : Steps (.seed i) (m.seed S W i c k)
  | raise (i : Nat) (e : PyError) (c : MaterializeCall ω) (k : Nat) (hi : m.calls[i]? = some c)
      (hpc : c.pc = .layer k) : Steps (.raise i e) (m.close i c (.raised e))
  | finish (i : Nat) (now : Rat) (c : MaterializeCall ω) (k : Nat) (hi : m.calls[i]? = some c)
      (hpc : c.pc = .layer k) (hk : c.nLayers ≤ k) : Steps (.finish i now) (m.finish W i c now)

variable {S W cfg count m}

theorem step_cases {m' : ManagerState σ ω} {e : ManagerEvent P L ω} (h : m.step S W cfg count e = some m') :
    Steps S W cfg count m e m' := by
  cases e with
  | create r c =>
    simp only [step, Option.ite_none_right_eq_some, Option.some.injEq] at h
    obtain ⟨hfree, rfl⟩ := h
    exact .create r c hfree
  | ingest a =>
    simp only [step, Option.ite_none_right_eq_some, Option.some.injEq] at h
    obtain ⟨⟨hn, hfree, hlen, hlayers⟩, rfl⟩ := h
    exact .ingest a hn hfree hlen hlayers
  | evict n =>
    simp only [step, Option.ite_none_right_eq_some, Option.some.injEq] at h
    obtain ⟨hn, rfl⟩ := h
    exact .evict n hn
  | start n w =>
    simp only [step, Option.ite_none_right_eq_some, Option.some.injEq] at h
    obtain ⟨hn, rfl⟩ := h
    exact .start n w hn
  | seed i =>
    simp only [step] at h
    split at h
    · cases h
    · rename_i c hi
      split at h
      · rename_i k hpc
        simp only [Option.ite_none_right_eq_some, Option.some.injEq] at h
        obtain ⟨hk, rfl⟩ := h
        exact .seed i c k hi hpc hk
      · cases h
  | raise i e =>
    simp only [step] at h
    split at h
    · cases h
    · rename_i c hi
      split at h
      · rename_i k hpc
        cases h
        exact .raise i e c k hi hpc
      · cases h
  | finish i now =>
    simp only [step] at h
    split at h
    · cases h
    · rename_i c hi
      split at h
      · rename_i k hpc
        simp only [Option.ite_none_right_eq_some, Option.some.injEq] at h
        obtain ⟨hk, rfl⟩ := h
        exact .finish i now c k hi hpc hk
      · cases h

end ManagerState

end CacheSeek.Prefix
