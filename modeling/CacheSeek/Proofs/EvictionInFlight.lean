import CacheSeek.Proofs.ReuseKept
import CacheSeek.Proofs.AsyncPublication
import Mathlib.Logic.Function.Basic

namespace CacheSeek.Proofs.EvictionInFlight
open CacheSeek.Lib CacheSeek.Prefix CacheSeek.Prefix.NamespaceForest CacheSeek.Stores
open CacheSeek.Proofs.ReuseKept (Tidy step_stepOk init_tidy)
open CacheSeek.Proofs.AsyncPublication (numberMachine oneChunk)

variable {τ : Type} {M : MachineConfig τ} {m m' : Machine τ}

/-- The write is on its way: with its call, in the queue or with the worker. -/
def InFlight : WriteStatus → Prop
  | .caller _ => True
  | .queued => True
  | .worker => True
  | _ => False

/-- The node a call has attached a handle to, and the handle while the call has it. -/
def attachedTo : IngestPc τ → Option (NodeId × Option HandleId)
  | .putAsync n h => some (n, some h)
  | .writing n h _ => some (n, some h)
  | .returned n => some (n, none)
  | _ => none

def stage (m : Machine τ) (i : Nat) : Option (NodeId × Option HandleId) := (m.calls[i]?).bind fun c => attachedTo c.pc

def Carried (m : Machine τ) (h : HandleId) : WriteStatus → Prop
  | .caller i => ∃ n, stage m i = some (n, some h)
  | .queued => h ∈ m.queue.map PutItem.handle
  | .worker => ∃ pending, m.worker = some (h, pending)
  | _ => False

/-- The history of a write says who has its handle, and a blob said to be published is. -/
structure Placed (m : Machine τ) : Prop where
  known : ∀ {h}, m.status h ≠ .published → h < m.forest.handles.size
  carried : ∀ {h} st, InFlight st → (m.status h = st ↔ Carried m h st)
  once : (m.queue.map PutItem.handle).Nodup
  ready : ∀ {h}, h < m.forest.handles.size → m.status h = .published → (m.forest.handle h).ready = true

theorem init_placed (s : TensorTier τ) : Placed (Machine.init s) := by
  refine ⟨fun h => absurd rfl h, ?_, List.nodup_nil, fun hlt => absurd hlt (Nat.not_lt_zero _)⟩
  intro h st hst
  cases st with
  | caller i => simp [Machine.init, Carried, stage]
  | queued => simp [Machine.init, Carried]
  | worker => simp [Machine.init, Carried]
  | aborted => cases hst
  | published => cases hst

structure Still (m m' : Machine τ) : Prop where
  status : m'.status = m.status
  stage : ∀ i, stage m' i = stage m i
  queue : m'.queue = m.queue
  worker : m'.worker.map Prod.fst = m.worker.map Prod.fst

theorem carried_worker {h : HandleId} : Carried m h .worker ↔ m.worker.map Prod.fst = some h := by
  simp [Carried]

theorem Still.carried (hs : Still m m') (h : HandleId) (st : WriteStatus) : Carried m' h st ↔ Carried m h st := by
  cases st with
  | caller i => simp only [Carried, hs.stage]
  | queued => simp only [Carried, hs.queue]
  | worker => rw [carried_worker, carried_worker, hs.worker]
  | aborted => rfl
  | published => rfl

theorem Placed.still (hp : Placed m) (hs : Still m m') (hsize : m'.forest.handles = m.forest.handles) : Placed m' := by
  refine ⟨?_, ?_, ?_, ?_⟩
  · intro h hst
    rw [hs.status] at hst
    rw [hsize]
    exact hp.known hst
  · intro h st hst
    rw [hs.status, hs.carried]
    exact hp.carried _ hst
  · rw [hs.queue]
    exact hp.once
  · intro h hlt hst
    rw [hs.status] at hst
    rw [hsize] at hlt
    have hhandle : m'.forest.handle h = m.forest.handle h := by simp only [NamespaceForest.handle, hsize]
    rw [hhandle]
    exact hp.ready hlt hst

structure Passed (m m' : Machine τ) (x : HandleId) (st : WriteStatus) : Prop where
  status : ∀ h, m'.status h = if h = x then st else m.status h
  other : ∀ {h st'}, h ≠ x → InFlight st' → (Carried m' h st' ↔ Carried m h st')
  self : ∀ {st'}, InFlight st' → (Carried m' x st' ↔ st = st')
  once : (m'.queue.map PutItem.handle).Nodup

/-- A handle passes from its call to the queue, to the worker and out. -/
theorem Placed.passed {x : HandleId} {st : WriteStatus} (hp : Placed m) (h : Passed m m' x st)
    (hx : x < m'.forest.handles.size) (hsize : m.forest.handles.size ≤ m'.forest.handles.size)
    (hready : ∀ {y}, y < m'.forest.handles.size → y ≠ x → m.status y = .published →
      (m'.forest.handle y).ready = true)
    (hself : st = .published → (m'.forest.handle x).ready = true) : Placed m' := by
  refine ⟨?_, ?_, h.once, ?_⟩
  · intro y hy
    rw [h.status] at hy
    by_cases he : y = x
    · rw [he]
      exact hx
    · rw [if_neg he] at hy
      exact Nat.lt_of_lt_of_le (hp.known hy) hsize
  · intro y st' hst'
    rw [h.status]
    by_cases he : y = x
    · rw [if_pos he, he]
      exact (h.self hst').symm
    · rw [if_neg he, hp.carried _ hst', h.other he hst']
  · intro y hy hst
    rw [h.status] at hst
    by_cases he : y = x
    · rw [if_pos he] at hst
      rw [he]
      exact hself hst
    · rw [if_neg he] at hst
      exact hready hy he hst

/-- A write is in one place. -/
theorem Placed.not_carried (hp : Placed m) {x : HandleId} {st st' : WriteStatus} (hx : m.status x = st)
    (hst' : InFlight st') (hne : st' ≠ st) : ¬ Carried m x st' := fun hc =>
  hne (((hp.carried _ hst').mpr hc).symm.trans hx)

theorem stage_set {i : Nat} {c : IngestCall τ} {pc : IngestPc τ} (hi : m.calls[i]? = some c)
    (hcalls : m'.calls = m.calls.set i { c with pc }) (j : Nat) :
    stage m' j = if j = i then attachedTo pc else stage m j := by
  have hlt : i < m.calls.length := (List.getElem?_eq_some_iff.mp hi).1
  simp only [stage, hcalls, List.getElem?_set]
  by_cases he : j = i
  · subst j
    simp [hlt]
  · rw [if_neg (Ne.symm he), if_neg he]

/-- A call that has a handle gives it away. -/
theorem call_passes {i : Nat} {c : IngestCall τ} {pc : IngestPc τ} {n : NodeId} {x : HandleId} {st : WriteStatus}
    (hp : Placed m) (hi : m.calls[i]? = some c) (hpc : attachedTo c.pc = some (n, some x))
    (hcalls : m'.calls = m.calls.set i { c with pc }) (hnext : ∀ k y, attachedTo pc ≠ some (k, some y))
    (hworker : m'.worker = m.worker) (hstatus : ∀ h, m'.status h = if h = x then st else m.status h)
    (hqueue : m'.queue = m.queue ∧ ¬ InFlight st ∨
      ∃ item, m'.queue = m.queue ++ [item] ∧ item.handle = x ∧ st = .queued) :
    Passed m m' x st := by
  have hstage := stage_set hi hcalls
  have hold : stage m i = some (n, some x) := by simp only [stage, hi, Option.bind_some, hpc]
  have hx : m.status x = .caller i := (hp.carried (.caller i) trivial).mpr ⟨n, hold⟩
  have hnot : ∀ st', InFlight st' → st' ≠ .caller i → ¬ Carried m x st' := fun _ => hp.not_carried hx
  have hqueued : x ∉ m.queue.map PutItem.handle := fun hq => hnot .queued trivial (fun h => by cases h) hq
  refine ⟨hstatus, ?_, ?_, ?_⟩
  · intro h st' hne hst'
    cases st' with
    | caller j =>
      simp only [Carried, hstage]
      by_cases he : j = i
      · subst j
        simp only [if_true, hold, Option.some.injEq, Prod.mk.injEq]
        exact ⟨fun ⟨k, hk⟩ => absurd hk (hnext k h), fun ⟨k, _, hk⟩ => absurd hk.symm hne⟩
      · simp only [if_neg he]
    | queued =>
      simp only [Carried]
      rcases hqueue with ⟨hq, _⟩ | ⟨item, hq, rfl, _⟩
      · rw [hq]
      · rw [hq, List.map_append, List.mem_append, List.map_singleton, List.mem_singleton]
        exact ⟨fun ho => ho.resolve_right hne, Or.inl⟩
    | worker => simp only [Carried, hworker]
    | aborted => rfl
    | published => rfl
  · intro st' hst'
    cases st' with
    | caller j =>
      simp only [Carried, hstage]
      constructor
      · rintro ⟨k, hk⟩
        split at hk
        · exact absurd hk (hnext k x)
        · rename_i he
          refine absurd ⟨k, hk⟩ (hnot (.caller j) trivial ?_)
          intro hj
          cases hj
          exact he rfl
      · intro he
        subst st
        rcases hqueue with ⟨_, hno⟩ | ⟨_, _, _, he⟩
        · exact (hno trivial).elim
        · cases he
    | queued =>
      simp only [Carried]
      rcases hqueue with ⟨hq, hno⟩ | ⟨item, hq, rfl, rfl⟩
      · rw [hq]
        refine iff_of_false hqueued ?_
        rintro rfl
        exact hno trivial
      · rw [hq, List.map_append, List.mem_append, List.map_singleton, List.mem_singleton]
        exact iff_of_true (Or.inr rfl) rfl
    | worker =>
      have hno : ¬ Carried m x .worker := hnot .worker trivial fun h => by cases h
      simp only [Carried, hworker] at hno ⊢
      refine iff_of_false hno ?_
      rintro rfl
      rcases hqueue with ⟨_, hno⟩ | ⟨_, _, _, he⟩
      · exact hno trivial
      · cases he
    | aborted => cases hst'
    | published => cases hst'
  · rcases hqueue with ⟨hq, _⟩ | ⟨item, hq, rfl, _⟩
    · rw [hq]
      exact hp.once
    · rw [hq, List.map_append, List.map_singleton]
      exact List.nodup_append.mpr ⟨hp.once, List.nodup_singleton _, fun y hy z hz => by
        rw [List.mem_singleton] at hz
        subst hz
        exact fun he => hqueued (he ▸ hy)⟩

theorem stage_congr (hcalls : m'.calls = m.calls) (i : Nat) : stage m' i = stage m i := by simp only [stage, hcalls]

/-- The worker takes the first item. -/
theorem worker_takes {item : PutItem τ} {rest : List (PutItem τ)} (hp : Placed m) (hworker : m.worker = none)
    (hqueue : m.queue = item :: rest) (hcalls : m'.calls = m.calls) (hqueue' : m'.queue = rest)
    (hworker' : m'.worker.map Prod.fst = some item.handle)
    (hstatus : ∀ h, m'.status h = if h = item.handle then .worker else m.status h) :
    Passed m m' item.handle .worker := by
  have honce := hp.once
  rw [hqueue, List.map_cons, List.nodup_cons] at honce
  have hx : m.status item.handle = .queued :=
    (hp.carried .queued trivial).mpr (by simp [Carried, hqueue])
  refine ⟨hstatus, ?_, ?_, ?_⟩
  · intro h st' hne hst'
    cases st' with
    | caller j => simp only [Carried, stage_congr hcalls]
    | queued => simp [Carried, hqueue, hqueue', hne]
    | worker =>
      rw [carried_worker, carried_worker, hworker', hworker]
      exact iff_of_false (fun he => hne (Option.some.inj he).symm) (fun he => by cases he)
    | aborted => rfl
    | published => rfl
  · intro st' hst'
    cases st' with
    | caller j =>
      refine iff_of_false ?_ fun he => by cases he
      rintro ⟨k, hk⟩
      rw [stage_congr hcalls] at hk
      exact hp.not_carried hx (show InFlight (.caller j) from trivial) (fun he => by cases he) ⟨k, hk⟩
    | queued =>
      refine iff_of_false ?_ fun he => by cases he
      simp only [Carried, hqueue']
      exact honce.1
    | worker =>
      rw [carried_worker, hworker']
      exact iff_of_true rfl rfl
    | aborted => cases hst'
    | published => cases hst'
  · rw [hqueue']
    exact honce.2

/-- The worker is done with its item. -/
theorem worker_releases {x : HandleId} {st : WriteStatus} (hp : Placed m) (hworker : m.worker.map Prod.fst = some x)
    (hcalls : m'.calls = m.calls) (hqueue : m'.queue = m.queue) (hworker' : m'.worker = none)
    (hst : ¬ InFlight st) (hstatus : ∀ h, m'.status h = if h = x then st else m.status h) : Passed m m' x st := by
  have hx : m.status x = .worker := (hp.carried .worker trivial).mpr (carried_worker.mpr hworker)
  refine ⟨hstatus, ?_, ?_, ?_⟩
  · intro h st' hne hst'
    cases st' with
    | caller j => simp only [Carried, stage_congr hcalls]
    | queued => simp only [Carried, hqueue]
    | worker =>
      rw [carried_worker, carried_worker, hworker', hworker]
      exact iff_of_false (fun he => by cases he) fun he => hne (Option.some.inj he).symm
    | aborted => rfl
    | published => rfl
  · intro st' hst'
    refine iff_of_false ?_ (by rintro rfl; exact hst hst')
    intro hc
    cases st' with
    | caller j =>
      obtain ⟨k, hk⟩ := hc
      rw [stage_congr hcalls] at hk
      exact hp.not_carried hx (show InFlight (.caller j) from trivial) (fun he => by cases he) ⟨k, hk⟩
    | queued =>
      simp only [Carried, hqueue] at hc
      exact hp.not_carried hx (show InFlight .queued from trivial) (fun he => by cases he) hc
    | worker =>
      rw [carried_worker, hworker'] at hc
      cases hc
    | aborted => cases hst'
    | published => cases hst'
  · rw [hqueue]
    exact hp.once

/-- A call makes a handle. -/
theorem call_attaches {i : Nat} {c : IngestCall τ} {n : NodeId} (hp : Placed m) (hi : m.calls[i]? = some c)
    (hpc : attachedTo c.pc = none)
    (hcalls : m'.calls = m.calls.set i { c with pc := .putAsync n m.forest.handles.size })
    (hqueue : m'.queue = m.queue) (hworker : m'.worker = m.worker)
    (hstatus : ∀ h, m'.status h = if h = m.forest.handles.size then .caller i else m.status h) :
    Passed m m' m.forest.handles.size (.caller i) := by
  have hstage := stage_set hi hcalls
  have hold : stage m i = none := by simp only [stage, hi, Option.bind_some, hpc]
  have hnot : ∀ st', InFlight st' → ¬ Carried m m.forest.handles.size st' := by
    intro st' hst' hc
    have hx := (hp.carried _ hst').mpr hc
    refine Nat.lt_irrefl _ (hp.known (h := m.forest.handles.size) ?_)
    rw [hx]
    rintro rfl
    exact hst'
  refine ⟨hstatus, ?_, ?_, ?_⟩
  · intro h st' hne hst'
    cases st' with
    | caller j =>
      simp only [Carried, hstage]
      by_cases he : j = i
      · subst j
        simp [hold, attachedTo, Ne.symm hne]
      · simp only [if_neg he]
    | queued => simp only [Carried, hqueue]
    | worker => simp only [Carried, hworker]
    | aborted => rfl
    | published => rfl
  · intro st' hst'
    cases st' with
    | caller j =>
      by_cases he : j = i
      · subst j
        simp [Carried, hstage, attachedTo]
      · refine iff_of_false ?_ fun hji => he (WriteStatus.caller.inj hji).symm
        have := hnot (.caller j) trivial
        simpa only [Carried, hstage, if_neg he] using this
    | queued =>
      refine iff_of_false ?_ fun he => by cases he
      simp only [Carried, hqueue]
      exact hnot .queued trivial
    | worker =>
      refine iff_of_false ?_ fun he => by cases he
      simp only [Carried, hworker]
      exact hnot .worker trivial
    | aborted => cases hst'
    | published => cases hst'
  · rw [hqueue]
    exact hp.once

/-- The handle each node got last, and where its write was when the blob was evicted. -/
structure History where
  latest : NodeId → Option HandleId
  dropped : NodeId → Option WriteStatus

def History.init : History := ⟨fun _ => none, fun _ => none⟩

def History.note (M : MachineConfig τ) (m : Machine τ) (g : History) : MachineEvent τ → History
  | .advance i _ =>
    match (m.calls[i]?).map IngestCall.pc with
    | some (.attach n) => ⟨Function.update g.latest n (some m.forest.handles.size), Function.update g.dropped n none⟩
    | _ => g
  | .evict n =>
    if (evictBlob (tensorStoreTierStore M.ops) m.forest m.store n).1 = true then
      { g with dropped := Function.update g.dropped n ((g.latest n).map m.status) }
    else g
  | _ => g

def recordedStep (M : MachineConfig τ) (s : Machine τ × History) (e : MachineEvent τ) : Option (Machine τ × History) :=
  (s.1.step M e).map fun m' => (m', s.2.note M s.1 e)

structure SameBlobs (f g : NamespaceForest) : Prop where
  size : f.nodes.size ≤ g.nodes.size
  old : ∀ {n}, n < f.nodes.size → (g.node n).blob = (f.node n).blob ∧ (g.node n).refCount = (f.node n).refCount
  new : ∀ {n}, f.nodes.size ≤ n → n < g.nodes.size → (g.node n).blob = none ∧ (g.node n).refCount = 0

theorem SameBlobs.of_nodes {f g : NamespaceForest} (h : g.nodes = f.nodes) : SameBlobs f g := by
  have hnode : ∀ n, g.node n = f.node n := fun n => by simp only [NamespaceForest.node, h]
  refine ⟨by rw [h], fun _ => by rw [hnode]; exact ⟨rfl, rfl⟩, fun hle hlt => ?_⟩
  rw [h] at hlt
  exact absurd hlt (Nat.not_lt.mpr hle)

theorem SameBlobs.modifyNode (f : NamespaceForest) (n : NodeId) (u : TrieNode → TrieNode)
    (hu : ∀ p, (u p).blob = p.blob ∧ (u p).refCount = p.refCount) : SameBlobs f (f.modifyNode n u) := by
  refine ⟨Nat.le_refl _, fun {k} _ => ?_, fun hle hlt => absurd hlt (Nat.not_lt.mpr hle)⟩
  by_cases he : k = n
  · subst k
    rw [modifyNode_self]
    exact hu _
  · rw [modifyNode_ne _ _ he]
    exact ⟨rfl, rfl⟩

theorem SameBlobs.pinSink (f : NamespaceForest) (cfg : WorldKVConfig) (n : NodeId) (d : Int) :
    SameBlobs f (f.pinSink cfg n d) := by
  unfold NamespaceForest.pinSink
  split
  · exact modifyNode f n _ fun _ => ⟨rfl, rfl⟩
  · exact of_nodes rfl

theorem SameBlobs.commit {f : NamespaceForest} {n : NodeId} (hn : n < f.nodes.size) (a : ActionKey) (k : Bytes)
    (d : Int) :
    SameBlobs f (f.commit n a k d).1 := by
  refine ⟨commit_le f n a k d, fun {x} hx => ?_, fun {x} hle hx => ?_⟩
  · rcases commit_node_cases hn k d (Nat.lt_of_lt_of_le hx (commit_le f n a k d)) with ⟨_, cs, he⟩ | ⟨hno, he, _⟩
    · rw [he]
      exact ⟨rfl, rfl⟩
    · rw [he, commit_new hno] at hx
      exact absurd hx (Nat.lt_irrefl _)
  · rcases commit_node_cases hn k d hx with ⟨hlt, _⟩ | ⟨_, _, he⟩
    · exact absurd hlt (Nat.not_lt.mpr hle)
    · rw [he]
      exact ⟨rfl, rfl⟩

theorem SameBlobs.create (f : NamespaceForest) (r c : Bytes) : SameBlobs f (f.getOrCreateNamespace r c).1 := by
  cases hr : f.resolve r with
  | some ns =>
    rw [getOrCreate_old hr]
    exact of_nodes rfl
  | none =>
    rw [getOrCreate_new hr]
    refine ⟨Nat.le_succ _, fun hx => ?_, fun hle hx => ?_⟩
    · rw [addWorld_old f r c hx]
      exact ⟨rfl, rfl⟩
    · obtain rfl := Nat.le_antisymm (Nat.lt_succ_iff.mp hx) hle
      rw [addWorld_new]
      exact ⟨rfl, rfl⟩

inductive Blobs (M : MachineConfig τ) (m : Machine τ) (e : MachineEvent τ) (m' : Machine τ) : Prop where
  | same (h : SameBlobs m.forest m'.forest) (hnote : ∀ g : History, g.note M m e = g)
      (hstage : ∀ i n x, stage m' i = some (n, x) → ∃ y, stage m i = some (n, y))
  | attach (i : Nat) (n : NodeId) (b : BlobHandle) (hn : n < m.forest.nodes.size)
      (hf : m'.forest = (m.forest.attachBlob n b).1)
      (hnote : ∀ g : History, g.note M m e =
        ⟨Function.update g.latest n (some m.forest.handles.size), Function.update g.dropped n none⟩)
      (hstage : ∀ j k x, stage m' j = some (k, x) → k = n ∨ ∃ y, stage m j = some (k, y))
  | evict (n : NodeId) (h : HandleId) (he : e = .evict n) (hn : n < m.forest.nodes.size)
      (hb : (m.forest.node n).blob = some h) (hpin : (m.forest.node n).pinned = false)
      (hf : m'.forest = m.forest.modifyNode n fun p => { p with blob := none })
      (hnote : ∀ g : History, g.note M m e =
        { g with dropped := Function.update g.dropped n ((g.latest n).map m.status) })
      (hstage : ∀ i, stage m' i = stage m i)

structure Flows (M : MachineConfig τ) (m : Machine τ) (e : MachineEvent τ) (m' : Machine τ) : Prop where
  placed : Placed m'
  handles : m.forest.handles.size ≤ m'.forest.handles.size
  aborted : ∀ {h}, m.status h = .aborted → m'.status h = .aborted
  blobs : Blobs M m e m'

variable {e : MachineEvent τ}

theorem flows_still (hp : Placed m) (hs : Still m m') (hh : m'.forest.handles = m.forest.handles)
    (hb : SameBlobs m.forest m'.forest) (hnote : ∀ g : History, g.note M m e = g) : Flows M m e m' := by
  refine ⟨hp.still hs hh, by rw [hh], fun ha => by rw [hs.status, ha], .same hb hnote ?_⟩
  intro i n x hx
  rw [hs.stage] at hx
  exact ⟨x, hx⟩

theorem flows_passed {x : HandleId} {st : WriteStatus} (hp : Placed m) (h : Passed m m' x st)
    (hx : InFlight (m.status x)) (hf : m'.forest = m.forest ∧ st ≠ .published ∨ m'.forest = m.forest.publish x)
    (hnote : ∀ g : History, g.note M m e = g)
    (hstage : ∀ i n x, stage m' i = some (n, x) → ∃ y, stage m i = some (n, y)) : Flows M m e m' := by
  have hlt : x < m.forest.handles.size := hp.known fun he => by rw [he] at hx; exact hx
  have hsize : m'.forest.handles.size = m.forest.handles.size := by
    rcases hf with ⟨hf, _⟩ | hf <;> rw [hf]
    rfl
  have hnodes : m'.forest.nodes = m.forest.nodes := by
    rcases hf with ⟨hf, _⟩ | hf <;> rw [hf]
    rfl
  refine ⟨hp.passed h (by rw [hsize]; exact hlt) (by rw [hsize]) ?_ ?_, by rw [hsize], ?_,
    .same (.of_nodes hnodes) hnote hstage⟩
  · intro y hy hne hst
    rw [hsize] at hy
    have hready := hp.ready hy hst
    rcases hf with ⟨hf, _⟩ | hf
    · rw [hf]
      exact hready
    · rw [hf, publish_handle_ne _ hne]
      exact hready
  · intro hst
    rcases hf with ⟨_, hne⟩ | hf
    · exact absurd hst hne
    · rw [hf, publish_handle_self]
  · intro y hy
    rw [h.status, if_neg]
    · exact hy
    · rintro rfl
      rw [hy] at hx
      exact hx

theorem still_call {i : Nat} {c : IngestCall τ} {pc : IngestPc τ} (hi : m.calls[i]? = some c)
    (hcalls : m'.calls = m.calls.set i { c with pc }) (hpc : attachedTo pc = attachedTo c.pc)
    (hstatus : m'.status = m.status) (hqueue : m'.queue = m.queue) (hworker : m'.worker = m.worker) : Still m m' := by
  refine ⟨hstatus, fun j => ?_, hqueue, by rw [hworker]⟩
  rw [stage_set hi hcalls]
  split
  · rename_i he
    subst j
    simp only [stage, hi, Option.bind_some, hpc]
  · rfl

theorem note_advance {i : Nat} {c : IngestCall τ} {o : Outcome} (hi : m.calls[i]? = some c)
    (hpc : ∀ n, c.pc ≠ .attach n) (g : History) : g.note M m (.advance i o) = g := by
  simp only [History.note, hi, Option.map_some]
  split
  · rename_i n he
    exact absurd (Option.some.inj he) (hpc n)
  · rfl

theorem call_status {i : Nat} {c : IngestCall τ} {n : NodeId} {x : HandleId} (hp : Placed m)
    (hi : m.calls[i]? = some c) (hpc : attachedTo c.pc = some (n, some x)) : InFlight (m.status x) := by
  have hx : m.status x = .caller i :=
    (hp.carried (.caller i) trivial).mpr ⟨n, by simp only [stage, hi, Option.bind_some, hpc]⟩
  rw [hx]
  trivial

theorem stage_next {i : Nat} {c : IngestCall τ} {pc : IngestPc τ} {n : NodeId} {x : Option HandleId}
    (hi : m.calls[i]? = some c) (hpc : attachedTo c.pc = some (n, x)) (hcalls : m'.calls = m.calls.set i { c with pc })
    (hnext : attachedTo pc = none ∨ attachedTo pc = some (n, none)) (j : Nat) (k : NodeId) (y : Option HandleId)
    (hy : stage m' j = some (k, y)) : ∃ z, stage m j = some (k, z) := by
  rw [stage_set hi hcalls] at hy
  split at hy
  · rename_i he
    subst j
    rcases hnext with hn | hn
    · rw [hn] at hy
      cases hy
    · rw [hn] at hy
      cases hy
      exact ⟨x, by simp only [stage, hi, Option.bind_some, hpc]⟩
  · exact ⟨y, hy⟩

/-- The new handle is in the hands of its call, and on its node. -/
theorem flows_attach {i : Nat} {a : IngestArgs (LayerValue τ) τ} {o : Outcome} {n : NodeId} (ht : Tidy m)
    (hp : Placed m) (hi : m.calls[i]? = some ⟨a, .attach n⟩) :
    Flows M m (.advance i o) (({ m with forest := (m.forest.attachBlob n (a.newHandle M.cfg)).1 }.setStatus
      m.forest.handles.size (.caller i)).setPc i ⟨a, .attach n⟩ (.putAsync n m.forest.handles.size)) := by
  have hpass : Passed m (({ m with forest := (m.forest.attachBlob n (a.newHandle M.cfg)).1 }.setStatus
      m.forest.handles.size (.caller i)).setPc i ⟨a, .attach n⟩ (.putAsync n m.forest.handles.size))
      m.forest.handles.size (.caller i) :=
    call_attaches hp hi rfl rfl rfl rfl fun _ => rfl
  have hn : n < m.forest.nodes.size := (ht.shape.child_lt (ht.parent hi) (ht.target hi rfl)).2
  refine ⟨hp.passed hpass (Nat.lt_succ_self _) (Nat.le_succ _) ?_ (fun he => by cases he), Nat.le_succ _, ?_,
    .attach i n _ hn rfl (fun g => ?_) ?_⟩
  · intro y hy hne hst
    have hlt : y < m.forest.handles.size := Nat.lt_of_le_of_ne (Nat.lt_succ_iff.mp hy) hne
    have hhandle : (m.forest.attachBlob n (a.newHandle M.cfg)).1.handle y = m.forest.handle y :=
      Heap.get_alloc_lt _ _ hlt
    change ((m.forest.attachBlob n (a.newHandle M.cfg)).1.handle y).ready = true
    rw [hhandle]
    exact hp.ready hlt hst
  · intro y hy
    have hlt : y < m.forest.handles.size := hp.known (by rw [hy]; exact fun he => by cases he)
    exact (hpass.status y).trans (by rw [if_neg (Nat.ne_of_lt hlt), hy])
  · simp only [History.note, hi, Option.map_some]
  · intro j k y hy
    rw [stage_set hi rfl] at hy
    split at hy
    · cases hy
      exact Or.inl rfl
    · exact Or.inr ⟨y, hy⟩

theorem advance_flows {i : Nat} {a : IngestArgs (LayerValue τ) τ} {pc : IngestPc τ} {o : Outcome} (ht : Tidy m)
    (hp : Placed m) (hi : m.calls[i]? = some ⟨a, pc⟩) (hm : Machine.Advances M m i o a pc m') :
    Flows M m (.advance i o) m' := by
  cases hm with
  | commit =>
    exact flows_still hp (still_call hi rfl rfl rfl rfl rfl) (commit_handles _ _ _ _ _)
      (SameBlobs.commit (ht.parent hi) _ _ _) (note_advance hi fun n hn => by cases hn)
  | pin n =>
    exact flows_still hp (still_call hi rfl rfl rfl rfl rfl) (pinSink_handles _ _ _ _)
      (SameBlobs.pinSink _ _ _ _) (note_advance hi fun n hn => by cases hn)
  | skeletonPut n s _ =>
    exact flows_still hp (still_call hi rfl rfl rfl rfl rfl) rfl (.of_nodes rfl)
      (note_advance hi fun n hn => by cases hn)
  | skeletonFails n s _ =>
    exact flows_still hp (still_call hi rfl rfl rfl rfl rfl) rfl (.of_nodes rfl)
      (note_advance hi fun n hn => by cases hn)
  | setSkeleton n =>
    exact flows_still hp (still_call hi rfl rfl rfl rfl rfl) rfl (.modifyNode _ _ _ fun _ => ⟨rfl, rfl⟩)
      (note_advance hi fun n hn => by cases hn)
  | attach n => exact flows_attach ht hp hi
  | enqueue n x _ _ =>
    exact flows_passed hp (call_passes hp hi rfl rfl (fun k y he => by cases he) rfl (fun _ => rfl)
      (Or.inr ⟨_, rfl, rfl, rfl⟩)) (call_status hp hi rfl) (Or.inl ⟨rfl, fun he => by cases he⟩)
      (note_advance hi fun n hn => by cases hn) (stage_next hi rfl rfl (Or.inr rfl))
  | writes n x _ =>
    exact flows_still hp (still_call hi rfl rfl rfl rfl rfl) rfl (.of_nodes rfl)
      (note_advance hi fun n hn => by cases hn)
  | publish n x =>
    exact flows_passed hp (call_passes hp hi rfl rfl (fun k y he => by cases he) rfl (fun _ => rfl)
      (Or.inl ⟨rfl, id⟩)) (call_status hp hi rfl) (Or.inr rfl) (note_advance hi fun n hn => by cases hn)
      (stage_next hi rfl rfl (Or.inr rfl))
  | written n x key t pending s _ =>
    exact flows_still hp (still_call hi rfl rfl rfl rfl rfl) rfl (.of_nodes rfl)
      (note_advance hi fun n hn => by cases hn)
  | aborts n x key t pending s _ =>
    exact flows_passed hp (call_passes hp hi rfl rfl (fun k y he => by cases he) rfl (fun _ => rfl)
      (Or.inl ⟨rfl, id⟩)) (call_status hp hi rfl) (Or.inl ⟨rfl, fun he => by cases he⟩)
      (note_advance hi fun n hn => by cases hn) (stage_next hi rfl rfl (Or.inl rfl))

/-- A new call has attached nothing yet. -/
theorem stage_call (a : IngestArgs (LayerValue τ) τ) (i : Nat) :
    stage { m with calls := m.calls ++ [⟨a, .commit⟩] } i = stage m i := by
  simp only [stage, List.getElem?_append]
  split
  · rfl
  · rename_i hlt
    rw [List.getElem?_eq_none (Nat.not_lt.mp hlt)]
    cases i - m.calls.length with
    | zero => rfl
    | succ k => rfl

theorem step_flows (ht : Tidy m) (hp : Placed m) (hm : m.step M e = some m') : Flows M m e m' := by
  -- what the worker writes is in its hands
  have carried : ∀ {x pending}, m.worker = some (x, pending) →
      m.worker.map Prod.fst = some x ∧ InFlight (m.status x) := by
    intro x pending hw
    have hcarried : m.worker.map Prod.fst = some x := by rw [hw]; rfl
    have hworker : m.status x = .worker := (hp.carried .worker trivial).mpr (carried_worker.mpr hcarried)
    exact ⟨hcarried, by rw [hworker]; trivial⟩
  cases Machine.step_cases hm with
  | create r c =>
    refine flows_still hp ⟨rfl, fun _ => rfl, rfl, rfl⟩ ?_ (SameBlobs.create _ r c) fun _ => rfl
    cases hr : m.forest.resolve r with
    | some ns => rw [getOrCreate_old hr]
    | none =>
      rw [getOrCreate_new hr]
      rfl
  | call a _ _ => exact flows_still hp ⟨rfl, stage_call a, rfl, rfl⟩ rfl (.of_nodes rfl) fun _ => rfl
  | advance i o a pc _ hi ha => exact advance_flows ht hp hi ha
  | get item queue hw hq =>
    have hqueued : m.status item.handle = .queued := (hp.carried .queued trivial).mpr (by simp [Carried, hq])
    exact flows_passed hp (worker_takes hp hw hq rfl rfl rfl fun _ => rfl) (by rw [hqueued]; trivial)
      (Or.inl ⟨rfl, fun he => by cases he⟩) (fun _ => rfl) fun i n x hx => ⟨x, hx⟩
  | put o x key t pending s hw _ =>
    exact flows_still hp ⟨rfl, fun _ => rfl, rfl, (carried hw).1.symm⟩ rfl (.of_nodes rfl) fun _ => rfl
  | putFails o x key t pending s hw _ =>
    obtain ⟨hcarried, hworker⟩ := carried hw
    exact flows_passed hp (worker_releases hp hcarried rfl rfl rfl id fun _ => rfl) hworker
      (Or.inl ⟨rfl, fun he => by cases he⟩) (fun _ => rfl) fun i n x hx => ⟨x, hx⟩
  | finish x hw =>
    obtain ⟨hcarried, hworker⟩ := carried hw
    exact flows_passed hp (worker_releases hp hcarried rfl rfl rfl id fun _ => rfl) hworker
      (Or.inr rfl) (fun _ => rfl) fun i n x hx => ⟨x, hx⟩
  | evict n b hn hb hpin he =>
    refine ⟨hp.still ⟨rfl, fun _ => rfl, rfl, rfl⟩ rfl, Nat.le_refl _, id,
      .evict n b rfl hn hb hpin rfl (fun g => ?_) fun _ => rfl⟩
    simp only [History.note, he, if_true]
  | spare n he =>
    refine flows_still hp ⟨rfl, fun _ => rfl, rfl, rfl⟩ rfl (.of_nodes rfl) fun g => ?_
    simp only [History.note, he, Bool.false_eq_true, if_false]
  | read b layer => exact flows_still hp ⟨rfl, fun _ => rfl, rfl, rfl⟩ rfl (.of_nodes rfl) fun _ => rfl

/-- A node has the handle of its latest write unless it was evicted since. -/
structure Accounted (m : Machine τ) (g : History) : Prop where
  tidy : Tidy m
  placed : Placed m
  inside : ∀ {n h}, g.latest n = some h → n < m.forest.nodes.size ∧ h < m.forest.handles.size
  blob : ∀ {n}, n < m.forest.nodes.size → (m.forest.node n).blob = if g.dropped n = none then g.latest n else none
  free : ∀ {n}, n < m.forest.nodes.size → (m.forest.node n).refCount = 0
  attached : ∀ {i n x}, stage m i = some (n, x) → g.latest n ≠ none
  aborted : ∀ {n h}, g.latest n = some h → g.dropped n = some .aborted → m.status h = .aborted
  evicted : ∀ {n}, g.dropped n ≠ none → g.latest n ≠ none

theorem init_accounted (s : TensorTier τ) : Accounted (Machine.init s) History.init := by
  refine ⟨init_tidy s, init_placed s, fun h => ?_, fun hn => absurd hn (Nat.not_lt_zero _),
    fun hn => absurd hn (Nat.not_lt_zero _), fun h => ?_, fun h => ?_, fun h => absurd rfl h⟩
  · cases h
  · simp [stage, Machine.init] at h
  · cases h

section
variable {g : History} (h : Accounted m g) (htidy : Tidy m') (hplaced : Placed m')
  (hhandles : m.forest.handles.size ≤ m'.forest.handles.size)
  (haborted : ∀ {x}, m.status x = .aborted → m'.status x = .aborted)
include h htidy hplaced haborted

include hhandles in
/-- A step that leaves every blob leaves the history. -/
theorem Accounted.same (hsame : SameBlobs m.forest m'.forest)
    (hstage : ∀ i n x, stage m' i = some (n, x) → ∃ y, stage m i = some (n, y)) : Accounted m' g := by
  refine ⟨htidy, hplaced, fun hl => ?_, fun {n} hn => ?_, fun {n} hn => ?_, fun hs => ?_,
    fun hl hd => haborted (h.aborted hl hd), h.evicted⟩
  · obtain ⟨h1, h2⟩ := h.inside hl
    exact ⟨Nat.lt_of_lt_of_le h1 hsame.size, Nat.lt_of_lt_of_le h2 hhandles⟩
  · by_cases hlt : n < m.forest.nodes.size
    · rw [(hsame.old hlt).1, h.blob hlt]
    · have hnone : g.latest n = none := by
        cases hl : g.latest n with
        | none => rfl
        | some x => exact absurd (h.inside hl).1 hlt
      rw [(hsame.new (Nat.not_lt.mp hlt) hn).1, hnone, ite_self]
  · by_cases hlt : n < m.forest.nodes.size
    · rw [(hsame.old hlt).2, h.free hlt]
    · exact (hsame.new (Nat.not_lt.mp hlt) hn).2
  · obtain ⟨y, hy⟩ := hstage _ _ _ hs
    exact h.attached hy

/-- A node that gets a handle has that as its latest, and was not evicted since. -/
theorem Accounted.attach {n : NodeId} {b : BlobHandle} (hn : n < m.forest.nodes.size)
    (hf : m'.forest = (m.forest.attachBlob n b).1)
    (hstage : ∀ j k x, stage m' j = some (k, x) → k = n ∨ ∃ y, stage m j = some (k, y)) :
    Accounted m' ⟨Function.update g.latest n (some m.forest.handles.size), Function.update g.dropped n none⟩ := by
  have hnodes : m'.forest.nodes.size = m.forest.nodes.size := by rw [hf]; rfl
  have hnew : m'.forest.handles.size = m.forest.handles.size + 1 := by rw [hf]; rfl
  have hnode : ∀ k, m'.forest.node k =
      (m.forest.modifyNode n fun p => { p with blob := some m.forest.handles.size }).node k := by
    intro k
    rw [hf]
    rfl
  refine ⟨htidy, hplaced, fun {k x} hl => ?_, fun {k} hk => ?_, fun {k} hk => ?_, fun {j k x} hs => ?_,
    fun {k x} hl hd => ?_, fun {k} hd => ?_⟩
  · dsimp only at hl
    rw [hnodes, hnew]
    by_cases he : k = n
    · subst k
      rw [Function.update_self] at hl
      cases hl
      exact ⟨hn, Nat.lt_succ_self _⟩
    · rw [Function.update_of_ne he] at hl
      exact ⟨(h.inside hl).1, Nat.lt_succ_of_lt (h.inside hl).2⟩
  · rw [hnodes] at hk
    rw [hnode]
    dsimp only
    by_cases he : k = n
    · subst k
      simp
    · simp only [modifyNode_ne _ _ he, Function.update_of_ne he, h.blob hk]
  · rw [hnodes] at hk
    rw [hnode]
    by_cases he : k = n
    · subst k
      rw [modifyNode_self]
      exact h.free hk
    · rw [modifyNode_ne _ _ he, h.free hk]
  · dsimp only
    by_cases he : k = n
    · subst k
      rw [Function.update_self]
      exact Option.some_ne_none _
    · rw [Function.update_of_ne he]
      rcases hstage _ _ _ hs with hk | ⟨y, hy⟩
      · exact absurd hk he
      · exact h.attached hy
  · dsimp only at hl hd
    by_cases he : k = n
    · subst k
      rw [Function.update_self] at hd
      cases hd
    · rw [Function.update_of_ne he] at hl hd
      exact haborted (h.aborted hl hd)
  · dsimp only at hd ⊢
    by_cases he : k = n
    · subst k
      rw [Function.update_self]
      exact Option.some_ne_none _
    · rw [Function.update_of_ne he] at hd ⊢
      exact h.evicted hd

include hhandles in
/-- A node that loses its blob remembers where its write was. -/
theorem Accounted.evict {n : NodeId} {x : HandleId} (hn : n < m.forest.nodes.size)
    (hb : (m.forest.node n).blob = some x)
    (hf : m'.forest = m.forest.modifyNode n fun p => { p with blob := none })
    (hstage : ∀ i, stage m' i = stage m i) :
    Accounted m' { g with dropped := Function.update g.dropped n ((g.latest n).map m.status) } := by
  have hnodes : m'.forest.nodes.size = m.forest.nodes.size := by rw [hf]; rfl
  have hlatest : g.latest n = some x := by
    have := h.blob hn
    rw [hb] at this
    split at this
    · exact this.symm
    · cases this
  refine ⟨htidy, hplaced, fun hl => ?_, fun {k} hk => ?_, fun {k} hk => ?_, fun hs => ?_,
    fun {k y} hl hd => ?_, fun {k} hd => ?_⟩
  · rw [hnodes]
    exact ⟨(h.inside hl).1, Nat.lt_of_lt_of_le (h.inside hl).2 hhandles⟩
  · rw [hnodes] at hk
    rw [hf]
    dsimp only
    by_cases he : k = n
    · subst k
      simp [hlatest]
    · simp only [modifyNode_ne _ _ he, Function.update_of_ne he, h.blob hk]
  · rw [hnodes] at hk
    rw [hf]
    by_cases he : k = n
    · subst k
      rw [modifyNode_self]
      exact h.free hk
    · rw [modifyNode_ne _ _ he, h.free hk]
  · rw [hstage] at hs
    exact h.attached hs
  · dsimp only at hl hd
    by_cases he : k = n
    · subst k
      rw [Function.update_self] at hd
      rw [hl, Option.map_some] at hd
      exact haborted (Option.some.inj hd)
    · rw [Function.update_of_ne he] at hd
      exact haborted (h.aborted hl hd)
  · dsimp only at hd ⊢
    by_cases he : k = n
    · subst k
      rw [hlatest]
      exact Option.some_ne_none _
    · rw [Function.update_of_ne he] at hd
      exact h.evicted hd

end

theorem step_accounted {g : History} (h : Accounted m g) (hm : m.step M e = some m') : Accounted m' (g.note M m e) := by
  have hok := step_stepOk h.tidy hm
  obtain ⟨hplaced, hhandles, haborted, hblobs⟩ := step_flows h.tidy h.placed hm
  cases hblobs with
  | same hsame hnote hstage =>
    rw [hnote]
    exact h.same hok.tidy hplaced hhandles haborted hsame hstage
  | attach i n b hn hf hnote hstage =>
    rw [hnote]
    exact h.attach hok.tidy hplaced haborted hn hf hstage
  | evict n x _ hn hb _ hf hnote hstage =>
    rw [hnote]
    exact h.evict hok.tidy hplaced hhandles haborted hn hb hf hstage

theorem recordedStep_accounted {s s' : Machine τ × History} (h : Accounted s.1 s.2)
    (hs : recordedStep M s e = some s') :
    Accounted s'.1 s'.2 := by
  obtain ⟨m', hm, rfl⟩ := Option.map_eq_some_iff.mp hs
  exact step_accounted h hm

theorem run_accounted {s : Machine τ × History} {st : TensorTier τ} {es : List (MachineEvent τ)}
    (hr : run (recordedStep M) (Machine.init st, History.init) es = some s) : Accounted s.1 s.2 :=
  run_invariant (fun _ _ _ h hs => recordedStep_accounted h hs) (init_accounted st) hr

/-- Nothing is on its way and no call is under way. -/
def Drained (m : Machine τ) : Prop :=
  m.queue = [] ∧ m.worker = none ∧ ∀ c ∈ m.calls, c.pc = .raised ∨ ∃ n, c.pc = .returned n

/-- With nothing queued or running, no write is in flight. -/
theorem drained_none {h : HandleId} (hd : Drained m) (hp : Placed m) : ¬ InFlight (m.status h) := by
  obtain ⟨hqueue, hworker, hcalls⟩ := hd
  intro hst
  have hc := (hp.carried _ hst).mp rfl
  cases hs : m.status h with
  | caller i =>
    rw [hs] at hc
    obtain ⟨n, hn⟩ := hc
    obtain ⟨c, hi, hpc⟩ := Option.bind_eq_some_iff.mp hn
    rcases hcalls c (List.mem_of_getElem? hi) with he | ⟨k, he⟩
    · rw [he] at hpc
      cases hpc
    · rw [he] at hpc
      cases hpc
  | queued =>
    rw [hs] at hc
    simp [Carried, hqueue] at hc
  | worker =>
    rw [hs] at hc
    simp [Carried, hworker] at hc
  | aborted =>
    rw [hs] at hst
    exact hst
  | published =>
    rw [hs] at hst
    exact hst

/-- No eviction meets an unpinned node with a write in flight. -/
def Spares (s : Machine τ × History) : MachineEvent τ → Prop
  | .evict n => ∀ h, s.2.latest n = some h → InFlight (s.1.status h) → (s.1.forest.node n).pinned = true
  | _ => True

def RunSpares (M : MachineConfig τ) : Machine τ × History → List (MachineEvent τ) → Prop
  | _, [] => True
  | s, e :: es => Spares s e ∧ ∀ s', recordedStep M s e = some s' → RunSpares M s' es

theorem runSpares_of_no_evict {s : Machine τ × History} {es : List (MachineEvent τ)} (h : ∀ n, .evict n ∉ es) :
    RunSpares M s es := by
  induction es generalizing s with
  | nil => trivial
  | cons e es ih =>
    refine ⟨?_, fun s' _ => ih fun n hn => h n (List.mem_cons_of_mem e hn)⟩
    cases e with
    | evict n => exact absurd List.mem_cons_self (h n)
    | _ => trivial

theorem step_spares {s s' : Machine τ × History} (h : ∀ n st, s.2.dropped n = some st → ¬ InFlight st)
    (ha : Accounted s.1 s.2) (he : Spares s e) (hs : recordedStep M s e = some s') :
    ∀ n st, s'.2.dropped n = some st → ¬ InFlight st := by
  obtain ⟨m, g⟩ := s
  obtain ⟨m', hm, rfl⟩ := Option.map_eq_some_iff.mp hs
  have hblobs := (step_flows ha.tidy ha.placed hm).blobs
  intro n st hd
  dsimp only at hd h ha
  cases hblobs with
  | same _ hnote _ =>
    rw [hnote] at hd
    exact h n st hd
  | attach i k _ _ _ hnote _ =>
    rw [hnote] at hd
    dsimp only at hd
    by_cases hk : n = k
    · subst n
      rw [Function.update_self] at hd
      cases hd
    · rw [Function.update_of_ne hk] at hd
      exact h n st hd
  | evict k x hk _ _ hpin _ hnote _ =>
    subst e
    rw [hnote] at hd
    dsimp only at hd
    by_cases hk : n = k
    · subst n
      rw [Function.update_self] at hd
      obtain ⟨y, hy, rfl⟩ := Option.map_eq_some_iff.mp hd
      intro hst
      rw [he y hy hst] at hpin
      cases hpin
    · rw [Function.update_of_ne hk] at hd
      exact h n st hd

/-- An eviction that spares writes in flight drops none of them. -/
theorem run_spares {s s' : Machine τ × History} {es : List (MachineEvent τ)}
    (h : ∀ n st, s.2.dropped n = some st → ¬ InFlight st) (ha : Accounted s.1 s.2) (hes : RunSpares M s es)
    (hr : run (recordedStep M) s es = some s') : ∀ n st, s'.2.dropped n = some st → ¬ InFlight st := by
  induction es generalizing s with
  | nil =>
    cases hr
    exact h
  | cons e es ih =>
    obtain ⟨u, hu, hr⟩ := run_cons.mp hr
    obtain ⟨he, hes⟩ := hes
    exact ih (step_spares h ha he hu) (recordedStep_accounted ha hu) (hes u hu) hr

/-- A write in flight does not refuse it. -/
theorem evict_refused_iff {g : History} (h : Accounted m g) {n : NodeId} {x : HandleId} (hl : g.latest n = some x) :
    evictBlob (tensorStoreTierStore M.ops) m.forest m.store n = (false, m.forest, m.store) ↔
      (m.forest.node n).pinned = true ∨ g.dropped n ≠ none := by
  have hn := (h.inside hl).1
  have hblob := h.blob hn
  rcases evictBlob_cases (tensorStoreTierStore M.ops) m.forest m.store n with ⟨b, hb, hpin, _, he⟩ | ⟨hc, he⟩
  · rw [hb] at hblob
    rw [he]
    refine iff_of_false (fun hf => by cases hf) ?_
    rintro (hp | hd)
    · rw [hpin] at hp
      cases hp
    · rw [if_neg hd] at hblob
      cases hblob
  · refine iff_of_true he ?_
    rcases hc with hb | hpin | href
    · right
      intro hd
      rw [hb, if_pos hd, hl] at hblob
      cases hblob
    · exact Or.inl hpin
    · rw [h.free hn] at href
      exact absurd href (by decide)

/-- A written chunk is published until its blob goes. -/
theorem written_hasKv_iff {g : History} (h : Accounted m g) {n : NodeId} {x : HandleId} (hl : g.latest n = some x)
    (hst : m.status x = .published) : m.forest.hasKv n = true ↔ g.dropped n = none := by
  obtain ⟨hn, hx⟩ := h.inside hl
  have hblob := h.blob hn
  constructor
  · intro hkv
    obtain ⟨b, hb, _⟩ := hasKv_iff.mp hkv
    by_contra hd
    rw [hb, if_neg hd] at hblob
    cases hblob
  · intro hd
    rw [if_pos hd, hl] at hblob
    exact hasKv_iff.mpr ⟨x, hblob, h.placed.ready hx hst⟩

/-- A call that returned has attached a handle. -/
theorem returned_latest {g : History} (h : Accounted m g) {c : IngestCall τ} (hc : c ∈ m.calls) {n : NodeId}
    (hpc : c.pc = .returned n) : ∃ x, g.latest n = some x := by
  obtain ⟨i, hi⟩ := List.mem_iff_getElem?.mp hc
  have hs : stage m i = some (n, none) := by simp only [stage, hi, Option.bind_some, hpc, attachedTo]
  exact Option.ne_none_iff_exists'.mp (h.attached hs)

/-- While a write is in flight its node's blob is kept just when the node is pinned or has none;
and once all is written, the ingested chunks that stay published are those whose blob was not
evicted in flight, which are all of them if no eviction met an unpinned node then. -/
theorem evict_in_flight_iff (M : MachineConfig τ) (st : TensorTier τ) (es : List (MachineEvent τ)) (m : Machine τ)
    (g : History) (hr : run (recordedStep M) (Machine.init st, History.init) es = some (m, g)) :
    (∀ n h, g.latest n = some h → InFlight (m.status h) →
      (evictBlob (tensorStoreTierStore M.ops) m.forest m.store n = (false, m.forest, m.store) ↔
        (m.forest.node n).pinned = true ∨ g.dropped n ≠ none)) ∧
    (Drained m → ∀ c ∈ m.calls, ∀ n, c.pc = .returned n → ∃ h, g.latest n = some h ∧
      (m.status h ≠ .aborted → g.dropped n ≠ some .published →
        (m.forest.hasKv n = true ↔ ¬ ∃ w, g.dropped n = some w ∧ InFlight w))) ∧
    (RunSpares M (Machine.init st, History.init) es → Drained m → ∀ c ∈ m.calls, ∀ n, c.pc = .returned n →
      ∃ h, g.latest n = some h ∧
        (m.status h ≠ .aborted → g.dropped n ≠ some .published → m.forest.hasKv n = true)) := by
  have h : Accounted m g := run_accounted hr
  have hdrained : Drained m → ∀ c ∈ m.calls, ∀ n, c.pc = .returned n → ∃ h, g.latest n = some h ∧
      (m.status h ≠ .aborted → g.dropped n ≠ some .published →
        (m.forest.hasKv n = true ↔ ¬ ∃ w, g.dropped n = some w ∧ InFlight w)) := by
    intro hd c hc n hpc
    obtain ⟨x, hx⟩ := returned_latest h hc hpc
    refine ⟨x, hx, fun hnot hkept => ?_⟩
    have hidle := @drained_none _ _ x hd h.placed
    have hst : m.status x = .published := by
      cases hs : m.status x with
      | published => rfl
      | aborted => exact absurd hs hnot
      | caller i => exact (hidle (by rw [hs]; trivial)).elim
      | queued => exact (hidle (by rw [hs]; trivial)).elim
      | worker => exact (hidle (by rw [hs]; trivial)).elim
    rw [written_hasKv_iff h hx hst]
    constructor
    · rintro hnone ⟨w, hw, _⟩
      rw [hnone] at hw
      cases hw
    · intro hno
      cases hw : g.dropped n with
      | none => rfl
      | some w =>
        refine absurd ⟨w, hw, ?_⟩ hno
        cases w with
        | published => exact absurd hw hkept
        | aborted => exact absurd (h.aborted hx hw) hnot
        | caller i => trivial
        | queued => trivial
        | worker => trivial
  refine ⟨fun n x hx _ => evict_refused_iff h hx, hdrained, fun hes hd c hc n hpc => ?_⟩
  obtain ⟨x, hx, hkv⟩ := hdrained hd c hc n hpc
  have hspared := run_spares (fun n w hw => by cases hw) (init_accounted st) hes hr
  refine ⟨x, hx, fun hnot hkept => (hkv hnot hkept).mpr ?_⟩
  rintro ⟨w, hw, hin⟩
  exact hspared n w hw hin

def evictQueued : List (MachineEvent Nat) := oneChunk.take 8 ++ .evict 1 :: oneChunk.drop 8

def sinkMachine : MachineConfig Nat := { numberMachine with cfg := { numberMachine.cfg with sinkChunks := 1 } }

theorem runSpares_append {s u : Machine τ × History} {es fs : List (MachineEvent τ)} (hes : ∀ n, .evict n ∉ es)
    (hr : run (recordedStep M) s es = some u) (hfs : RunSpares M u fs) : RunSpares M s (es ++ fs) := by
  induction es generalizing s with
  | nil =>
    cases hr
    exact hfs
  | cons e es ih =>
    obtain ⟨v, hv, hr⟩ := run_cons.mp hr
    refine ⟨?_, fun s' hs' => ?_⟩
    · cases e with
      | evict n => exact absurd List.mem_cons_self (hes n)
      | _ => trivial
    · rw [hv] at hs'
      cases hs'
      exact ih (fun n hn => hes n (List.mem_cons_of_mem e hn)) hr

theorem drained_of {i : Nat} (hqueue : m.queue = []) (hworker : m.worker = none)
    (hcalls : m.calls.map IngestCall.pc = [.returned i]) :
    Drained m ∧ ∃ c ∈ m.calls, c.pc = .returned i := by
  obtain ⟨c, hc⟩ := List.map_eq_singleton_iff.mp hcalls
  rw [Drained, hc.1]
  refine ⟨⟨hqueue, hworker, fun d hd => ?_⟩, c, List.mem_cons_self, hc.2⟩
  rw [List.mem_singleton.mp hd]
  exact Or.inr ⟨i, hc.2⟩

/-- A pinned chunk stays and an unpinned one does not. -/
theorem evict_in_flight_iff_one_chunk :
    (∃ m g, run (recordedStep sinkMachine) (Machine.init {}, History.init) (oneChunk.take 8) = some (m, g) ∧
      m.status 0 = .queued ∧
      evictBlob (tensorStoreTierStore sinkMachine.ops) m.forest m.store 1 = (false, m.forest, m.store)) ∧
    (∃ m g, run (recordedStep sinkMachine) (Machine.init {}, History.init) evictQueued = some (m, g) ∧ Drained m ∧
      m.forest.hasKv 1 = true) ∧
    ∃ m g, run (recordedStep numberMachine) (Machine.init {}, History.init) evictQueued = some (m, g) ∧ Drained m ∧
      m.forest.hasKv 1 = false := by
  have hnone : ∀ n, .evict n ∉ oneChunk := fun n => by simp [oneChunk]
  obtain ⟨u, gu, hu, hlatest, hstatus, hpinned⟩ : ∃ u g,
      run (recordedStep sinkMachine) (Machine.init {}, History.init) (oneChunk.take 8) = some (u, g) ∧
        g.latest 1 = some 0 ∧ u.status 0 = .queued ∧ (u.forest.node 1).pinned = true := ⟨_, _, rfl, rfl, rfl, rfl⟩
  have hspares : RunSpares sinkMachine (Machine.init {}, History.init) evictQueued := by
    apply runSpares_append (fun n hn => hnone n (List.mem_of_mem_take hn)) hu
    exact ⟨fun _ _ _ => hpinned, fun s' _ => runSpares_of_no_evict fun n hn => hnone n (List.mem_of_mem_drop hn)⟩
  refine ⟨⟨u, gu, hu, hstatus, ?_⟩, ?_, ?_⟩
  · have hrefused := (evict_in_flight_iff sinkMachine {} _ u gu hu).1 1 0 hlatest (by rw [hstatus]; trivial)
    exact hrefused.mpr (Or.inl hpinned)
  · obtain ⟨m, g, hr, hcalls, hqueue, hworker, hl, hst, hd⟩ : ∃ m g,
        run (recordedStep sinkMachine) (Machine.init {}, History.init) evictQueued = some (m, g) ∧
          m.calls.map IngestCall.pc = [.returned 1] ∧ m.queue = [] ∧ m.worker = none ∧ g.latest 1 = some 0 ∧
          m.status 0 = .published ∧ g.dropped 1 = none := ⟨_, _, rfl, rfl, rfl, rfl, rfl, rfl, rfl⟩
    obtain ⟨hdrained, c, hc, hpc⟩ := drained_of hqueue hworker hcalls
    obtain ⟨h, hh, hkv⟩ := (evict_in_flight_iff sinkMachine {} evictQueued m g hr).2.2 hspares hdrained c hc 1 hpc
    rw [hl] at hh
    cases hh
    exact ⟨m, g, hr, hdrained, hkv (by rw [hst]; nofun) (by rw [hd]; nofun)⟩
  · obtain ⟨m, g, hr, hcalls, hqueue, hworker, hl, hst, hd⟩ : ∃ m g,
        run (recordedStep numberMachine) (Machine.init {}, History.init) evictQueued = some (m, g) ∧
          m.calls.map IngestCall.pc = [.returned 1] ∧ m.queue = [] ∧ m.worker = none ∧ g.latest 1 = some 0 ∧
          m.status 0 = .published ∧ g.dropped 1 = some .queued := ⟨_, _, rfl, rfl, rfl, rfl, rfl, rfl, rfl⟩
    obtain ⟨hdrained, c, hc, hpc⟩ := drained_of hqueue hworker hcalls
    obtain ⟨h, hh, hkv⟩ := (evict_in_flight_iff numberMachine {} evictQueued m g hr).2.1 hdrained c hc 1 hpc
    rw [hl] at hh
    cases hh
    refine ⟨m, g, hr, hdrained, ?_⟩
    have hlost := hkv (by rw [hst]; nofun) (by rw [hd]; nofun)
    cases hhas : m.forest.hasKv 1 with
    | false => rfl
    | true => exact absurd ⟨.queued, hd, trivial⟩ (hlost.mp hhas)

/-- The eviction succeeds, and the chunk is never published though its write is. -/
theorem evict_in_flight_loses :
    (∃ m g, run (recordedStep numberMachine) (Machine.init {}, History.init) (oneChunk.take 8) = some (m, g) ∧
      g.latest 1 = some 0 ∧ m.status 0 = .queued ∧
      (evictBlob (tensorStoreTierStore numberMachine.ops) m.forest m.store 1).1 = true) ∧
    ∃ m g, run (recordedStep numberMachine) (Machine.init {}, History.init) evictQueued = some (m, g) ∧
      m.queue = [] ∧ m.worker = none ∧ m.calls.map IngestCall.pc = [.returned 1] ∧ m.status 0 = .published ∧
      g.dropped 1 = some .queued ∧ m.forest.hasKv 1 = false :=
  ⟨⟨_, _, rfl, rfl, rfl, rfl⟩, _, _, rfl, rfl, rfl, rfl, rfl, rfl, rfl⟩

end CacheSeek.Proofs.EvictionInFlight
