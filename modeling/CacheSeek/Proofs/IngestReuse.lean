import CacheSeek.Proofs.ReuseKept

namespace CacheSeek.Proofs.IngestReuse
open CacheSeek.Lib CacheSeek.Prefix CacheSeek.Prefix.NamespaceForest CacheSeek.Stores
open CacheSeek.Proofs.ReuseKept

variable {τ : Type} (M : MachineConfig τ)

/-- The steps of one `ingest` call and of the worker. -/
def OwnStep (i : Nat) : MachineEvent τ → Prop
  | .advance j _ => j = i
  | .get => True
  | .put _ => True
  | .finish => True
  | _ => False

/-- At every moment of the call, and after it, lookups match what they matched before. -/
def KeepsReuse (m : Machine τ) (a : IngestArgs (LayerValue τ) τ) : Prop :=
  ∀ es m', (∀ e ∈ es, OwnStep m.calls.length e) →
    run (Machine.step M) m (.call a :: es) = some m' → NoLess m.forest m'.forest

/-- No blob is dropped, and none is replaced that lookup can reach. -/
def Spares (m : Machine τ) (e : MachineEvent τ) : Prop :=
  (∀ n, e ≠ .evict n) ∧ ∀ i o c n, e = .advance i o → m.calls[i]? = some c → c.pc = .attach n →
    ¬ Matchable m.forest n

def Sparing : Machine τ → List (MachineEvent τ) → Prop
  | _, [] => True
  | m, e :: es => Spares m e ∧ ∀ m', m.step M e = some m' → Sparing m' es

variable {M}

/-- Replacing a blob takes away the paths through its node, no others. -/
theorem attach_full {m : Machine τ} (h : Tidy m) {n : NodeId} {r : Bytes} {p : List ActionKey}
    (hn : m.forest.nodeAt r p = some n) {b : BlobHandle} (hb : b.ready = false) {r' : Bytes}
    {q : List ActionKey} (hq : Full m.forest r' q) (hne : ∀ j, 1 ≤ j → j ≤ q.length →
      ¬ (r' = r ∧ q.take j = p)) : Full (m.forest.attachBlob n b).1 r' q := by
  intro j h1 h2
  rw [published_attachBlob h hn hb, if_neg (hne j h1 h2)]
  exact hq j h1 h2

theorem attach_noLess {m : Machine τ} (h : Tidy m) {n : NodeId} (hlt : n < m.forest.nodes.size)
    {b : BlobHandle} (hb : b.ready = false) (hm : ¬ Matchable m.forest n) :
    NoLess m.forest (m.forest.attachBlob n b).1 := by
  obtain ⟨r, p, hn⟩ := h.shape.exists_path h.attached hlt
  apply noLess_of_full h.shape ((attachBlob_sameTrie m.forest n b).shape h.shape)
  intro r' q hq
  apply attach_full h hn hb hq
  rintro j h1 h2 ⟨rfl, rfl⟩
  refine hm ((matchable_iff h.shape hn ?_).mpr (hq.initial (List.take_prefix j q)))
  intro he
  have := congrArg List.length he
  rw [List.length_take, List.length_nil] at this
  omega

/-- One sparing step keeps every match. -/
theorem step_noLess {m m' : Machine τ} {e : MachineEvent τ} (h : Tidy m) (hs : Spares m e)
    (hm : m.step M e = some m') : NoLess m.forest m'.forest := by
  obtain ⟨ht, _, heff⟩ := step_stepOk h hm
  cases heff with
  | gain hg => exact noLess_of_full h.shape ht.shape fun r p => hg.full
  | attach i o c n he hi hpc b hb hf =>
    rw [hf]
    have hlt := (h.shape.child_lt (h.parent hi) (h.target hi (by rw [hpc]; rfl))).2
    exact attach_noLess h hlt hb (hs.2 i o c n he hi hpc)
  | evict n he => exact absurd he (hs.1 n)

theorem run_noLess {m m' : Machine τ} {es : List (MachineEvent τ)} (h : Tidy m)
    (hs : Sparing M m es) (hr : run (Machine.step M) m es = some m') :
    NoLess m.forest m'.forest := by
  induction es generalizing m with
  | nil =>
    cases hr
    exact NoLess.refl _
  | cons e es ih =>
    obtain ⟨m1, h1, hr⟩ := run_cons.mp hr
    exact (step_noLess h hs.1 h1).trans (ih (step_stepOk h h1).tidy (hs.2 m1 h1) hr)

theorem call_step {m : Machine τ} {a : IngestArgs (LayerValue τ) τ}
    (hp : a.parent < m.forest.nodes.size) (ha : M.accepts m.forest a = true) :
    m.step M (.call a) = some { m with calls := m.calls ++ [⟨a, .commit⟩] } := by
  simp only [Machine.step]
  rw [if_pos ⟨hp, ha⟩]

/-- A statement of call `i` moves on call `i` and no other. -/
theorem advance_calls {m m' : Machine τ} {i : Nat} {a : IngestArgs (LayerValue τ) τ} {pc : IngestPc τ}
    {o : Outcome} (hm : Machine.Advances M m i o a pc m') :
    ∃ pc', m'.calls = m.calls.set i ⟨a, pc'⟩ := by
  cases hm <;> exact ⟨_, rfl⟩

/-- A call keeps its arguments. -/
theorem step_args {m m' : Machine τ} {e : MachineEvent τ} {i : Nat} {c : IngestCall τ}
    (he : OwnStep i e) (hi : m.calls[i]? = some c) (hm : m.step M e = some m') :
    ∃ d, m'.calls[i]? = some d ∧ d.args = c.args := by
  have hlt := (List.getElem?_eq_some_iff.mp hi).1
  cases Machine.step_cases hm with
  | advance j o a pc _ hj ha =>
    have he : j = i := he
    subst j
    rw [hi] at hj
    cases hj
    obtain ⟨pc', hc⟩ := advance_calls ha
    exact ⟨⟨a, pc'⟩, by rw [hc, List.getElem?_set_self hlt], rfl⟩
  | get | put | putFails | finish => exact ⟨c, hi, rfl⟩
  | create | call | evict | spare | read => exact False.elim he

/-- What one call can rely on while it runs: what was reachable before is reachable. -/
structure Kept (m : Machine τ) (i : Nat) (a : IngestArgs (LayerValue τ) τ) (m' : Machine τ) : Prop where
  tidy : Tidy m'
  extends_ : Extends m.forest m'.forest
  args : ∃ c, m'.calls[i]? = some c ∧ c.args = a
  full : ∀ r p, Full m.forest r p → Full m'.forest r p

theorem Kept.next {m u v : Machine τ} {i : Nat} {a : IngestArgs (LayerValue τ) τ}
    {e : MachineEvent τ} (hm : Tidy m) (hp : a.parent < m.forest.nodes.size)
    (hfree : ∀ c, m.forest.child a.parent a.action = some c → ¬ Matchable m.forest c)
    (h : Kept m i a u) (he : OwnStep i e) (hv : u.step M e = some v) : Kept m i a v := by
  obtain ⟨ht, hx, ⟨c, hc, hca⟩, hfull⟩ := h
  obtain ⟨ht', hx', heff⟩ := step_stepOk ht hv
  obtain ⟨d, hd, hda⟩ := step_args he hc hv
  refine ⟨ht', hx.trans hx', ⟨d, hd, hda.trans hca⟩, fun r q hq => ?_⟩
  cases heff with
  | gain hg => exact hg.full (hfull r q hq)
  | attach j o c' n he' hj hpc b hb hf =>
    subst he'
    have hji : j = i := he
    subst j
    rw [hc] at hj
    cases hj
    obtain ⟨rp, pp, hpar⟩ := hm.shape.exists_path hm.attached hp
    have hn : u.forest.nodeAt rp (pp ++ [a.action]) = some n := by
      rw [nodeAt_snoc, hx.nodeAt hpar]
      exact hca ▸ ht.target hc (by rw [hpc]; rfl)
    rw [hf]
    apply attach_full ht hn hb (hfull r q hq)
    rintro k h1 h2 ⟨rfl, hk⟩
    have hq' := hq.initial (List.take_prefix k q)
    rw [hk] at hq'
    have hpub := hq' (pp ++ [a.action]).length (by simp) (Nat.le_refl _)
    rw [List.take_length] at hpub
    obtain ⟨x, hxn, _⟩ := published_iff.mp hpub
    refine hfree x ?_ ((matchable_iff hm.shape hxn (by simp)).mpr hq')
    rw [nodeAt_snoc, hpar] at hxn
    exact hxn
  | evict n he' =>
    subst he'
    exact False.elim he

theorem keepsReuse_of_free {m : Machine τ} {a : IngestArgs (LayerValue τ) τ} (h : Tidy m)
    (hp : a.parent < m.forest.nodes.size) (ha : M.accepts m.forest a = true)
    (hfree : ∀ c, m.forest.child a.parent a.action = some c → ¬ Matchable m.forest c) :
    KeepsReuse M m a := by
  intro es m' hown hr
  obtain ⟨m1, h1, hr⟩ := run_cons.mp hr
  have ht1 := (step_stepOk h h1).tidy
  rw [call_step hp ha] at h1
  cases h1
  have hk : Kept m m.calls.length a m' := by
    refine run_invariant_of (I := Kept m m.calls.length a) (E := OwnStep m.calls.length)
      (fun u e v hu he hv => hu.next h hp hfree he hv)
      ⟨ht1, Extends.refl _, ⟨⟨a, .commit⟩, by simp, rfl⟩, fun _ _ => id⟩ hown hr
  exact noLess_of_full h.shape hk.tidy.shape hk.full

def atPc (m : Machine τ) (a : IngestArgs (LayerValue τ) τ) (f : NamespaceForest) (s : TensorTier τ)
    (pc : IngestPc τ) : Machine τ :=
  { m with forest := f, store := s, calls := m.calls ++ [⟨a, pc⟩] }

theorem step_atPc (m : Machine τ) (a : IngestArgs (LayerValue τ) τ) (f : NamespaceForest)
    (s : TensorTier τ) (pc : IngestPc τ) (o : Outcome) :
    (atPc m a f s pc).step M (.advance m.calls.length o) =
      (atPc m a f s pc).advance M m.calls.length ⟨a, pc⟩ o := by
  simp [Machine.step, atPc]

theorem setPc_atPc (m : Machine τ) (a : IngestArgs (LayerValue τ) τ) (f f' : NamespaceForest)
    (s s' : TensorTier τ) (pc pc' : IngestPc τ) :
    ({ atPc m a f s pc with forest := f', store := s' }.setPc m.calls.length ⟨a, pc⟩ pc') =
      atPc m a f' s' pc' := by
  simp [Machine.setPc, atPc]

/-- Four statements bring a call for an existing child to where it replaces the blob. -/
theorem reach_attach {m : Machine τ} {a : IngestArgs (LayerValue τ) τ} {c : NodeId}
    (hp : a.parent < m.forest.nodes.size) (ha : M.accepts m.forest a = true)
    (hc : m.forest.child a.parent a.action = some c) :
    ∃ es f s, (∀ e ∈ es, OwnStep m.calls.length e) ∧
      run (Machine.step M) m (.call a :: es) = some (atPc m a f s (.attach c)) ∧
      SameTrie m.forest f := by
  have hcall := call_step hp ha
  let e : MachineEvent τ := .advance m.calls.length (.ok true)
  let s' := (tryPut M.ops m.store (latentLocator a.nodeKey) (some a.latent) (.ok true)).2
  let f1 := m.forest.pinSink M.cfg c a.depth
  have h1 : (atPc m a m.forest m.store .commit).step M e =
      some (atPc m a m.forest m.store (.pin c)) := by
    have hcommit : (atPc m a m.forest m.store .commit).forest.commit a.parent a.action a.nodeKey
        a.depth = (m.forest, c) := commit_old hc _ _
    rw [step_atPc]
    simp only [Machine.advance, hcommit]
    exact congrArg some (setPc_atPc m a m.forest m.forest m.store m.store .commit (.pin c))
  have h2 : (atPc m a m.forest m.store (.pin c)).step M e =
      some (atPc m a f1 m.store (.putSkeleton c)) :=
    (step_atPc _ _ _ _ _ _).trans
      (congrArg some (setPc_atPc m a m.forest f1 m.store m.store (.pin c) (.putSkeleton c)))
  have h3 : (atPc m a f1 m.store (.putSkeleton c)).step M e =
      some (atPc m a f1 s' (.setSkeleton c)) :=
    (step_atPc _ _ _ _ _ _).trans
      (congrArg some (setPc_atPc m a f1 f1 m.store s' (.putSkeleton c) (.setSkeleton c)))
  have h4 : (atPc m a f1 s' (.setSkeleton c)).step M e =
      some (atPc m a (f1.setSkeleton c a.nodeKey) s' (.attach c)) :=
    (step_atPc _ _ _ _ _ _).trans (congrArg some
      (setPc_atPc m a f1 (f1.setSkeleton c a.nodeKey) s' s' (.setSkeleton c) (.attach c)))
  refine ⟨[e, e, e, e], f1.setSkeleton c a.nodeKey, s', ?_, ?_, ?_⟩
  · intro x hx
    simp only [List.mem_cons, List.not_mem_nil, or_false, or_self] at hx
    subst x
    rfl
  · exact run_cons.mpr ⟨_, hcall, run_cons.mpr ⟨_, h1, run_cons.mpr ⟨_, h2,
      run_cons.mpr ⟨_, h3, run_cons.mpr ⟨_, h4, rfl⟩⟩⟩⟩⟩
  · exact (pinSink_sameTrie m.forest M.cfg c a.depth).trans (setSkeleton_sameTrie _ c a.nodeKey)

theorem free_of_keepsReuse {m : Machine τ} {a : IngestArgs (LayerValue τ) τ} (h : Tidy m)
    (hp : a.parent < m.forest.nodes.size) (ha : M.accepts m.forest a = true)
    (hk : KeepsReuse M m a) {c : NodeId} (hc : m.forest.child a.parent a.action = some c) :
    ¬ Matchable m.forest c := by
  intro hm
  obtain ⟨r, p, hpar⟩ := h.shape.exists_path h.attached hp
  have hn : m.forest.nodeAt r (p ++ [a.action]) = some c := by
    rw [nodeAt_snoc, hpar]
    exact hc
  have hfull := (matchable_iff h.shape hn (by simp)).mp hm
  obtain ⟨es, f, s, hown, hr, hs⟩ := reach_attach hp ha hc
  have ht : Tidy (atPc m a f s (.attach c)) :=
    run_invariant (fun _ _ _ hu hv => (step_stepOk hu hv).tidy) h hr
  obtain ⟨m2, h2, hf2⟩ : ∃ m2,
      (atPc m a f s (.attach c)).step M (.advance m.calls.length (.ok true)) = some m2 ∧
        m2.forest = (f.attachBlob c (a.newHandle M.cfg)).1 := by
    rw [step_atPc]
    exact ⟨_, rfl, rfl⟩
  have hle := hk (es ++ [.advance m.calls.length (.ok true)]) m2
    (by
      intro e he
      rcases List.mem_append.mp he with he | he
      · exact hown e he
      · rw [List.mem_singleton.mp he]
        rfl)
    (by
      rw [← List.cons_append]
      exact run_append.mpr ⟨_, hr, run_cons.mpr ⟨m2, h2, rfl⟩⟩) r (p ++ [a.action])
  have ht2 := (step_stepOk ht h2).tidy
  have hlen : (p ++ [a.action]).length ≤ (p ++ [a.action]).length := Nat.le_refl _
  rw [hfull.lookup h.shape, ht2.shape.matchedLen_eq, le_longest_iff _ _ _ hlen] at hle
  have hpub := hle (p ++ [a.action]).length (by simp) hlen
  have hgone := published_attachBlob ht (n := c) (r := r) (p := p ++ [a.action])
    ((hs.nodeAt r _).trans hn) (b := a.newHandle M.cfg) rfl r (p ++ [a.action])
  rw [if_pos ⟨rfl, rfl⟩] at hgone
  rw [List.take_length, hf2] at hpub
  exact Bool.noConfusion (hgone.symm.trans hpub)

/-- An ingest call keeps every match exactly when no lookup can reach the node it
names, and so does a run that spares such nodes. -/
theorem ingest_keeps_reuse_iff {s : TensorTier τ} {m : Machine τ}
    (hr : Reachable (Machine.step M) (Machine.init s) m) :
    (∀ a : IngestArgs (LayerValue τ) τ, a.parent < m.forest.nodes.size →
      M.accepts m.forest a = true → (KeepsReuse M m a ↔
        ∀ c, m.forest.child a.parent a.action = some c → ¬ Matchable m.forest c)) ∧
    ∀ es m', Sparing M m es → run (Machine.step M) m es = some m' →
      NoLess m.forest m'.forest := by
  have h := reachable_tidy hr
  refine ⟨fun a hp ha => ⟨fun hk c hc => free_of_keepsReuse h hp ha hk hc,
    fun hfree => keepsReuse_of_free h hp ha hfree⟩, fun es m' hs hrun => run_noLess h hs hrun⟩

def unitMachine : MachineConfig Unit :=
  ⟨⟨fun _ => ⟨[], "uint8"⟩, fun t _ => .ok t⟩, ⟨2, 0, 1, .cpu⟩, false, 4, fun _ _ => true⟩

def unitArgs (a : ActionKey) : IngestArgs (LayerValue Unit) Unit :=
  ⟨0, a, [1, 1], 0, [.single ()], (), 0, none⟩

/-- One chunk stored and published. -/
def storeOnce : List (MachineEvent Unit) :=
  .create [1] [2] :: .call (unitArgs (.int 0)) :: List.replicate 8 (.advance 0 (.ok true))

def storeAgain : List (MachineEvent Unit) :=
  List.replicate 6 (.advance 1 (.ok true)) ++ [.advance 1 (.raise false)]

theorem ingest_again_loses_match : ∃ m m',
    run (Machine.step unitMachine) (Machine.init {}) storeOnce = some m ∧
    (m.forest.lookup [1] [.int 0]).matchedLen = 1 ∧
    (∀ e ∈ storeAgain, OwnStep m.calls.length e) ∧
    run (Machine.step unitMachine) m (.call (unitArgs (.int 0)) :: storeAgain) = some m' ∧
    (m'.forest.lookup [1] [.int 0]).matchedLen = 0 ∧
    ¬ KeepsReuse unitMachine m (unitArgs (.int 0)) := by
  obtain ⟨m, m', hm, h1, hlen, hm', h0⟩ : ∃ m m',
      run (Machine.step unitMachine) (Machine.init {}) storeOnce = some m ∧
      (m.forest.lookup [1] [.int 0]).matchedLen = 1 ∧ m.calls.length = 1 ∧
      run (Machine.step unitMachine) m (.call (unitArgs (.int 0)) :: storeAgain) = some m' ∧
      (m'.forest.lookup [1] [.int 0]).matchedLen = 0 :=
    ⟨_, _, rfl, by decide, rfl, rfl, by decide⟩
  have hown : ∀ e ∈ storeAgain, OwnStep m.calls.length e := by
    rw [hlen]
    simp [storeAgain, OwnStep]
  refine ⟨m, m', hm, h1, hown, hm', h0, fun hk => ?_⟩
  have := hk storeAgain m' hown hm' [1] [.int 0]
  omega

theorem ingest_keeps_reuse_iff_once : ∃ m,
    run (Machine.step unitMachine) (Machine.init {}) storeOnce = some m ∧
    KeepsReuse unitMachine m (unitArgs (.int 1)) := by
  obtain ⟨m, hm, hlt, hc⟩ : ∃ m,
      run (Machine.step unitMachine) (Machine.init {}) storeOnce = some m ∧
      0 < m.forest.nodes.size ∧ m.forest.child 0 (.int 1) = none :=
    ⟨_, rfl, by decide, by decide⟩
  refine ⟨m, hm, ((ingest_keeps_reuse_iff ⟨_, hm⟩).1 _ hlt rfl).mpr ?_⟩
  intro c hc'
  rw [show (unitArgs (.int 1)).parent = 0 from rfl, show (unitArgs (.int 1)).action = .int 1 from rfl,
    hc] at hc'
  cases hc'

end CacheSeek.Proofs.IngestReuse
