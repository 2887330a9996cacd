import CacheSeek.Proofs.StoredForest
import CacheSeek.Prefix.Steps
import CacheSeek.Lib.Lists

namespace CacheSeek.Proofs.AsyncPublication
open CacheSeek.Lib CacheSeek.Prefix CacheSeek.Prefix.NamespaceForest CacheSeek.Stores
open CacheSeek.Stores.TensorTier CacheSeek.Proofs.StoreKeys CacheSeek.Proofs.StoreContents
open CacheSeek.Proofs.StoredForest

variable {τ : Type} {V : Values τ} {M : MachineConfig τ}

section
variable {m : Machine τ} {i : Nat} {c : IngestCall τ}

/-- What a step must show: the stores agree, and whoever is not as before is right. -/
theorem sound_next {m' : Machine τ} (h : Sound V M m) (hs : Stored V M m'.forest m'.store m'.status)
    (hg : Grows m.forest m'.forest) (hk : Keeps V M.ops m.store m'.store)
    (hc : ∀ j c, m'.calls[j]? = some c → CallOk V M m' j c ∨ m.calls[j]? = some c ∧
      ∀ x, x < m.forest.handles.size → m.status x = .caller j → m'.status x = m.status x)
    (hq : ∀ item, item ∈ m'.queue → ItemOk V m' item ∨
      item ∈ m.queue ∧ m'.status item.handle = m.status item.handle)
    (hn : (m'.queue.map PutItem.handle).Nodup)
    (hw : ∀ x pending, m'.worker = some (x, pending) →
      m'.status x = .worker ∧ Pending V M m'.forest m'.store x pending ∨
      m.worker = some (x, pending) ∧ m'.status x = m.status x) : Sound V M m' := by
  refine ⟨hs, ?_, ?_, hn, ?_⟩
  · intro j c hj
    rcases hc j c hj with hok | ⟨hj, hst⟩
    · exact hok
    · exact (h.calls hj).mono hg hk hst
  · intro item hi
    rcases hq item hi with hok | ⟨hi, hst⟩
    · exact hok
    · exact (h.queue hi).mono hg hst
  · intro x pending hx
    rcases hw x pending hx with hok | ⟨hx, hst⟩
    · exact hok
    · obtain ⟨h1, h2⟩ := h.worker hx
      exact ⟨hst.trans h1, h2.mono hg hk⟩

/-- Only one write changes hands. -/
theorem status_other {x y : HandleId} (st : WriteStatus) (hne : m.status y ≠ m.status x) :
    (if y = x then st else m.status y) = m.status y := by
  rw [if_neg]
  rintro rfl
  exact hne rfl

/-- No write changes hands. -/
theorem sound_still {f : NamespaceForest} {s : TensorTier τ} (h : Sound V M m) (hs : Stored V M f s m.status)
    (hg : Grows m.forest f) (hk : Keeps V M.ops m.store s) : Sound V M { m with forest := f, store := s } :=
  sound_next h hs hg hk (fun _ _ hj => Or.inr ⟨hj, fun _ _ _ => rfl⟩) (fun _ hi => Or.inr ⟨hi, rfl⟩) h.queueNodup
    fun _ _ hx => Or.inr ⟨hx, rfl⟩

/-- The worker lets go of its write. -/
theorem sound_release {f : NamespaceForest} {s : TensorTier τ} {x : HandleId} {st : WriteStatus} (h : Sound V M m)
    (hx : m.status x = .worker) (hs : Stored V M f s fun y => if y = x then st else m.status y)
    (hg : Grows m.forest f) (hk : Keeps V M.ops m.store s) :
    Sound V M ({ m with forest := f, store := s, worker := none }.setStatus x st) := by
  refine sound_next h hs hg hk ?_ ?_ h.queueNodup ?_
  · exact fun j d hj => Or.inr ⟨hj, fun y _ hy => status_other st (by rw [hx, hy]; exact fun he => by cases he)⟩
  · exact fun item hi => Or.inr ⟨hi, status_other st (by rw [hx, (h.queue hi).status]; exact fun he => by cases he)⟩
  · intro y pending hy
    cases hy

/-- A statement of call `i` that leaves the history alone. -/
theorem sound_stepCall {f : NamespaceForest} {s : TensorTier τ} {pc : IngestPc τ} (h : Sound V M m)
    (hi : m.calls[i]? = some c) (hs : Stored V M f s m.status) (hg : Grows m.forest f)
    (hk : Keeps V M.ops m.store s)
    (hpc : PcOk V M ({ m with forest := f, store := s }.setPc i c pc) i c.args pc) :
    Sound V M ({ m with forest := f, store := s }.setPc i c pc) := by
  have hc := h.calls hi
  refine sound_next h hs hg hk ?_ (fun item hm => Or.inr ⟨hm, rfl⟩) h.queueNodup
    (fun x pending hx => Or.inr ⟨hx, rfl⟩)
  intro j d hj
  rcases set_cases hj with ⟨rfl, rfl⟩ | ⟨_, hj⟩
  · exact Or.inl ⟨Nat.lt_of_lt_of_le hc.parent hg.size,
      by rw [hc.nodeKey]; exact congrArg (V.keyOf · _) (hg.nodeKey hc.parent).symm, hc.payload,
      hc.latent, hc.nLayers, hpc⟩
  · exact Or.inr ⟨hj, fun _ _ _ => rfl⟩

/-- A statement of call `i` that passes the handle it holds on. -/
theorem sound_handOver {f : NamespaceForest} {s : TensorTier τ} {queue : List (PutItem τ)}
    {x : HandleId} {st : WriteStatus} {pc : IngestPc τ} (h : Sound V M m)
    (hi : m.calls[i]? = some c) (hx : m.status x = .caller i)
    (hs : Stored V M f s fun y => if y = x then st else m.status y)
    (hg : Grows m.forest f) (hk : Keeps V M.ops m.store s) (hpc : pc = .raised ∨ ∃ n, pc = .returned n)
    (hq : queue = m.queue ∨ ∃ item, queue = m.queue ++ [item] ∧ item.handle = x ∧
      ItemOk V (({ m with forest := f, store := s, queue }.setStatus x st).setPc i c pc) item) :
    Sound V M (({ m with forest := f, store := s, queue }.setStatus x st).setPc i c pc) := by
  have hc := h.calls hi
  have other : ∀ y, m.status y ≠ .caller i → (if y = x then st else m.status y) = m.status y :=
    fun y hy => status_other st (hx ▸ hy)
  refine sound_next h hs hg hk ?_ ?_ ?_ ?_
  · intro j d hj
    rcases set_cases hj with ⟨rfl, rfl⟩ | ⟨hne, hj⟩
    · refine Or.inl ⟨Nat.lt_of_lt_of_le hc.parent hg.size,
        by rw [hc.nodeKey]; exact congrArg (V.keyOf · _) (hg.nodeKey hc.parent).symm, hc.payload,
        hc.latent, hc.nLayers, ?_⟩
      rcases hpc with rfl | ⟨n, rfl⟩ <;> trivial
    · refine Or.inr ⟨hj, fun y _ hy => other y ?_⟩
      rw [hy]
      intro he
      exact hne (WriteStatus.caller.inj he)
  · intro item hm
    have hold : ∀ item ∈ m.queue, (if item.handle = x then st else m.status item.handle) =
        m.status item.handle := by
      intro item hm
      apply other
      rw [(h.queue hm).status]
      intro he
      cases he
    rcases hq with rfl | ⟨new, rfl, _, hok⟩
    · exact Or.inr ⟨hm, hold item hm⟩
    · rcases List.mem_append.mp hm with hm | hm
      · exact Or.inr ⟨hm, hold item hm⟩
      · rw [List.mem_singleton] at hm
        subst item
        exact Or.inl hok
  · rcases hq with rfl | ⟨new, rfl, hnew, _⟩
    · exact h.queueNodup
    · change ((m.queue ++ [new]).map PutItem.handle).Nodup
      rw [List.map_append]
      refine List.nodup_append.mpr ⟨h.queueNodup, by simp, ?_⟩
      intro y hy z hz he
      simp only [List.map_cons, List.map_nil, List.mem_singleton] at hz
      obtain ⟨item, hm, hitem⟩ := List.mem_map.mp hy
      have := (h.queue hm).status
      rw [hitem, he, hz, hnew, hx] at this
      cases this
  · intro y pending hy
    refine Or.inr ⟨hy, other y ?_⟩
    rw [(h.worker hy).1]
    intro he
    cases he

/-- A put of one of the pending entries, however it ends. -/
theorem put_keeps {key : String} {t : Option τ} {pending : List (String × Option τ)}
    {f : NamespaceForest} {s s' : TensorTier τ} {x : HandleId} {o : Outcome} {ok : Bool}
    (hp : Pending V M f s x ((key, t) :: pending)) (hput : tryPut M.ops s key t o = (ok, s')) :
    Keeps V M.ops s s' := by
  obtain ⟨_, k, _, hin, _⟩ := hp
  have := (tryPut_keeps (V.holds_blob (hin (key, t) (by simp))) o : Keeps V M.ops s _)
  rwa [hput] at this

/-- The put at the head of a list of puts has been done. -/
theorem pending_put {key : String} {t : Option τ} {pending : List (String × Option τ)}
    {f : NamespaceForest} {s s' : TensorTier τ} {x : HandleId} {o : Outcome}
    (hp : Pending V M f s x ((key, t) :: pending)) (hput : tryPut M.ops s key t o = (true, s')) :
    Pending V M f s' x pending := by
  have hk := put_keeps hp hput
  obtain ⟨hx, k, hl, hin, hall⟩ := hp
  have hhas : Has M.ops s' (key, t) := by
    have := tryPut_has (congrArg Prod.fst hput)
    rwa [hput] at this
  refine ⟨hx, k, hl, fun w hw => hin w (by simp [hw]), ?_⟩
  intro w hw
  rcases hall w hw with hw' | hw'
  · rcases List.mem_cons.mp hw' with rfl | hw'
    · exact Or.inr hhas
    · exact Or.inl hw'
  · exact Or.inr (hk w (V.holds_blob hw) hw')

/-- The new handle is in the hands of its call. -/
theorem sound_attach {n : NodeId} (h : Sound V M m) (hi : m.calls[i]? = some c) (ht : Target m.forest c.args n)
    (hsk : (m.forest.node n).skeleton ≠ none) :
    Sound V M (({ m with forest := (m.forest.attachBlob n (c.args.newHandle M.cfg)).1 }.setStatus
      m.forest.handles.size (.caller i)).setPc i c (.putAsync n m.forest.handles.size)) := by
  obtain ⟨hpar, hkey, hpay, hlat, hlay, _⟩ := h.calls hi
  have hg := attachBlob_grows m.forest n (c.args.newHandle M.cfg)
  have hl : (c.args.newHandle M.cfg).nLayers ≤ (V.payloadOf (m.forest.node n).nodeKey).length := by
    rw [ht.2]
    simp only [IngestArgs.newHandle, hpay, pairs, List.length_map]
    cases hn : c.args.nLayers with
    | none => exact Int.le_refl _
    | some k => exact hlay k hn
  have hs := h.stored.attachBlob (n := n) hsk (b := c.args.newHandle M.cfg) (by rw [ht.2]; rfl) rfl hl
  have hnew : (m.forest.attachBlob n (c.args.newHandle M.cfg)).1.handle m.forest.handles.size =
      c.args.newHandle M.cfg := Heap.get_alloc_self _ _
  have other : ∀ y, y < m.forest.handles.size →
      (if y = m.forest.handles.size then .caller i else m.status y) = m.status y :=
    fun y hy => if_neg (Nat.ne_of_lt hy)
  refine sound_next h (hs.setStatus (x := m.forest.handles.size) (fun _ => by rw [hnew]; rfl) (.caller i))
    hg (Keeps.refl V M.ops m.store) ?_ ?_ h.queueNodup ?_
  · intro j d hj
    rcases set_cases hj with ⟨rfl, rfl⟩ | ⟨_, hj⟩
    · refine Or.inl ⟨Nat.lt_of_lt_of_le hpar hg.size,
        by rw [hkey]; exact congrArg (V.keyOf · _) (hg.nodeKey hpar).symm, hpay, hlat, hlay, ?_⟩
      exact ⟨Nat.lt_succ_self _, if_pos rfl, congrArg BlobHandle.locator hnew⟩
    · exact Or.inr ⟨hj, fun y hy _ => other y hy⟩
  · exact fun item hm => Or.inr ⟨hm, other _ (h.queue hm).handle⟩
  · exact fun y pending hy => Or.inr ⟨hy, other y (h.worker hy).2.1⟩

/-- The worker takes the item at the head of the queue. -/
theorem sound_get {item : PutItem τ} {queue : List (PutItem τ)} (h : Sound V M m) (hq : m.queue = item :: queue) :
    Sound V M ({ m with
      queue
      worker := some (item.handle, TensorTier.payloadWrites item.locator 0 item.payload)
      }.setStatus item.handle .worker) := by
  have hitem : ItemOk V m item := h.queue (by rw [hq]; simp)
  have hnd := h.queueNodup
  rw [hq, List.map_cons, List.nodup_cons] at hnd
  have other : ∀ x, m.status x ≠ .queued → (if x = item.handle then .worker else m.status x) = m.status x :=
    fun x hx => status_other .worker (hitem.status ▸ hx)
  refine sound_next h (h.stored.setStatus (h.stored.not_ready (hitem.status ▸ nofun)) _)
    (Grows.refl _) (Keeps.refl V M.ops m.store) ?_ ?_ hnd.2 ?_
  · exact fun j d hj => Or.inr ⟨hj, fun x _ hx => other x (hx ▸ nofun)⟩
  · intro other hi
    refine Or.inr ⟨by rw [hq]; exact List.mem_cons_of_mem _ hi, if_neg ?_⟩
    intro he
    exact hnd.1 (he ▸ List.mem_map.mpr ⟨other, hi, rfl⟩)
  · intro x pending hx
    cases hx
    obtain ⟨h1, _, k, h3, h4, h5⟩ := hitem
    refine Or.inl ⟨if_pos rfl, h1, k, h3, ?_, ?_⟩
    · rw [h4, h5]
      exact fun w hw => hw
    · rw [h4, h5]
      exact fun w hw => Or.inl hw

theorem advance_sound {m' : Machine τ} {a : IngestArgs (LayerValue τ) τ} {pc : IngestPc τ} {o : Outcome}
    (h : Sound V M m) (hi : m.calls[i]? = some ⟨a, pc⟩) (hm : Machine.Advances M m i o a pc m') :
    Sound V M m' := by
  obtain ⟨hpar, hkey, hpay, hlat, hlay, hpc⟩ := h.calls hi
  simp only at hpar hkey hpay hlat hlay hpc
  have refl := Keeps.refl V M.ops m.store
  cases hm with
  | commit =>
    have hs := h.stored.commit hpar hkey a.depth
    refine sound_stepCall h hi hs (commit_grows hpar _ _ _) refl ⟨commit_lt h.stored.shape hpar _ _, ?_⟩
    have := hs.keyed (Nat.lt_of_lt_of_le hpar (commit_le _ _ _ _ _))
      (commit_child hpar a.nodeKey a.depth)
    rw [(commit_grows hpar _ _ _).nodeKey hpar] at this
    exact this.trans hkey.symm
  | pin n =>
    have hg := pinSink_grows m.forest M.cfg n a.depth
    exact sound_stepCall h hi (h.stored.pinSink M.cfg n a.depth) hg refl (Target.mono hpc hg)
  | skeletonPut n s hput =>
    rw [hlat] at hput
    have hk : Keeps V M.ops m.store _ := tryPut_keeps (V.holds_skeleton a.nodeKey) o
    have hhas := tryPut_has (congrArg Prod.fst hput)
    rw [hput] at hk hhas
    exact sound_stepCall h hi (h.stored.store hk) (Grows.refl _) hk ⟨hpc, hhas⟩
  | skeletonFails n s hput =>
    rw [hlat] at hput
    have hk : Keeps V M.ops m.store _ := tryPut_keeps (V.holds_skeleton a.nodeKey) o
    rw [hput] at hk
    exact sound_stepCall h hi (h.stored.store hk) (Grows.refl _) hk trivial
  | setSkeleton n =>
    obtain ⟨ht, hhas⟩ := hpc
    have hg := setSkeleton_grows m.forest n a.nodeKey
    refine sound_stepCall h hi (h.stored.setSkeleton ht.2 hhas) hg refl ⟨ht.mono hg, ?_⟩
    simp only [Machine.setPc, NamespaceForest.setSkeleton, modifyNode_self]
    exact Option.some_ne_none _
  | attach n => exact sound_attach (c := ⟨a, .attach n⟩) h hi hpc.1 hpc.2
  | enqueue n x _ _ =>
    obtain ⟨hx, hst, hloc⟩ := hpc
    refine sound_handOver h hi hst (h.stored.setStatus (h.stored.not_ready (by simp [hst])) _)
      (Grows.refl _) refl (Or.inr ⟨n, rfl⟩) (Or.inr ⟨_, rfl, rfl, hx, ?_, a.nodeKey, hloc, rfl, hpay⟩)
    simp [Machine.setPc, Machine.setStatus]
  | writes n x _ =>
    obtain ⟨hx, hst, hloc⟩ := hpc
    refine sound_stepCall h hi h.stored (Grows.refl _) refl ⟨hst, hx, a.nodeKey, hloc, ?_, ?_⟩
    · rw [hpay]
      exact fun w hw => hw
    · rw [hpay]
      exact fun w hw => Or.inl hw
  | publish n x =>
    obtain ⟨hst, hp⟩ := hpc
    exact sound_handOver h hi hst (h.stored.publish hp) (publish_grows _ x) refl (Or.inr ⟨n, rfl⟩) (Or.inl rfl)
  | written n x key t pending s hput =>
    obtain ⟨hst, hp⟩ := hpc
    have hk := put_keeps hp hput
    exact sound_stepCall h hi (h.stored.store hk) (Grows.refl _) hk ⟨hst, pending_put hp hput⟩
  | aborts n x key t pending s hput =>
    obtain ⟨hst, hp⟩ := hpc
    have hk := put_keeps hp hput
    have hne := h.stored.not_ready (x := x) (by simp [hst])
    exact sound_handOver h hi hst ((h.stored.store hk).setStatus hne _) (Grows.refl _) hk (Or.inl rfl)
      (Or.inl rfl)

/-- Whatever happens next, the invariant holds. -/
theorem step_sound (hadm : V.Admits M) {m' : Machine τ} {e : MachineEvent τ} (h : Sound V M m)
    (hm : m.step M e = some m') : Sound V M m' := by
  have refl := Keeps.refl V M.ops m.store
  have sameCalls : ∀ j d, m.calls[j]? = some d → m.calls[j]? = some d ∧ ∀ x,
      x < m.forest.handles.size → m.status x = .caller j → m.status x = m.status x :=
    fun j d hj => ⟨hj, fun _ _ _ => rfl⟩
  cases Machine.step_cases hm with
  | create r c => exact sound_still h (h.stored.create r c) (create_grows _ r c) refl
  | call a hp ha =>
    refine sound_next h h.stored (Grows.refl _) refl ?_ (fun item hi => Or.inr ⟨hi, rfl⟩) h.queueNodup
      fun x pending hx => Or.inr ⟨hx, rfl⟩
    intro j d hj
    rcases concat_cases hj with hj | ⟨_, rfl⟩
    · exact Or.inr (sameCalls j d hj)
    · obtain ⟨h1, h2, h3, h4⟩ := hadm _ _ ha
      exact Or.inl ⟨hp, h1, h2, h3, h4, trivial⟩
  | advance i o a pc _ hi ha => exact advance_sound h hi ha
  | get item queue _ hq => exact sound_get h hq
  | put o x key t pending s hw hput =>
    obtain ⟨hst, hp⟩ := h.worker hw
    have hk := put_keeps hp hput
    refine sound_next h (h.stored.store hk) (Grows.refl _) hk (fun j d hj => Or.inr (sameCalls j d hj))
      (fun item hi => Or.inr ⟨hi, rfl⟩) h.queueNodup ?_
    intro y pending hy
    cases hy
    exact Or.inl ⟨hst, pending_put hp hput⟩
  | putFails o x key t pending s hw hput =>
    obtain ⟨hst, hp⟩ := h.worker hw
    have hk := put_keeps hp hput
    have hne := h.stored.not_ready (x := x) (by simp [hst])
    exact sound_release h hst ((h.stored.store hk).setStatus hne _) (Grows.refl _) hk
  | finish x hw =>
    obtain ⟨hst, hp⟩ := h.worker hw
    exact sound_release h hst (h.stored.publish hp) (publish_grows _ x) refl
  | evict n b _ _ _ _ =>
    exact sound_still h (h.stored.evict n) (modifyNode_grows _ n _ (fun _ => rfl) fun _ => id) refl
  | spare n _ => exact h
  | read b layer =>
    have hk : Keeps V M.ops m.store (m.store.getLayer M.ops b layer).2 := getLayer_keeps b layer
    exact sound_still h (h.stored.store hk) (Grows.refl _) hk

end

theorem init_sound (s : TensorTier τ) : Sound V M (Machine.init s) := by
  refine ⟨⟨Shape.empty, Edges.empty, ?_, ?_, ?_, ?_⟩, ?_, ?_, List.nodup_nil, ?_⟩
  all_goals intros; contradiction

theorem reachable_sound (hadm : V.Admits M) {s : TensorTier τ} {m : Machine τ}
    (hr : Reachable (Machine.step M) (Machine.init s) m) : Sound V M m :=
  hr.invariant (fun _ _ _ h hm => step_sound hadm h hm) (init_sound s)

/-- A node and its ancestors. -/
inductive OnPath (f : NamespaceForest) (n : NodeId) : NodeId → Prop where
  | self : OnPath f n n
  | up {x p : NodeId} (h : OnPath f n x) (hp : (f.node x).parent = some p) : OnPath f n p

/-- The nodes above a path's node are those of its prefixes. -/
theorem OnPath.initial {f : NamespaceForest} (h : Shape f) {r : Bytes} {actions : List ActionKey}
    {k : Nat} {n x : NodeId} (hn : f.nodeAt r (actions.take k) = some n) (hx : OnPath f n x) :
    ∃ j, j ≤ k ∧ f.nodeAt r (actions.take j) = some x := by
  induction hx with
  | self => exact ⟨k, Nat.le_refl k, hn⟩
  | up _ hp ih =>
    obtain ⟨j, hj, hx⟩ := ih
    rcases List.eq_nil_or_concat (actions.take j) with he | ⟨q, a, he⟩
    · rw [he] at hx
      obtain ⟨ns, hr, rfl⟩ := Shape.nodeAt_nil_iff.mp hx
      rw [h.root_parent hr] at hp
      cases hp
    · rw [List.concat_eq_append] at he
      rw [he] at hx
      obtain ⟨m, hm, _, hpar, _⟩ := h.nodeAt_snoc_iff.mp hx
      rw [hpar] at hp
      cases hp
      have hlen := congrArg List.length he
      rw [List.length_take, List.length_append, List.length_singleton] at hlen
      refine ⟨q.length, by omega, ?_⟩
      have hq : actions.take q.length = q := by
        have := congrArg (List.take q.length) he
        rwa [List.take_take, Nat.min_eq_left (by omega), List.take_left] at this
      rw [hq, hm]

/-- Every chunk node at or above the node `lookup` returns is published. -/
theorem onPath_hasKv {f : NamespaceForest} (h : Shape f) {r : Bytes} {actions : List ActionKey}
    {n x : NodeId} (hn : (f.lookup r actions).node = some n) (hx : OnPath f n x)
    (hp : (f.node x).parent ≠ none) : x < f.nodes.size ∧ f.hasKv x = true := by
  cases hr : f.resolve r with
  | none =>
    rw [Shape.lookup_none f hr] at hn
    cases hn
  | some ns =>
    rw [h.lookup_eq hr] at hn
    obtain ⟨j, hj, hxj⟩ := hx.initial h hn
    refine ⟨h.nodeAt_lt hxj, ?_⟩
    have hj1 : 1 ≤ j := by
      cases j with
      | zero =>
        obtain ⟨ns', hr', rfl⟩ := Shape.nodeAt_nil_iff.mp hxj
        exact absurd (h.root_parent hr') hp
      | succ j => omega
    obtain ⟨y, hy, hkv⟩ := published_iff.mp (longest_holds _ _ hj1 hj)
    rw [hxj] at hy
    cases hy
    exact hkv

/-- Whatever `lookup` can return is completely stored, under every schedule and failure. -/
theorem published_blobs_complete (hops : M.ops.Lawful) (hadm : V.Admits M) {s : TensorTier τ}
    {m : Machine τ} (hr : Reachable (Machine.step M) (Machine.init s) m) {r : Bytes}
    {actions : List ActionKey} {n x : NodeId} (hn : (m.forest.lookup r actions).node = some n)
    (hx : OnPath m.forest n x) (hp : (m.forest.node x).parent ≠ none) :
    (∃ sk, (m.forest.node x).skeleton = some sk ∧
      m.store.getOne M.ops sk.latentLocator =
        (.ok (some (V.latentOf (m.forest.node x).nodeKey)), m.store)) ∧
    ∃ h, (m.forest.node x).blob = some h ∧
      (∀ i : Nat, (i : Int) < (m.forest.handle h).nLayers →
        ∃ p, (V.payloadOf (m.forest.node x).nodeKey)[i]? = some p ∧
          m.store.getLayer M.ops (m.forest.handle h) i =
            (.ok (.pair (some p.1) (some p.2)), m.store)) ∧
      m.status h ≠ .aborted ∧ (∀ item ∈ m.queue, item.handle ≠ h) ∧
      ∀ y pending, m.worker = some (y, pending) → y ≠ h := by
  have hs := reachable_sound hadm hr
  obtain ⟨hlt, hkv⟩ := onPath_hasKv hs.stored.shape hn hx hp
  obtain ⟨h, hb, hready⟩ := hasKv_iff.mp hkv
  obtain ⟨hh, hloc, hsk⟩ := hs.stored.blob hlt hb
  have hst := hs.stored.status hh hready
  constructor
  · obtain ⟨sk, hsk⟩ := Option.ne_none_iff_exists'.mp hsk
    obtain ⟨rfl, hhas⟩ := hs.stored.skeleton hlt hsk
    exact ⟨_, hsk, getOne_has hops hhas⟩
  · obtain ⟨k, hk, hl, hall⟩ := hs.stored.handles hh
    have hkk := kvLocator_inj (hk.symm.trans hloc)
    subst k
    refine ⟨h, hb, ?_, hst ▸ nofun, ?_, ?_⟩
    · intro i hi
      have hi : i < (V.payloadOf (m.forest.node x).nodeKey).length := by omega
      exact ⟨_, List.getElem?_eq_getElem hi, getLayer_has hops (hall hready) hloc
        (List.getElem?_eq_getElem hi)⟩
    · rintro item hi rfl
      have := (hs.queue hi).status
      rw [hst] at this
      cases this
    · rintro y pending hw rfl
      have := (hs.worker hw).1
      rw [hst] at this
      cases this

def numberOps : TensorOps Nat := ⟨fun _ => ⟨[1], "uint8"⟩, fun t _ => .ok t⟩

def numberValues : Values Nat where
  keyOf k _ := k ++ [1]
  payloadOf k := [(k.length, k.length + 1)]
  latentOf k := k.length

def numberMachine : MachineConfig Nat where
  ops := numberOps
  cfg := ⟨2, 0, 1, .cpu⟩
  async := true
  maxPending := 4
  accepts f a := decide (a.nodeKey = numberValues.keyOf (f.node a.parent).nodeKey a.action ∧
    a.kvPayload = pairs (numberValues.payloadOf a.nodeKey) ∧
    a.latent = numberValues.latentOf a.nodeKey ∧ a.nLayers = none)

theorem numberMachine_admits : numberValues.Admits numberMachine := by
  intro f a h
  obtain ⟨h1, h2, h3, h4⟩ := of_decide_eq_true h
  exact ⟨h1, h2, h3, fun k hk => by rw [h4] at hk; cases hk⟩

/-- One chunk goes through the queue. -/
def oneChunk : List (MachineEvent Nat) :=
  [.create [1] [2], .call ⟨0, .int 0, [1, 1], 0, [.pair (some 2) (some 3)], 2, 0, none⟩,
    .advance 0 (.ok true), .advance 0 (.ok true), .advance 0 (.ok true), .advance 0 (.ok true),
    .advance 0 (.ok true), .advance 0 (.ok true), .get, .put (.ok true), .put (.ok false), .finish]

theorem published_blobs_complete_one_chunk : ∃ m,
    Reachable (Machine.step numberMachine) (Machine.init {}) m ∧
    (m.forest.lookup [1] [.int 0]).node = some 1 ∧
    ∃ h, (m.forest.node 1).blob = some h ∧
      m.store.getLayer numberOps (m.forest.handle h) 0 = (.ok (.pair (some 2) (some 3)), m.store) := by
  obtain ⟨m, hm, hn, hp, hb, hl⟩ : ∃ m,
      run (Machine.step numberMachine) (Machine.init {}) oneChunk = some m ∧
      (m.forest.lookup [1] [.int 0]).node = some 1 ∧ (m.forest.node 1).parent ≠ none ∧
      (m.forest.node 1).nodeKey = [1, 1] ∧
      ∀ h, (m.forest.node 1).blob = some h → (m.forest.handle h).nLayers = 1 :=
    ⟨_, rfl, by decide, by decide, by decide, fun h hh => by cases hh; rfl⟩
  have hr : Reachable (Machine.step numberMachine) (Machine.init {}) m := ⟨_, hm⟩
  obtain ⟨_, h, hh, hlayers, _⟩ := published_blobs_complete (fun _ => rfl) numberMachine_admits hr hn
    .self hp
  obtain ⟨p, hp, hget⟩ := hlayers 0 (by rw [hl h hh]; decide)
  rw [hb] at hp
  cases hp
  exact ⟨m, hr, hn, h, hh, hget⟩

end CacheSeek.Proofs.AsyncPublication
